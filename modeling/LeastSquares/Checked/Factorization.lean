import LeastSquares.Checked.Access
import LeastSquares.Householder

namespace LeastSquares.Checked

variable {α : Type}

structure Reduction (α : Type) where
  packed : Jacobian α
  leading : Array α
  remaining : Array α
  reference : Array α
  permutation : Array Nat

structure QR (α : Type) where
  packed : Jacobian α
  leading : Array α
  diagonal : Array α
  columnNorms : Array α
  permutation : Array Nat

structure Factor (α : Type) where
  packed : Jacobian α
  permutation : Array Nat

namespace Reduction

variable [Scalar α]

def start (a : Jacobian α) : Except Fault (Reduction α) := do
  let norms ← collect 0 a.parameterCount fun j => return Scalar.norm (← column a j)
  return {
    packed := a
    leading := .replicate (min a.residualCount a.parameterCount) 0
    remaining := norms.toArray
    reference := norms.toArray
    permutation := .range a.parameterCount }

def largestColumn (s : Reduction α) (j : Nat) : Except Fault Nat :=
  loop j s.packed.parameterCount
    (fun best k => do
      let largest ← read s.remaining best
      let next ← read s.remaining k
      return if largest < next then k else best)
    j

def exchange (s : Reduction α) (j k : Nat) : Except Fault (Reduction α) := do
  if k = j then return s
  else
    let packed ← swapColumns s.packed j k
    let remaining ← write s.remaining k (← read s.remaining j)
    let reference ← write s.reference k (← read s.reference j)
    let permutation ← swap s.permutation j k
    return { s with packed, remaining, reference, permutation }

def downdate (s : Reduction α) (j k : Nat) : Except Fault (Reduction α) := do
  let remaining ← read s.remaining k
  if remaining == 0 then return s
  else
    let part := (← s.packed.get j k) / remaining
    let shrunk := remaining * Arith.sqrt (Arith.maxNum (1 - part * part) 0)
    let ratio := shrunk / (← read s.reference k)
    if 0.05 * ratio * ratio ≤ Arith.epsilon then
      let rest ← columnBlock s.packed (j + 1) (s.packed.residualCount - j - 1) k
      let remaining ← write s.remaining k (Scalar.norm rest)
      let reference ← write s.reference k (Scalar.norm rest)
      return { s with remaining, reference }
    else return { s with remaining := ← write s.remaining k shrunk }

def makeReflector (a : Jacobian α) (j : Nat) (size : α) : Except Fault (Jacobian α) := do
  let a ← loop j a.residualCount (fun a i => do a.set i j ((← a.get i j) / size)) a
  a.set j j ((← a.get j j) + 1)

def reflectColumn (pivoting : Bool) (j : Nat) (s : Reduction α) (k : Nat) :
    Except Fault (Reduction α) := do
  let m := s.packed.residualCount
  let terms ← collect j m fun i => return (← s.packed.get i j) * (← s.packed.get i k)
  let factor := Arith.sum terms / (← s.packed.get j j)
  let packed ← loop j m
    (fun a i => do a.set i k ((← a.get i k) - factor * (← a.get i j))) s.packed
  if pivoting then downdate { s with packed } j k else return { s with packed }

def finishColumn (s : Reduction α) (j : Nat) (size : α) : Except Fault (Reduction α) := do
  let leading ← write s.leading j (← s.packed.get j j)
  let remaining ← write s.remaining j (-size)
  let packed ← s.packed.set j j (← read remaining j)
  return { s with packed, leading, remaining }

def reduceColumn (pivoting : Bool) (s : Reduction α) (j : Nat) :
    Except Fault (Reduction α) := do
  let length := Scalar.norm (← columnBlock s.packed j (s.packed.residualCount - j) j)
  if length == 0 then s.finishColumn j length
  else
    let size := if (← s.packed.get j j) < 0 then -length else length
    let packed ← makeReflector s.packed j size
    let s ← loop (j + 1) s.packed.parameterCount (reflectColumn pivoting j) { s with packed }
    s.finishColumn j size

def step (pivoting : Bool) (s : Reduction α) (j : Nat) : Except Fault (Reduction α) := do
  if pivoting then
    let s ← s.exchange j (← s.largestColumn j)
    s.reduceColumn pivoting j
  else s.reduceColumn pivoting j

end Reduction

namespace QR

def factorize [Scalar α] (pivoting : Bool) (a : Jacobian α) : Except Fault (QR α) := do
  let start ← Reduction.start a
  let s ← loop 0 (min a.residualCount a.parameterCount) (Reduction.step pivoting) start
  return {
    packed := s.packed
    leading := s.leading
    diagonal := s.remaining
    columnNorms := start.remaining
    permutation := s.permutation }

variable [Arith α]

def reflectVector (f : QR α) (b : Array α) (j : Nat) : Except Fault (Array α) := do
  let m := f.packed.residualCount
  let lead ← read f.leading j
  if lead == 0 then return b
  else
    let terms ← collect (j + 1) m fun i => return (← f.packed.get i j) * (← read b i)
    let factor := -(lead * (← read b j) + Arith.sum terms) / lead
    let b ← write b j ((← read b j) + factor * lead)
    loop (j + 1) m (fun b i => do write b i ((← read b i) + factor * (← f.packed.get i j))) b

def applyTranspose (f : QR α) (b : Array α) : Except Fault (Array α) := do
  require (b.size = f.packed.residualCount) .rightHandSideLength
  loop 0 f.leading.size f.reflectVector b

omit [Arith α] in
def triangular (f : QR α) : Except Fault (Factor α) := do
  require (f.packed.parameterCount ≤ f.packed.residualCount) .fewerRowsThanColumns
  return ⟨f.packed, f.permutation⟩

end QR

namespace Factor

def size (f : Factor α) : Nat :=
  f.packed.parameterCount

def entry (f : Factor α) (i j : Nat) : Except Fault α := do
  require (i < f.size) .rowOutOfBounds
  f.packed.get i j

def setEntry (f : Factor α) (i j : Nat) (x : α) : Except Fault (Factor α) := do
  require (i < f.size) .rowOutOfBounds
  return { f with packed := ← f.packed.set i j x }

variable [Arith α]

def mulPermuted (f : Factor α) (v out : Array α) : Except Fault (Array α) := do
  require (v.size = f.size) .operandLength
  require (out.size = f.size) .outputLength
  loop 0 f.permutation.size
    (fun out j => do
      let factor ← read v (← read f.permutation j)
      loop 0 (j + 1)
        (fun out i => do write out i ((← read out i) + (← f.packed.get i j) * factor)) out)
    (.replicate out.size 0)

def gradientNorm (f : Factor α) (projected columnNorms : Array α) (residualNorm : α) :
    Except Fault α := do
  if residualNorm == 0 then return 0
  else
    loop 0 f.permutation.size
      (fun largest j => do
        let columnNorm ← read columnNorms (← read f.permutation j)
        if columnNorm == 0 then return largest
        else
          let terms ← collect 0 (j + 1) fun i =>
            return (← f.entry i j) * ((← read projected i) / residualNorm)
          return Arith.maxNum largest (Arith.abs (Arith.sum terms / columnNorm)))
      0

end Factor

end LeastSquares.Checked
