import LeastSquares.Householder
import LeastSquares.Jacobian

namespace LeastSquares

variable {α : Type} {m n : Nat}

/-- A triangular factor of size `n`, kept in the first rows of the matrix that was factored. -/
structure Triangular (α : Type) (m n : Nat) where
  packed : Mat α m n
  permutation : Vec (Fin n) n
  size_le : n ≤ m

namespace Triangular

def square (f : Triangular α m n) : Mat α n n :=
  .ofFn fun i j => f.packed (i.castLE f.size_le) j

@[simp] theorem square_apply (f : Triangular α m n) (i j : Fin n) :
    f.square i j = f.packed (i.castLE f.size_le) j := by
  simp [square]

/-- Replaces the working matrix. The rows below it stay. -/
def withSquare (f : Triangular α m n) (a : Mat α n n) : Triangular α m n :=
  { f with packed := .ofFn fun i j => if h : i.val < n then a ⟨i, h⟩ j else f.packed i j }

@[simp] theorem square_withSquare (f : Triangular α m n) (a : Mat α n n) :
    (f.withSquare a).square = a := by
  ext i j
  simp [withSquare]

@[simp] theorem permutation_withSquare (f : Triangular α m n) (a : Mat α n n) :
    (f.withSquare a).permutation = f.permutation :=
  rfl

def r [Zero α] (f : Triangular α m n) : Mat α n n :=
  .ofFn fun i j => if i ≤ j then f.square i j else 0

def mulPermuted [Arith α] (f : Triangular α m n) (v : Vec α n) : Vec α n :=
  let a := f.square
  .ofFn fun i =>
    (indicesFrom n i).foldl (fun total j => total + a i j * v (f.permutation j)) 0

end Triangular

namespace QR

def triangular (f : QR α m n) (h : n ≤ m) : Triangular α m n :=
  ⟨f.packed, f.permutation, h⟩

end QR

/-- Reads a permutation of the indices below `n`: the right number of indices, each in range and
none of them twice. -/
def readPermutation (n : Nat) (p : Array Nat) : Except Fault (Vec (Fin n) n) :=
  if p.size = n then
    match go p.toList (.fill n false) with
    | some indices =>
      match Vec.ofArray? n indices.toArray with
      | some v => .ok v
      | none => .error .permutationLength
    | none => .error .notPermutation
  else .error .permutationLength
where
  go : List Nat → Vec Bool n → Option (List (Fin n))
    | [], _ => some []
    | i :: rest, seen =>
      if h : i < n then
        if seen ⟨i, h⟩ then none
        else (go rest (seen.set ⟨i, h⟩ true)).map (⟨i, h⟩ :: ·)
      else none

structure Factorization (α : Type) where
  residualCount : Nat
  parameterCount : Nat
  qr : QR α residualCount parameterCount

structure Factor (α : Type) where
  rows : Nat
  size : Nat
  triangular : Triangular α rows size

namespace Factorization

def ofJacobian [Scalar α] (pivoting : Bool) (a : Jacobian α) : Factorization α :=
  ⟨a.residualCount, a.parameterCount, .factorize pivoting a.entries⟩

def applyTranspose [Arith α] (f : Factorization α) (b : Array α) : Except Fault (Array α) :=
  match Vec.ofArray? f.residualCount b with
  | some b => .ok (f.qr.applyTranspose b).toArray
  | none => .error .rightHandSideLength

def factor (f : Factorization α) : Except Fault (Factor α) :=
  if h : f.parameterCount ≤ f.residualCount then .ok ⟨_, _, f.qr.triangular h⟩
  else .error .fewerRowsThanColumns

end Factorization

namespace Factor

def ofMatrix (r : Jacobian α) (permutation : Array Nat) : Except Fault (Factor α) :=
  if h : r.residualCount = r.parameterCount then do
    let p ← readPermutation r.parameterCount permutation
    .ok ⟨_, _, ⟨r.entries, p, Nat.le_of_eq h.symm⟩⟩
  else .error .notSquare

def entry (f : Factor α) (i j : Nat) : Except Fault α :=
  if hi : i < f.size then
    if hj : j < f.size then .ok (f.triangular.square ⟨i, hi⟩ ⟨j, hj⟩)
    else .error .indexOutOfBounds
  else .error .rowOutOfBounds

def mulPermuted [Arith α] (f : Factor α) (v : Array α) (outputLength : Nat) :
    Except Fault (Array α) :=
  match Vec.ofArray? f.size v with
  | some v =>
    if outputLength = f.size then .ok (f.triangular.mulPermuted v).toArray
    else .error .outputLength
  | none => .error .operandLength

/-- Gives the storage back as a matrix of zeros. -/
def toJacobian [Zero α] (f : Factor α) : Jacobian α :=
  .zeros f.rows f.size

end Factor

end LeastSquares
