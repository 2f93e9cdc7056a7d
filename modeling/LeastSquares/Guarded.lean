import LeastSquares.DampingSearch

namespace LeastSquares.Guarded

variable {α : Type} {m n : Nat}

/-- What arithmetic does not define. -/
inductive Undefined
  | zeroDivisor
  | negativeRadicand
deriving DecidableEq, Repr

def divide [Arith α] (x y : α) : Except Undefined α :=
  if y == 0 then .error .zeroDivisor else .ok (x / y)

def root [Arith α] (x : α) : Except Undefined α :=
  if 0 ≤ x then .ok (Arith.sqrt x) else .error .negativeRadicand

def collect (f : Fin n → Except Undefined α) : Except Undefined (Vec α n) := do
  return ⟨← Vector.ofFnM f⟩

def norm [Arith α] (v : Vec α n) : Except Undefined α :=
  root (Arith.sum (v.toList.map fun x => x * x))

def eliminating [Arith α] (a b : α) : Except Undefined (Rotation α) :=
  if Arith.abs a < Arith.abs b then do
    let cotan ← divide a b
    let sin ← divide 0.5 (← root (0.25 + 0.25 * cotan * cotan))
    return ⟨sin * cotan, sin⟩
  else do
    let tan ← divide b a
    let cos ← divide 0.5 (← root (0.25 + 0.25 * tan * tan))
    return ⟨cos, cos * tan⟩

namespace Elimination

variable [Arith α]

def rotate (e : Elimination α n) (k : Fin n) : Except Undefined (Elimination α n) := do
  if e.row k == 0 then return e
  else
    let g ← eliminating (e.square k k) (e.row k)
    return {
      square := e.square.setCol k (.ofFn fun i =>
        if k ≤ i then g.cos * e.square i k + g.sin * e.row i else e.square i k)
      row := .ofFn fun i =>
        if k < i then -g.sin * e.square i k + g.cos * e.row i else e.row i
      rotated := e.rotated.set k (g.cos * e.rotated k + g.sin * e.carry)
      carry := -g.sin * e.rotated k + g.cos * e.carry }

def eliminateRow (e : Elimination α n) (j : Fin n) (d : α) :
    Except Undefined (Elimination α n) :=
  if d == 0 then .ok e
  else
    (indicesFrom n j).foldlM rotate
      { e with
        row := .ofFn fun k => if k < j then e.row k else if k = j then d else 0
        carry := 0 }

def finishRow (diagonal scaling : Vec α n) (permutation : Vec (Fin n) n) (e : Elimination α n)
    (j : Fin n) : Except Undefined (Elimination α n) := do
  let e ← eliminateRow e j (scaling (permutation j))
  return { e with
    row := e.row.set j (e.square j j)
    square := e.square.set j j (diagonal j) }

end Elimination

def solveDampedTriangle [Arith α] (lower : Mat α n n) (diagonal b : Vec α n) (rank : Nat) :
    Except Undefined (Vec α n) :=
  (indicesBelow n rank).reverse.foldlM
    (fun (z : Vec α n) (j : Fin n) => do
      let sum := Arith.sum
        (((indicesFrom n (j + 1)).filter (·.val < rank)).map fun i => lower i j * z i)
      return z.set j (← divide (z j - sum) (diagonal j)))
    (.ofFn fun i => if i.val < rank then b i else 0)

namespace Triangular

variable [Arith α]

def solveDamped (f : Triangular α m n) (scaling b row : Vec α n) :
    Except Undefined (DampedSolution α m n) := do
  let a := f.square
  let diagonal := Vec.ofFn fun j => a j j
  let e ← (List.finRange n).foldlM (Elimination.finishRow diagonal scaling f.permutation)
    { square := symmetrized a, row, rotated := b, carry := 0 }
  let rank := firstIndex fun j => negligible (e.row j)
  let permuted ← solveDampedTriangle e.square e.row e.rotated rank
  return {
    factor := f.withSquare e.square
    solution := scatter f.permutation diagonal permuted
    diagonal := e.row
    permuted }

def solveLeading (f : Triangular α m n) (b : Vec α n) : Except Undefined (Vec α n) :=
  let a := f.square
  let rank := f.rank
  (indicesBelow n rank).reverse.foldlM
    (fun (z : Vec α n) (j : Fin n) => do
      let t ← divide (z j) (a j j)
      return .ofFn fun i => if i < j then z i - a i j * t else if i = j then t else z i)
    (.ofFn fun i => if i.val < rank then b i else 0)

def solveTranspose (f : Triangular α m n) (b : Vec α n) : Except Undefined (Vec α n) :=
  let a := f.square
  (List.finRange n).foldlM
    (fun (z : Vec α n) (j : Fin n) => do
      let sum := Arith.sum ((indicesBelow n j).map fun i => a i j * z i)
      return z.set j (← divide (z j - sum) (a j j)))
    b

def solveDampedTranspose (f : Triangular α m n) (diagonal b : Vec α n) :
    Except Undefined (Vec α n) :=
  let a := f.square
  (List.finRange n).foldlM
    (fun (z : Vec α n) (j : Fin n) => do
      let t ← divide (z j) (diagonal j)
      return .ofFn fun i => if j < i then z i - a i j * t else if i = j then t else z i)
    b

end Triangular

namespace Subproblem

variable [Scalar α]

def direction (p : Subproblem α n) (permutation : Vec (Fin n) n) (scaled : Vec α n) (length : α) :
    Except Undefined (Vec α n) :=
  collect fun j => do
    return p.scaling (permutation j) * (← divide (scaled (permutation j)) length)

def newton (p : Subproblem α n) (excess : α) (w : Vec α n) : Except Undefined α := do
  let length ← norm w
  divide (← divide (← divide excess p.radius) length) length

def lowerBound (p : Subproblem α n) (f : Triangular α m n) (scaled : Vec α n)
    (length excess : α) : Except Undefined α := do
  if n ≤ f.rank then
    let direction ← direction p f.permutation scaled length
    newton p excess (← Triangular.solveTranspose f direction)
  else return 0

def scaledGradient (p : Subproblem α n) (f : Triangular α m n) : Except Undefined (Vec α n) :=
  let g := f.transposeMul p.projected
  collect fun j => divide (g j) (p.scaling (f.permutation j))

def upperBound (p : Subproblem α n) (gradientNorm : α) : Except Undefined α := do
  let bound ← divide gradientNorm p.radius
  if bound == 0 then
    divide Arith.minPositive (Arith.minNum p.radius p.tuning.searchTolerance)
  else return bound

end Subproblem

namespace SearchState

variable [Scalar α]

def solve (p : Subproblem α n) (s : SearchState α m n) : Except Undefined (SearchPass α m n) := do
  let damping := LeastSquares.Subproblem.restarted s.damping s.upper
  let root ← root damping
  let weights := p.scaling.map (· * root)
  let solved ← Triangular.solveDamped s.factor weights p.projected s.buffers.diagonal
  let scaled := p.scaled solved.solution
  let length ← norm scaled
  return { damping, solved, weights, scaled, length, excess := length - p.radius }

def corrected (p : Subproblem α n) (s : SearchState α m n) (t : SearchPass α m n) :
    Except Undefined (SearchState α m n) := do
  let direction ← Subproblem.direction p s.factor.permutation t.scaled t.length
  let w ← Triangular.solveDampedTranspose t.solved.factor t.solved.diagonal direction
  let lower := if 0 < t.excess then Arith.maxNum s.lower t.damping else s.lower
  let upper := if t.excess < 0 then Arith.minNum s.upper t.damping else s.upper
  return {
    damping := Arith.maxNum lower (t.damping + (← Subproblem.newton p t.excess w))
    lower
    upper
    excess := t.excess
    factor := t.solved.factor
    buffers := ⟨t.solved.diagonal, w, t.scaled⟩
    passes := s.passes + 1
    log := s.log ++ [s.record t] }

def run (p : Subproblem α n) : Nat → SearchState α m n → Except Undefined (SearchOutcome α m n)
  | 0, s => return s.outcome (← solve p s)
  | further + 1, s => do
    let t ← solve p s
    if s.settles p t then return s.outcome t else run p further (← corrected p s t)

end SearchState

def Subproblem.search [Scalar α] (p : Subproblem α n) (f : Triangular α m n) (estimate : α)
    (oldStep : Vec α n) (buffers : SearchBuffers α n) :
    Except Undefined (SearchOutcome α m n) := do
  let permuted ← Triangular.solveLeading f p.projected
  let solution := scatter f.permutation oldStep permuted
  let scaled := p.scaled solution
  let length ← norm scaled
  let excess := length - p.radius
  if excess ≤ p.tuning.searchTolerance * p.radius then
    return {
      damping := 0
      passes := 0
      step := solution.map (-·)
      factor := f
      buffers := { buffers with first := permuted, second := scaled }
      log := [.stepInside length p.radius] }
  else
    let lower ← lowerBound p f scaled length excess
    let gradient ← scaledGradient p f
    let gradientNorm ← norm gradient
    let upper ← upperBound p gradientNorm
    let damping := Arith.minNum (Arith.maxNum estimate lower) upper
    let damping ← (if damping == 0 then divide gradientNorm length else .ok damping)
    SearchState.run p (p.tuning.maxSearchPasses - 1)
      { damping
        lower
        upper
        excess
        factor := f
        buffers := { buffers with first := gradient, second := scaled }
        passes := 0
        log := [] }

end LeastSquares.Guarded
