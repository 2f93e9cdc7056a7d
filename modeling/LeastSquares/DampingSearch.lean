import LeastSquares.Damped
import LeastSquares.Log
import LeastSquares.TrustRegion

namespace LeastSquares

variable {α : Type} {m n : Nat}

structure SearchBuffers (α : Type) (n : Nat) where
  diagonal : Vec α n
  first : Vec α n
  second : Vec α n

/-- What a search is asked for: the length of a step is measured after scaling and compared with
the radius, and `projected` is the leading part of the residuals after the reflections. -/
structure Subproblem (α : Type) (n : Nat) where
  scaling : Vec α n
  projected : Vec α n
  radius : α
  tuning : Tuning α

structure SearchOutcome (α : Type) (m n : Nat) where
  damping : α
  passes : Nat
  step : Vec α n
  factor : Triangular α m n
  buffers : SearchBuffers α n
  log : List (LogRecord α)

namespace Triangular

variable [Arith α]

/-- The number of leading diagonal elements that are not negligible. -/
def rank (f : Triangular α m n) : Nat :=
  firstIndex fun j => negligible (f.square j j)

def solveLeading (f : Triangular α m n) (b : Vec α n) : Vec α n :=
  let a := f.square
  let rank := f.rank
  (indicesBelow n rank).reverse.foldl
    (fun (z : Vec α n) (j : Fin n) =>
      let t := z j / a j j
      .ofFn fun i => if i < j then z i - a i j * t else if i = j then t else z i)
    (.ofFn fun i => if i.val < rank then b i else 0)

def solveTranspose (f : Triangular α m n) (b : Vec α n) : Vec α n :=
  let a := f.square
  (List.finRange n).foldl
    (fun (z : Vec α n) (j : Fin n) =>
      let sum := Arith.sum ((indicesBelow n j).map fun i => a i j * z i)
      z.set j ((z j - sum) / a j j))
    b

def solveDampedTranspose (f : Triangular α m n) (diagonal b : Vec α n) : Vec α n :=
  let a := f.square
  (List.finRange n).foldl
    (fun (z : Vec α n) (j : Fin n) =>
      let t := z j / diagonal j
      .ofFn fun i => if j < i then z i - a i j * t else if i = j then t else z i)
    b

def transposeMul (f : Triangular α m n) (b : Vec α n) : Vec α n :=
  let a := f.square
  .ofFn fun j => Arith.sum ((indicesBelow n (j + 1)).map fun i => a i j * b i)

end Triangular

namespace Subproblem

variable [Scalar α]

def scaled (p : Subproblem α n) (step : Vec α n) : Vec α n :=
  .ofFn fun i => p.scaling i * step i

def direction (p : Subproblem α n) (permutation : Vec (Fin n) n) (scaled : Vec α n) (length : α) :
    Vec α n :=
  .ofFn fun j => p.scaling (permutation j) * (scaled (permutation j) / length)

/-- The Newton correction of the damping for a step that is longer than the radius by `excess`,
where `w` is the solution of the transposed system along the step. -/
def newton (p : Subproblem α n) (excess : α) (w : Vec α n) : α :=
  let length := norm w
  ((excess / p.radius) / length) / length

def onBoundary (p : Subproblem α n) (excess : α) : Bool :=
  decide (Arith.abs excess ≤ p.tuning.searchTolerance * p.radius)

/-- A damping of zero restarts from a small fraction of the upper bound. -/
def restarted (damping upper : α) : α :=
  if damping == 0 then Arith.maxNum Arith.minPositive (0.001 * upper) else damping

def lowerBound (p : Subproblem α n) (f : Triangular α m n) (scaled : Vec α n)
    (length excess : α) : α :=
  if n ≤ f.rank then
    p.newton excess (f.solveTranspose (p.direction f.permutation scaled length))
  else 0

def scaledGradient (p : Subproblem α n) (f : Triangular α m n) : Vec α n :=
  let g := f.transposeMul p.projected
  .ofFn fun j => g j / p.scaling (f.permutation j)

def upperBound (p : Subproblem α n) (gradientNorm : α) : α :=
  let bound := gradientNorm / p.radius
  if bound == 0 then
    Arith.minPositive / Arith.minNum p.radius p.tuning.searchTolerance
  else bound

end Subproblem

structure SearchState (α : Type) (m n : Nat) where
  damping : α
  lower : α
  upper : α
  /-- By how much the last step was longer than the radius. -/
  excess : α
  factor : Triangular α m n
  buffers : SearchBuffers α n
  passes : Nat
  log : List (LogRecord α)

structure SearchPass (α : Type) (m n : Nat) where
  damping : α
  solved : DampedSolution α m n
  weights : Vec α n
  scaled : Vec α n
  length : α
  excess : α

namespace SearchState

variable [Scalar α]

def solve (p : Subproblem α n) (s : SearchState α m n) : SearchPass α m n :=
  let damping := Subproblem.restarted s.damping s.upper
  let root := Arith.sqrt damping
  let weights := p.scaling.map (· * root)
  let solved := s.factor.solveDamped weights p.projected s.buffers.diagonal
  let scaled := p.scaled solved.solution
  let length := norm scaled
  { damping, solved, weights, scaled, length, excess := length - p.radius }

def record (s : SearchState α m n) (t : SearchPass α m n) : LogRecord α :=
  .searchPass (s.passes + 1) t.damping t.length s.lower s.upper

/-- Whether a pass ends the search before the limit on the passes does. -/
def settles (p : Subproblem α n) (s : SearchState α m n) (t : SearchPass α m n) : Bool :=
  p.onBoundary t.excess
    || (s.lower == 0 && decide (t.excess ≤ s.excess) && decide (s.excess < 0))

def outcome (s : SearchState α m n) (t : SearchPass α m n) : SearchOutcome α m n where
  damping := t.damping
  passes := s.passes + 1
  step := t.solved.solution.map (-·)
  factor := t.solved.factor
  buffers := ⟨t.solved.diagonal, t.weights, t.scaled⟩
  log := s.log ++ [s.record t]

/-- The state after a pass that was not the last one: the bracket shrinks to the side of the
boundary and the damping takes a Newton step that stays above the lower bound. -/
def corrected (p : Subproblem α n) (s : SearchState α m n) (t : SearchPass α m n) :
    SearchState α m n :=
  let w := t.solved.factor.solveDampedTranspose t.solved.diagonal
    (p.direction s.factor.permutation t.scaled t.length)
  let lower := if 0 < t.excess then Arith.maxNum s.lower t.damping else s.lower
  let upper := if t.excess < 0 then Arith.minNum s.upper t.damping else s.upper
  { damping := Arith.maxNum lower (t.damping + p.newton t.excess w)
    lower
    upper
    excess := t.excess
    factor := t.solved.factor
    buffers := ⟨t.solved.diagonal, w, t.scaled⟩
    passes := s.passes + 1
    log := s.log ++ [s.record t] }

/-- Makes at least one pass, and at most `further` after it. -/
def run (p : Subproblem α n) : Nat → SearchState α m n → SearchOutcome α m n
  | 0, s => s.outcome (s.solve p)
  | further + 1, s =>
    let t := s.solve p
    if s.settles p t then s.outcome t else run p further (s.corrected p t)

end SearchState

namespace Subproblem

variable [Scalar α]

/-- Searches for the damping parameter, starting from an estimate. The old step and the buffers are
only overwritten. -/
def search (p : Subproblem α n) (f : Triangular α m n) (estimate : α) (oldStep : Vec α n)
    (buffers : SearchBuffers α n) : SearchOutcome α m n :=
  let permuted := f.solveLeading p.projected
  let solution := scatter f.permutation oldStep permuted
  let scaled := p.scaled solution
  let length := norm scaled
  let excess := length - p.radius
  if excess ≤ p.tuning.searchTolerance * p.radius then
    { damping := 0
      passes := 0
      step := solution.map (-·)
      factor := f
      buffers := { buffers with first := permuted, second := scaled }
      log := [.stepInside length p.radius] }
  else
    let lower := p.lowerBound f scaled length excess
    let gradient := p.scaledGradient f
    let gradientNorm := norm gradient
    let upper := p.upperBound gradientNorm
    let damping := Arith.minNum (Arith.maxNum estimate lower) upper
    SearchState.run p (p.tuning.maxSearchPasses - 1)
      { damping := if damping == 0 then gradientNorm / length else damping
        lower
        upper
        excess
        factor := f
        buffers := { buffers with first := gradient, second := scaled }
        passes := 0
        log := [] }

end Subproblem

structure SearchMemory (α : Type) where
  diagonal : Array α
  first : Array α
  second : Array α

namespace SearchMemory

variable [Zero α]

def zeros (n : Nat) : SearchMemory α :=
  ⟨.replicate n 0, .replicate n 0, .replicate n 0⟩

def size (s : SearchMemory α) : Nat :=
  s.diagonal.size + s.first.size + s.second.size

def resized (s : SearchMemory α) (n : Nat) : SearchMemory α :=
  if s.diagonal.size = n then s else zeros n

def buffers? (s : SearchMemory α) (n : Nat) : Option (SearchBuffers α n) := do
  let s := s.resized n
  return ⟨← Vec.ofArray? n s.diagonal, ← Vec.ofArray? n s.first, ← Vec.ofArray? n s.second⟩

def ofBuffers (b : SearchBuffers α n) : SearchMemory α :=
  ⟨b.diagonal.toArray, b.first.toArray, b.second.toArray⟩

end SearchMemory

def Factor.search [Scalar α] (f : Factor α) (scaling projected : Array α) (radius estimate : α)
    (tuning : Tuning α) (step : Array α) (scratch : SearchMemory α) :
    Except Fault (SearchOutcome α f.rows f.size) :=
  match Vec.ofArray? f.size scaling with
  | none => .error .searchScalingLength
  | some scaling =>
    match Vec.ofArray? f.size projected with
    | none => .error .searchResidualLength
    | some projected =>
      match Vec.ofArray? f.size step with
      | none => .error .searchStepLength
      | some step =>
        match scratch.buffers? f.size with
        | none => .error .shapeMismatch
        | some buffers =>
          let p : Subproblem α f.size := { scaling, projected, radius, tuning }
          .ok (p.search f.triangular estimate step buffers)

end LeastSquares
