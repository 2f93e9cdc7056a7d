import LeastSquares.Checked.Factorization
import LeastSquares.DampingSearch

namespace LeastSquares.Checked

variable {α : Type}

/-- What the elimination of a diagonal matrix works on: the factor, the row that is eliminated with
the finished part of the diagonal, and the right-hand side. -/
structure Elimination (α : Type) where
  factor : Factor α
  row : Array α
  rotated : Array α
  carry : α

namespace Elimination

variable [Arith α]

def rotateEntry (g : Rotation α) (k : Nat) (p : Factor α × Array α) (i : Nat) :
    Except Fault (Factor α × Array α) := do
  let r ← p.1.entry i k
  let d ← read p.2 i
  let row ← write p.2 i (-g.sin * r + g.cos * d)
  let factor ← p.1.setEntry i k (g.cos * r + g.sin * d)
  return (factor, row)

def rotate (e : Elimination α) (k : Nat) : Except Fault (Elimination α) := do
  let d ← read e.row k
  if d == 0 then return e
  else
    let g := Rotation.eliminating (← e.factor.entry k k) d
    let factor ← e.factor.setEntry k k (g.cos * (← e.factor.entry k k) + g.sin * d)
    let w ← read e.rotated k
    let rotated ← write e.rotated k (g.cos * w + g.sin * e.carry)
    let (factor, row) ← loop (k + 1) e.factor.size (rotateEntry g k) (factor, e.row)
    return { factor, row, rotated, carry := -g.sin * w + g.cos * e.carry }

def eliminateRow (e : Elimination α) (j : Nat) (d : α) : Except Fault (Elimination α) := do
  if d == 0 then return e
  else
    let row ← write (← fillBlock e.row j (e.factor.size - j) 0) j d
    loop j e.factor.size rotate { e with row, carry := 0 }

def finishRow (diagonal scaling : Array α) (e : Elimination α) (j : Nat) :
    Except Fault (Elimination α) := do
  let e ← e.eliminateRow j (← read scaling (← read e.factor.permutation j))
  let row ← write e.row j (← e.factor.entry j j)
  let factor ← e.factor.setEntry j j (← read diagonal j)
  return { e with factor, row }

end Elimination

structure DampedSolution (α : Type) where
  factor : Factor α
  solution : Array α
  diagonal : Array α
  permuted : Array α

namespace Factor

def mirrorRow (f : Factor α) (j : Nat) : Except Fault (Factor α) :=
  loop j f.size (fun f i => do f.setEntry i j (← f.entry j i)) f

def prepareRow (b : Array α) (p : Factor α × Array α × Array α) (j : Nat) :
    Except Fault (Factor α × Array α × Array α) := do
  let f ← p.1.mirrorRow j
  let solution ← write p.2.1 j (← f.entry j j)
  let permuted ← write p.2.2 j (← read b j)
  return (f, solution, permuted)

def scatter (f : Factor α) (into values : Array α) : Except Fault (Array α) :=
  loop 0 f.permutation.size
    (fun x j => do write x (← read f.permutation j) (← read values j)) into

variable [Arith α]

def substitute (f : Factor α) (diagonal : Array α) (rank : Nat) (z : Array α) (j : Nat) :
    Except Fault (Array α) := do
  let terms ← collect (j + 1) rank fun i => return (← f.entry i j) * (← read z i)
  write z j (((← read z j) - Arith.sum terms) / (← read diagonal j))

def solveDamped (f : Factor α) (scaling b solution row permuted : Array α) :
    Except Fault (DampedSolution α) := do
  let n := f.size
  require (scaling.size = n) (.dampedArgumentLength "diag")
  require (b.size = n) (.dampedArgumentLength "qtb")
  require (solution.size = n) (.dampedArgumentLength "x")
  require (row.size = n) (.dampedArgumentLength "sdiag")
  require (permuted.size = n) (.dampedArgumentLength "work")
  let (f, diagonal, rotated) ← loop 0 n (prepareRow b) (f, solution, permuted)
  let e ← loop 0 n (Elimination.finishRow diagonal scaling)
    { factor := f, row, rotated, carry := 0 }
  let rank ← findFrom (fun j => return negligible (← read e.row j)) e.row.size 0
  let permuted ← fillBlock e.rotated rank (n - rank) 0
  let permuted ← loopDown rank (e.factor.substitute e.row rank) permuted
  let solution ← e.factor.scatter diagonal permuted
  return { factor := e.factor, solution, diagonal := e.row, permuted }

def columnProduct (f : Factor α) (b : Array α) (stop j : Nat) : Except Fault α := do
  let terms ← collect 0 stop fun i => return (← f.entry i j) * (← read b i)
  return Arith.sum terms

def rank (f : Factor α) : Except Fault Nat :=
  findFrom (fun j => return negligible (← f.entry j j)) f.size 0

def solveColumn (f : Factor α) (z : Array α) (j : Nat) : Except Fault (Array α) := do
  let z ← write z j ((← read z j) / (← f.entry j j))
  let t ← read z j
  loop 0 j (fun z i => do write z i ((← read z i) - (← f.entry i j) * t)) z

def solveLeading (f : Factor α) (rank : Nat) (b out : Array α) : Except Fault (Array α) := do
  let out ← copy out b
  let out ← fillBlock out rank (f.size - rank) 0
  loopDown rank f.solveColumn out

def solveTranspose (f : Factor α) (z : Array α) : Except Fault (Array α) :=
  loop 0 f.size
    (fun z j => do
      let sum ← f.columnProduct z j j
      write z j (((← read z j) - sum) / (← f.entry j j)))
    z

def solveDampedColumn (f : Factor α) (diagonal z : Array α) (j : Nat) :
    Except Fault (Array α) := do
  let z ← write z j ((← read z j) / (← read diagonal j))
  let t ← read z j
  loop (j + 1) f.size (fun z i => do write z i ((← read z i) - (← f.entry i j) * t)) z

def solveDampedTranspose (f : Factor α) (diagonal z : Array α) : Except Fault (Array α) :=
  loop 0 f.size (f.solveDampedColumn diagonal) z

def direction (f : Factor α) (scaling scaled : Array α) (length : α) (out : Array α) :
    Except Fault (Array α) :=
  loop 0 f.permutation.size
    (fun out j => do
      let l ← read f.permutation j
      write out j ((← read scaling l) * ((← read scaled l) / length)))
    out

def scaledGradient (f : Factor α) (scaling b out : Array α) : Except Fault (Array α) :=
  loop 0 f.permutation.size
    (fun out j => do
      let sum ← f.columnProduct b (j + 1) j
      write out j (sum / (← read scaling (← read f.permutation j))))
    out

end Factor

structure Subproblem (α : Type) where
  scaling : Array α
  projected : Array α
  radius : α
  tuning : Tuning α

structure SearchOutcome (α : Type) where
  damping : α
  passes : Nat
  step : Array α
  factor : Factor α
  memory : SearchMemory α
  log : List (LogRecord α)

structure SearchState (α : Type) where
  damping : α
  lower : α
  upper : α
  excess : α
  factor : Factor α
  step : Array α
  memory : SearchMemory α
  passes : Nat
  log : List (LogRecord α)

structure SearchPass (α : Type) where
  damping : α
  length : α
  excess : α
  factor : Factor α
  step : Array α
  memory : SearchMemory α

namespace Subproblem

variable [Scalar α]

def newton (p : Subproblem α) (excess : α) (w : Array α) : α :=
  let length := Scalar.norm w.toList
  ((excess / p.radius) / length) / length

def onBoundary (p : Subproblem α) (excess : α) : Bool :=
  decide (Arith.abs excess ≤ p.tuning.searchTolerance * p.radius)

def scaled (p : Subproblem α) (out step : Array α) : Except Fault (Array α) := do
  combine (· * ·) (← copy out p.scaling) step

def lowerBound (p : Subproblem α) (f : Factor α) (rank : Nat) (scaled out : Array α)
    (length excess : α) : Except Fault (α × Array α) := do
  if f.size ≤ rank then
    let w ← f.direction p.scaling scaled length out
    let w ← f.solveTranspose w
    return (p.newton excess w, w)
  else return (0, out)

def upperBound (p : Subproblem α) (gradientNorm : α) : α :=
  let bound := gradientNorm / p.radius
  if bound == 0 then
    Arith.minPositive / Arith.minNum p.radius p.tuning.searchTolerance
  else bound

end Subproblem

namespace SearchState

variable [Scalar α]

def solve (p : Subproblem α) (s : SearchState α) : Except Fault (SearchPass α) := do
  let damping := LeastSquares.Subproblem.restarted s.damping s.upper
  let root := Arith.sqrt damping
  let weights := (← copy s.memory.first p.scaling).map (· * root)
  let solved ← s.factor.solveDamped weights p.projected s.step s.memory.diagonal s.memory.second
  let scaled ← p.scaled solved.permuted solved.solution
  let length := Scalar.norm scaled.toList
  return {
    damping
    length
    excess := length - p.radius
    factor := solved.factor
    step := solved.solution
    memory := ⟨solved.diagonal, weights, scaled⟩ }

def record (s : SearchState α) (t : SearchPass α) : LogRecord α :=
  .searchPass (s.passes + 1) t.damping t.length s.lower s.upper

def settles (p : Subproblem α) (s : SearchState α) (t : SearchPass α) : Bool :=
  p.onBoundary t.excess
    || (s.lower == 0 && decide (t.excess ≤ s.excess) && decide (s.excess < 0))

def outcome (s : SearchState α) (t : SearchPass α) : SearchOutcome α where
  damping := t.damping
  passes := s.passes + 1
  step := t.step.map (-·)
  factor := t.factor
  memory := t.memory
  log := s.log ++ [s.record t]

def corrected (p : Subproblem α) (s : SearchState α) (t : SearchPass α) :
    Except Fault (SearchState α) := do
  let w ← t.factor.direction p.scaling t.memory.second t.length t.memory.first
  let w ← t.factor.solveDampedTranspose t.memory.diagonal w
  let lower := if 0 < t.excess then Arith.maxNum s.lower t.damping else s.lower
  let upper := if t.excess < 0 then Arith.minNum s.upper t.damping else s.upper
  return {
    damping := Arith.maxNum lower (t.damping + p.newton t.excess w)
    lower
    upper
    excess := t.excess
    factor := t.factor
    step := t.step
    memory := { t.memory with first := w }
    passes := s.passes + 1
    log := s.log ++ [s.record t] }

def run (p : Subproblem α) : Nat → SearchState α → Except Fault (SearchOutcome α)
  | 0, s => return s.outcome (← s.solve p)
  | further + 1, s => do
    let t ← s.solve p
    if s.settles p t then return s.outcome t else run p further (← s.corrected p t)

end SearchState

namespace Subproblem

variable [Scalar α]

def search (p : Subproblem α) (f : Factor α) (estimate : α) (step : Array α)
    (memory : SearchMemory α) : Except Fault (SearchOutcome α) := do
  let n := f.size
  require (p.scaling.size = n) .searchScalingLength
  require (p.projected.size = n) .searchResidualLength
  require (step.size = n) .searchStepLength
  let memory := memory.resized n
  let rank ← f.rank
  let permuted ← f.solveLeading rank p.projected memory.first
  let step ← f.scatter step permuted
  let scaled ← p.scaled memory.second step
  let length := Scalar.norm scaled.toList
  let excess := length - p.radius
  if excess ≤ p.tuning.searchTolerance * p.radius then
    return {
      damping := 0
      passes := 0
      step := step.map (-·)
      factor := f
      memory := { memory with first := permuted, second := scaled }
      log := [.stepInside length p.radius] }
  else
    let (lower, w) ← p.lowerBound f rank scaled permuted length excess
    let gradient ← f.scaledGradient p.scaling p.projected w
    let gradientNorm := Scalar.norm gradient.toList
    let upper := p.upperBound gradientNorm
    let damping := Arith.minNum (Arith.maxNum estimate lower) upper
    SearchState.run p (p.tuning.maxSearchPasses - 1)
      { damping := if damping == 0 then gradientNorm / length else damping
        lower
        upper
        excess
        factor := f
        step
        memory := { memory with first := gradient, second := scaled }
        passes := 0
        log := [] }

end Subproblem

end LeastSquares.Checked
