import LeastSquares.Run.Completion
import LeastSquares.Settings

namespace LeastSquares

variable {α σ : Type}

structure Report (α : Type) where
  termination : Termination
  evaluations : Nat
  jacobianEvaluations : Nat
  iterations : Nat
  residualNorm : α
  /-- Half the sum of squares of the residuals at the final point. -/
  objective : α
  residuals : Array α

inductive Failure (α : Type)
  | invalid (error : InputError α)
  | faulted (fault : Fault)

structure Outcome (α σ : Type) where
  result : Except (Failure α) (Report α)
  point : Array α
  problem : σ
  workspace : Workspace α
  history : History α

namespace Halt

def iteration (h : Halt α) : Nat :=
  match h.trust with
  | some trust => trust.iteration
  | none => 1

def accepted (h : Halt α) : Nat :=
  match h.trust with
  | some trust => trust.iteration - 1
  | none => 0

end Halt

def Report.closingLog (r : Report α) : List (LogRecord α) :=
  let finished := .finished r.termination r.evaluations r.jacobianEvaluations r.iterations
    r.residualNorm
  if r.termination.isPrecisionLimited ∨ r.termination = .budgetExhausted then
    [finished, .stoppedEarly r.termination]
  else [finished]

namespace Remains

def report [Scalar α] (r : Remains α σ) (halt : Halt α) : Report α :=
  let residualNorm := Scalar.norm r.workspace.residuals.toList
  { termination := halt.termination
    evaluations := r.evaluations
    jacobianEvaluations := r.jacobianEvaluations
    iterations := halt.accepted
    residualNorm
    objective := 0.5 * residualNorm * residualNorm
    residuals := r.workspace.residuals }

def outcome (r : Remains α σ) (result : Except (Failure α) (Report α))
    (closing : List (LogRecord α)) : Outcome α σ where
  result
  point := r.point
  problem := r.problem
  workspace := r.workspace
  history := r.history ++ (closing.map Event.log).toArray

def reported (r : Remains α σ) (iteration : Nat) (reply : Reply σ Unit) : Remains α σ :=
  { r with
    problem := reply.state
    history := r.history.push (.report iteration r.point r.workspace.residuals) }

def faulted (r : Remains α σ) (fault : Fault) : Outcome α σ :=
  r.outcome (.error (.faulted fault)) []

def closed [Scalar α] (r : Remains α σ) (halt : Halt α) : Outcome α σ :=
  r.outcome (.ok (r.report halt)) (r.report halt).closingLog

end Remains

/-- Closes a run, with a last report if reports are wanted. A request to stop has no effect any
more. -/
def Finished.close [Scalar α] (f : Finished α σ) (problem : Problem α σ) (reportEvery : Nat) :
    Outcome α σ :=
  let r := f.remains
  match f.result with
  | .error fault => r.faulted fault
  | .ok halt =>
    if reportEvery = 0 then r.closed halt
    else
      let reply := problem.report r.problem halt.iteration r.point r.workspace.residuals
      let r := r.reported halt.iteration reply
      match reply.answer with
      | .faulted fault => r.faulted fault
      | .aborted .. => r.closed halt
      | .done _ => r.closed halt

namespace Settings

variable [Scalar α]

def fixedScaling? (s : Settings α) (n : Nat) : Option (Vec α n) :=
  match s.scaling with
  | .adaptive => none
  | .fixed factors => Vec.ofArray? n factors

def task (s : Settings α) (problem : Problem α σ) (n : Nat)
    (valid : s.error? problem.residualCount n = none) : Task α σ problem.residualCount n where
  problem
  fixedScaling := s.fixedScaling? n
  stepBound := s.stepBound
  reportEvery := s.reportEvery
  criteria := s.criteria
  budget := s.budget n
  size_le := size_le_of_error?_eq_none valid

/-- What a minimization from `x` starts from, with a workspace that is replaced if it does not
fit. -/
def launch? {m : Nat} (state : σ) (x : Array α) (workspace : Workspace α) :
    Option (Launch α σ m x.size) := do
  let prepared := workspace.prepared m x.size
  return {
    problem := state
    point := .ofArray x
    buffers := ← prepared.buffers? m x.size
    residuals := prepared.residuals
    trialResiduals := prepared.trialResiduals }

/-- Minimizes from `x` with the buffers of a workspace. The inputs are checked before anything is
evaluated or changed. -/
def minimizeWith (s : Settings α) (problem : Problem α σ) (state : σ) (x : Array α)
    (workspace : Workspace α) : Outcome α σ :=
  let refused (failure : Failure α) : Outcome α σ :=
    { result := .error failure, point := x, problem := state, workspace, history := #[] }
  match valid : s.error? problem.residualCount x.size with
  | some error => refused (.invalid error)
  | none =>
    match launch? state x workspace with
    | some launch =>
      ((s.task problem x.size valid).run launch).close problem s.reportEvery
    | none => refused (.faulted .shapeMismatch)

def minimize (s : Settings α) (problem : Problem α σ) (state : σ) (x : Array α) : Outcome α σ :=
  s.minimizeWith problem state x (.zeros problem.residualCount x.size)

end Settings

def requiredWorkspace (m n : Nat) : Nat :=
  5 * n + m

/-- As the caller of the standard minimization chose no gradient tolerance, one that is too small
counts as convergence. -/
def Report.withoutGradientTolerance (r : Report α) : Report α :=
  if r.termination = .gradientToleranceTooSmall then { r with termination := .gradientConverged }
  else r

/-- Minimizes with one tolerance for the function and the step and standard settings otherwise. -/
def minimizeStandard [Scalar α] (problem : Problem α σ) (state : σ) (x : Array α) (tolerance : α)
    (workspace : Workspace α) : Outcome α σ :=
  let required := requiredWorkspace problem.residualCount x.size
  if workspace.size < required then
    { result := .error (.invalid (.workspaceTooSmall required workspace.size))
      point := x
      problem := state
      workspace
      history := #[] }
  else
    let settings : Settings α :=
      { Settings.standard with
        functionTolerance := tolerance
        stepTolerance := tolerance
        maxEvaluations := some (100 * (x.size + 1)) }
    let outcome := settings.minimizeWith problem state x workspace
    { outcome with result := outcome.result.map Report.withoutGradientTolerance }

end LeastSquares
