import LeastSquares.Checked.Search
import LeastSquares.Minimize

namespace LeastSquares.Checked

variable {α σ : Type}

structure Task (α σ : Type) where
  problem : Problem α σ
  residualCount : Nat
  fixedScaling : Option (Array α)
  stepBound : α
  reportEvery : Nat
  criteria : Criteria α
  budget : Nat

inductive Phase (α : Type)
  | linearize (matrix : Jacobian α) (progress : Progress α)
  | attempt (factor : Factor α) (trust : TrustRegion α)

/-- Where a step of a run leads. What a run changes is what it would leave behind. -/
inductive Advance (α σ : Type)
  | continues (run : Remains α σ) (phase : Phase α)
  | ends (halt : Halt α) (left : Remains α σ)

def logged (r : Remains α σ) (records : List (LogRecord α)) : Remains α σ :=
  { r with history := r.history ++ (records.map Event.log).toArray }

def answered {β : Type} (answer : Answer β) (aborted : Abort → β → Advance α σ)
    (done : β → Except Fault (Advance α σ)) : Except Fault (Advance α σ) :=
  match answer with
  | .faulted fault => .error fault
  | .aborted abort output => return aborted abort output
  | .done output => done output

def judged (termination : Option Termination) (trust : TrustRegion α) (r : Remains α σ)
    (next : Except Fault (Advance α σ)) : Except Fault (Advance α σ) :=
  match termination with
  | some termination => return .ends ⟨termination, some trust⟩ r
  | none => next

def fixedFactors? : Scaling α → Option (Array α)
  | .adaptive => none
  | .fixed factors => some factors

namespace Task

def ofSettings [Scalar α] (s : Settings α) (problem : Problem α σ) (n : Nat) : Task α σ where
  problem
  residualCount := problem.residualCount
  fixedScaling := fixedFactors? s.scaling
  stepBound := s.stepBound
  reportEvery := s.reportEvery
  criteria := s.criteria
  budget := s.budget n

variable [Scalar α] (t : Task α σ)

def initialScaling (scaling columnNorms : Array α) : Except Fault (Array α) :=
  match t.fixedScaling with
  | some factors => copy scaling factors
  | none => combine (fun _ norm => if norm == 0 then 1 else norm) scaling columnNorms

def raisedScaling (scaling columnNorms : Array α) : Except Fault (Array α) :=
  match t.fixedScaling with
  | some _ => return scaling
  | none => combine Arith.maxNum scaling columnNorms

def resumed (r : Remains α σ) (columnNorms : Array α) :
    Progress α → Except Fault (TrustRegion α × Array α)
  | .underway trust => return (trust, r.workspace.scaling)
  | .fresh residualNorm => do
    let scaling ← t.initialScaling r.workspace.scaling columnNorms
    let pointNorm ← scaledNorm? scaling r.point
    return (.initial t.stepBound pointNorm residualNorm, scaling)

def factorize (r : Remains α σ) (jacobian : Jacobian α) (progress : Progress α) :
    Except Fault (Advance α σ) := do
  let w := r.workspace
  let qr ← QR.factorize true jacobian
  let columnNorms ← copy w.columnNorms qr.columnNorms
  let (trust, scaling) ← t.resumed r columnNorms progress
  let reflected ← qr.applyTranspose (← copy w.reflected w.residuals)
  let projected ← copy w.projected (← block reflected 0 r.point.size)
  let factor ← qr.triangular
  let gradientNorm ← factor.gradientNorm projected columnNorms trust.residualNorm
  let (trust, verdict) := trust.observe t.criteria (.gradient gradientNorm)
  let r := logged
    { r with workspace := { w with columnNorms, scaling, reflected, projected } }
    [.iteration trust.iteration trust.residualNorm trust.radius trust.damping trust.gradientNorm]
  judged verdict.termination trust r do
    let scaling ← t.raisedScaling scaling columnNorms
    return .continues { r with workspace := { r.workspace with scaling } } (.attempt factor trust)

def inform (r : Remains α σ) (jacobian : Jacobian α) (progress : Progress α) :
    Except Fault (Advance α σ) :=
  if 0 < t.reportEvery ∧ (progress.iteration - 1) % t.reportEvery = 0 then
    let reply := t.problem.report r.problem progress.iteration r.point r.workspace.residuals
    let r := r.reported progress.iteration reply
    answered reply.answer (fun abort _ => .ends ⟨.aborted abort.status, progress.trust?⟩ r)
      fun _ => t.factorize r jacobian progress
  else t.factorize r jacobian progress

def linearize (r : Remains α σ) (matrix : Jacobian α) (progress : Progress α) :
    Except Fault (Advance α σ) :=
  let reply := t.problem.jacobian r.problem r.point matrix
  let r := { r with
    problem := reply.state
    jacobianEvaluations := r.jacobianEvaluations + 1
    history := r.history.push (.jacobian r.point matrix reply.answer.output?) }
  answered reply.answer (fun abort _ => .ends ⟨.aborted abort.status, progress.trust?⟩ r)
    fun written => do
    require (written.residualCount = matrix.residualCount ∧
      written.parameterCount = matrix.parameterCount) .jacobianDimensionsChanged
    t.inform r written progress

def judge (r : Remains α σ) (factor : Factor α) (trust : TrustRegion α) (trial : Trial α) :
    Except Fault (Advance α σ) := do
  let w := r.workspace
  let (trust, verdict) := trust.observe t.criteria (.trial trial)
  if verdict.accepted then
    let point ← copy r.point w.trialPoint
    let r := { r with
      point
      workspace := { w with residuals := w.trialResiduals, trialResiduals := w.residuals } }
    judged verdict.termination trust r
      (return .continues r (.linearize (factor.packed.fill 0) (.underway trust)))
  else
    let r := logged r [.rejected trial.residualNorm trust.radius trust.damping]
    judged verdict.termination trust r (return .continues r (.attempt factor trust))

def attempt (r : Remains α σ) (factor : Factor α) (trust : TrustRegion α) :
    Except Fault (Advance α σ) := do
  let w := r.workspace
  let p : Subproblem α :=
    { scaling := w.scaling
      projected := w.projected
      radius := trust.radius
      tuning := t.criteria.tuning }
  let found ← p.search factor trust.damping w.step w.search
  let trialPoint ← combine (· + ·) (← copy w.trialPoint r.point) found.step
  let stepNorm ← scaledNorm? w.scaling found.step
  let linearChange ← found.factor.mulPermuted found.step w.linearChange
  let pointNorm ← scaledNorm? w.scaling trialPoint
  let w := { w with step := found.step, trialPoint, linearChange, search := found.memory }
  let reply := t.problem.residuals r.problem trialPoint w.trialResiduals
  let r := { logged r found.log with
    problem := reply.state
    workspace := w
    evaluations := r.evaluations + 1
    history := (logged r found.log).history.push (.residuals trialPoint reply.answer.output?) }
  answered reply.answer
    (fun abort buffer => .ends ⟨.aborted abort.status, some trust⟩
      { r with workspace := { w with trialResiduals := buffer } })
    fun written => do
    require (written.size = t.residualCount) .residualCountChanged
    t.judge { r with workspace := { w with trialResiduals := written } } found.factor trust
      { residualNorm := Scalar.norm written.toList
        stepNorm
        linearNorm := Scalar.norm linearChange.toList
        damping := found.damping
        pointNorm
        budgetExhausted := decide (t.budget ≤ r.evaluations) }

def advance (r : Remains α σ) : Phase α → Except Fault (Advance α σ)
  | .linearize matrix progress => t.linearize r matrix progress
  | .attempt factor trust => t.attempt r factor trust

def start (state : σ) (x : Array α) (w : Workspace α) : Except Fault (Advance α σ) :=
  let w := w.prepared t.residualCount x.size
  let reply := t.problem.residuals state x w.residuals
  let left (residuals : Array α) : Remains α σ :=
    { problem := reply.state
      point := x
      workspace := { w with residuals }
      evaluations := 1
      jacobianEvaluations := 0
      history := #[.residuals x reply.answer.output?] }
  answered reply.answer
    (fun abort written => .ends ⟨.aborted abort.status, none⟩ (left written))
    fun written => do
    require (written.size = t.residualCount) .residualCountChanged
    return .continues (left written)
      (.linearize (.zeros t.residualCount x.size) (.fresh (Scalar.norm written.toList)))

/-- The run that goes on from what a step gave makes no fault, and halts. -/
inductive Halts : Except Fault (Advance α σ) → Halt α → Remains α σ → Prop
  | ends {halt : Halt α} {left : Remains α σ} : Halts (.ok (.ends halt left)) halt left
  | continues {r left : Remains α σ} {phase : Phase α} {halt : Halt α}
    (rest : Halts (t.advance r phase) halt left) : Halts (.ok (.continues r phase)) halt left

end Task

/-- A minimization makes no fault, and has an outcome. -/
inductive Minimizes [Scalar α] (s : Settings α) (problem : Problem α σ) (state : σ) (x : Array α)
    (w : Workspace α) : Outcome α σ → Prop
  | refused {error : InputError α} (invalid : s.error? problem.residualCount x.size = some error) :
    Minimizes s problem state x w
      { result := .error (.invalid error), point := x, problem := state, workspace := w
        history := #[] }
  | closed {halt : Halt α} {left : Remains α σ}
    (valid : s.error? problem.residualCount x.size = none)
    (halts : (Task.ofSettings s problem x.size).Halts
      ((Task.ofSettings s problem x.size).start state x w) halt left) :
    Minimizes s problem state x w (Finished.close ⟨.ok halt, left⟩ problem s.reportEvery)

inductive MinimizesStandard [Scalar α] (problem : Problem α σ) (state : σ) (x : Array α)
    (tolerance : α) (w : Workspace α) : Outcome α σ → Prop
  | refused {required : Nat} (needed : required = requiredWorkspace problem.residualCount x.size)
    (small : w.size < required) :
    MinimizesStandard problem state x tolerance w
      { result := .error (.invalid (.workspaceTooSmall required w.size)), point := x
        problem := state, workspace := w, history := #[] }
  | minimized {out : Outcome α σ}
    (large : requiredWorkspace problem.residualCount x.size ≤ w.size)
    (minimizes : Minimizes
      { Settings.standard with
        functionTolerance := tolerance
        stepTolerance := tolerance
        maxEvaluations := some (100 * (x.size + 1)) }
      problem state x w out) :
    MinimizesStandard problem state x tolerance w
      { out with result := out.result.map Report.withoutGradientTolerance }

end LeastSquares.Checked
