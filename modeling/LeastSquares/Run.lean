import LeastSquares.Gradient
import LeastSquares.History
import LeastSquares.Workspace

namespace LeastSquares

variable {α σ : Type} {m n : Nat}

structure Task (α σ : Type) (m n : Nat) where
  problem : Problem α σ
  /-- The scaling factors, if they do not follow the Jacobian. -/
  fixedScaling : Option (Vec α n)
  stepBound : α
  reportEvery : Nat
  criteria : Criteria α
  budget : Nat
  size_le : n ≤ m

structure Run (α σ : Type) (m n : Nat) where
  problem : σ
  point : Vec α n
  residuals : Vec α m
  trialResiduals : Array α
  buffers : Buffers α m n
  evaluations : Nat
  jacobianEvaluations : Nat
  history : History α

/-- What is known of the trust region when a Jacobian is due: only the residual norm before the
first iteration, all of it later. -/
inductive Progress (α : Type)
  | fresh (residualNorm : α)
  | underway (trust : TrustRegion α)

namespace Progress

def trust? : Progress α → Option (TrustRegion α)
  | fresh _ => none
  | underway trust => some trust

def iteration : Progress α → Nat
  | fresh _ => 1
  | underway trust => trust.iteration

end Progress

inductive Phase (α : Type) (m n : Nat)
  | linearize (matrix : Mat α m n) (progress : Progress α)
  | attempt (factor : Triangular α m n) (trust : TrustRegion α)

/-- Why a run halts, and its trust region if it got as far as having one. -/
structure Halt (α : Type) where
  termination : Termination
  trust : Option (TrustRegion α)

structure Remains (α σ : Type) where
  problem : σ
  point : Array α
  workspace : Workspace α
  evaluations : Nat
  jacobianEvaluations : Nat
  history : History α

structure Finished (α σ : Type) where
  result : Except Fault (Halt α)
  remains : Remains α σ

inductive Advance (α σ : Type) (m n : Nat)
  | continues (run : Run α σ m n) (phase : Phase α m n)
  | ends (finished : Finished α σ)

namespace Run

def log (r : Run α σ m n) (records : List (LogRecord α)) : Run α σ m n :=
  { r with history := r.history ++ (records.map Event.log).toArray }

def remains (r : Run α σ m n) : Remains α σ where
  problem := r.problem
  point := r.point.toArray
  workspace := .ofBuffers r.buffers r.residuals.toArray r.trialResiduals
  evaluations := r.evaluations
  jacobianEvaluations := r.jacobianEvaluations
  history := r.history

def halt (r : Run α σ m n) (termination : Termination) (trust : Option (TrustRegion α)) :
    Advance α σ m n :=
  .ends ⟨.ok ⟨termination, trust⟩, r.remains⟩

def fault (r : Run α σ m n) (fault : Fault) : Advance α σ m n :=
  .ends ⟨.error fault, r.remains⟩

variable [Scalar α]

/-- The scaling factors from which a run starts. A zero column gets the factor one. -/
def initialScaling (t : Task α σ m n) (columnNorms : Vec α n) : Vec α n :=
  match t.fixedScaling with
  | some factors => factors
  | none => columnNorms.map fun norm => if norm == 0 then 1 else norm

/-- The scaling factors after another Jacobian. They follow the largest column norms. -/
def raisedScaling (t : Task α σ m n) (scaling columnNorms : Vec α n) : Vec α n :=
  match t.fixedScaling with
  | some _ => scaling
  | none => .ofFn fun j => Arith.maxNum (scaling j) (columnNorms j)

def resumed (t : Task α σ m n) (r : Run α σ m n) (columnNorms : Vec α n) :
    Progress α → TrustRegion α × Vec α n
  | .underway trust => (trust, r.buffers.scaling)
  | .fresh residualNorm =>
    let scaling := initialScaling t columnNorms
    (TrustRegion.initial t.stepBound (scaledNorm scaling r.point) residualNorm, scaling)

def factored (t : Task α σ m n) (r : Run α σ m n) (qr : QR α m n) (scaling : Vec α n) :
    Run α σ m n :=
  let reflected := qr.applyTranspose r.residuals
  { r with
    buffers :=
      { r.buffers with
        scaling
        projected := reflected.leading t.size_le
        reflected
        columnNorms := qr.columnNorms } }

/-- The trust region that is told the gradient at the current point, and whether that ends the
run. -/
def gradientTest (t : Task α σ m n) (r : Run α σ m n) (qr : QR α m n) (trust : TrustRegion α) :
    TrustRegion α × Verdict :=
  trust.observe t.criteria (.gradient
    ((qr.triangular t.size_le).gradientNorm r.buffers.projected qr.columnNorms
      trust.residualNorm))

def announced (r : Run α σ m n) (trust : TrustRegion α) : Run α σ m n :=
  r.log
    [.iteration trust.iteration trust.residualNorm trust.radius trust.damping trust.gradientNorm]

def rescaled (r : Run α σ m n) (scaling : Vec α n) : Run α σ m n :=
  { r with buffers := { r.buffers with scaling } }

def factorize (t : Task α σ m n) (r : Run α σ m n) (jacobian : Mat α m n)
    (progress : Progress α) : Advance α σ m n :=
  let qr := QR.factorize true jacobian
  let (trust, scaling) := r.resumed t qr.columnNorms progress
  let r := r.factored t qr scaling
  let (trust, verdict) := r.gradientTest t qr trust
  let r := r.announced trust
  match verdict.termination with
  | some termination => r.halt termination (some trust)
  | none =>
    .continues (r.rescaled (raisedScaling t scaling qr.columnNorms))
      (.attempt (qr.triangular t.size_le) trust)

def reportDue (t : Task α σ m n) (iteration : Nat) : Bool :=
  decide (0 < t.reportEvery) && (iteration - 1) % t.reportEvery == 0

def jacobianReply (t : Task α σ m n) (r : Run α σ m n) (matrix : Mat α m n) :
    Reply σ (Jacobian α) :=
  t.problem.jacobian r.problem r.point.toArray ⟨m, n, matrix⟩

def differentiated (r : Run α σ m n) (matrix : Mat α m n) (reply : Reply σ (Jacobian α)) :
    Run α σ m n :=
  { r with
    problem := reply.state
    jacobianEvaluations := r.jacobianEvaluations + 1
    history := r.history.push
      (.jacobian r.point.toArray ⟨m, n, matrix⟩ reply.answer.output?) }

def reportReply (t : Task α σ m n) (r : Run α σ m n) (iteration : Nat) : Reply σ Unit :=
  t.problem.report r.problem iteration r.point.toArray r.residuals.toArray

def reported (r : Run α σ m n) (iteration : Nat) (reply : Reply σ Unit) : Run α σ m n :=
  { r with
    problem := reply.state
    history := r.history.push (.report iteration r.point.toArray r.residuals.toArray) }

def inform (t : Task α σ m n) (r : Run α σ m n) (jacobian : Mat α m n) (progress : Progress α) :
    Advance α σ m n :=
  if reportDue t progress.iteration then
    let reply := r.reportReply t progress.iteration
    let r := r.reported progress.iteration reply
    match reply.answer with
    | .faulted fault => r.fault fault
    | .aborted abort _ => r.halt (.aborted abort.status) progress.trust?
    | .done _ => r.factorize t jacobian progress
  else r.factorize t jacobian progress

def linearize (t : Task α σ m n) (r : Run α σ m n) (matrix : Mat α m n) (progress : Progress α) :
    Advance α σ m n :=
  let reply := r.jacobianReply t matrix
  let r := r.differentiated matrix reply
  match reply.answer with
  | .faulted fault => r.fault fault
  | .aborted abort _ => r.halt (.aborted abort.status) progress.trust?
  | .done written =>
    match written.toMat? m n with
    | none => r.fault .jacobianDimensionsChanged
    | some jacobian => r.inform t jacobian progress

def trial (t : Task α σ m n) (r : Run α σ m n) (damping residualNorm : α) : Trial α where
  residualNorm
  stepNorm := scaledNorm r.buffers.scaling r.buffers.step
  linearNorm := norm r.buffers.linearChange
  damping
  pointNorm := scaledNorm r.buffers.scaling r.buffers.trialPoint
  budgetExhausted := decide (t.budget ≤ r.evaluations)

def judgement (t : Task α σ m n) (r : Run α σ m n) (trust : TrustRegion α) (damping : α)
    (residuals : Vec α m) : TrustRegion α × Verdict :=
  trust.observe t.criteria (.trial (r.trial t damping (norm residuals)))

def moved (r : Run α σ m n) (residuals : Vec α m) : Run α σ m n :=
  { r with
    point := r.buffers.trialPoint
    residuals
    trialResiduals := r.residuals.toArray }

def stayed (r : Run α σ m n) (residuals : Vec α m) (trust : TrustRegion α) : Run α σ m n :=
  { r with trialResiduals := residuals.toArray }.log
    [.rejected (norm residuals) trust.radius trust.damping]

def judge (t : Task α σ m n) (r : Run α σ m n) (factor : Triangular α m n)
    (trust : TrustRegion α) (damping : α) (residuals : Vec α m) : Advance α σ m n :=
  let (trust, verdict) := r.judgement t trust damping residuals
  let r := if verdict.accepted then r.moved residuals else r.stayed residuals trust
  match verdict.termination with
  | some termination => r.halt termination (some trust)
  | none =>
    if verdict.accepted then .continues r (.linearize (.fill m n 0) (.underway trust))
    else .continues r (.attempt factor trust)

def subproblem (t : Task α σ m n) (r : Run α σ m n) (trust : TrustRegion α) : Subproblem α n where
  scaling := r.buffers.scaling
  projected := r.buffers.projected
  radius := trust.radius
  tuning := t.criteria.tuning

def search (t : Task α σ m n) (r : Run α σ m n) (factor : Triangular α m n)
    (trust : TrustRegion α) : SearchOutcome α m n :=
  (r.subproblem t trust).search factor trust.damping r.buffers.step r.buffers.search

def proposed (r : Run α σ m n) (found : SearchOutcome α m n) : Run α σ m n :=
  { r.log found.log with
    buffers :=
      { r.buffers with
        step := found.step
        trialPoint := .ofFn fun j => r.point j + found.step j
        linearChange := found.factor.mulPermuted found.step
        search := found.buffers } }

def trialReply (t : Task α σ m n) (r : Run α σ m n) : Reply σ (Array α) :=
  t.problem.residuals r.problem r.buffers.trialPoint.toArray r.trialResiduals

def evaluated (r : Run α σ m n) (reply : Reply σ (Array α)) : Run α σ m n :=
  { r with
    problem := reply.state
    evaluations := r.evaluations + 1
    history := r.history.push
      (.residuals r.buffers.trialPoint.toArray reply.answer.output?) }

def attempt (t : Task α σ m n) (r : Run α σ m n) (factor : Triangular α m n)
    (trust : TrustRegion α) : Advance α σ m n :=
  let found := r.search t factor trust
  let r := r.proposed found
  let reply := r.trialReply t
  let r := r.evaluated reply
  match reply.answer with
  | .faulted fault => r.fault fault
  | .aborted abort buffer =>
    { r with trialResiduals := buffer }.halt (.aborted abort.status) (some trust)
  | .done written =>
    match Vec.ofArray? m written with
    | none => r.fault .residualCountChanged
    | some residuals => r.judge t found.factor trust found.damping residuals

def advance (t : Task α σ m n) (r : Run α σ m n) : Phase α m n → Advance α σ m n
  | .linearize matrix progress => r.linearize t matrix progress
  | .attempt factor trust => r.attempt t factor trust

end Run

end LeastSquares
