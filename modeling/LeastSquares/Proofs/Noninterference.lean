import LeastSquares.Proofs.Dimensions
import LeastSquares.Proofs.Overwriting
import LeastSquares.Proofs.Real

namespace LeastSquares

variable {α σ : Type} {m n : Nat}

/-- Whether two answers are the same, apart from what an aborted call left of its output. -/
def Answer.Agrees {β : Type} : Answer β → Answer β → Prop
  | .done output, .done output' => output' = output
  | .aborted abort _, .aborted abort' _ => abort' = abort
  | .faulted fault, .faulted fault' => fault' = fault
  | _, _ => False

theorem Answer.Agrees.output? {β : Type} {a a' : Answer β} (h : a.Agrees a') :
    a'.output? = a.output? := by
  cases a <;> cases a'
  · exact congrArg some h
  all_goals first | rfl | exact h.elim

structure Reply.Agrees {β : Type} (r r' : Reply σ β) : Prop where
  state : r'.state = r.state
  answer : r.answer.Agrees r'.answer

/-- Whether a residual call for `n` parameters does not depend on what its buffer held before. -/
def Problem.Oblivious (p : Problem α σ) (m n : Nat) : Prop :=
  ∀ s (x buffer buffer' : Array α), x.size = n → buffer.size = m → buffer'.size = m →
    (p.residuals s x buffer).Agrees (p.residuals s x buffer')

/-- The residuals of a problem without state depend on the point alone. -/
theorem Problem.oblivious_ofFunctions {residualCount : Nat}
    {residuals : Array α → Except Fault (Array α)}
    {jacobian : Array α → Jacobian α → Except Fault (Jacobian α)} :
    (ofFunctions residualCount residuals jacobian).Oblivious m n := by
  intro _ x buffer buffer' _ _ _
  change (Reply.ofExcept () (residuals x)).Agrees (Reply.ofExcept () (residuals x))
  cases residuals x with
  | ok => exact ⟨rfl, rfl⟩
  | error => exact ⟨rfl, rfl⟩

structure Remains.Agrees (r r' : Remains α σ) : Prop where
  problem : r'.problem = r.problem
  point : r'.point = r.point
  evaluations : r'.evaluations = r.evaluations
  jacobianEvaluations : r'.jacobianEvaluations = r.jacobianEvaluations
  history : r'.history = r.history

structure Finished.Agrees (f f' : Finished α σ) : Prop where
  result : f'.result = f.result
  remains : f.remains.Agrees f'.remains
  residuals : ∀ halt, f.result = .ok halt →
    f'.remains.workspace.residuals = f.remains.workspace.residuals

structure Outcome.Agrees (out out' : Outcome α σ) : Prop where
  result : out'.result = out.result
  point : out'.point = out.point
  problem : out'.problem = out.problem
  history : out'.history = out.history

theorem Outcome.Agrees.symm {out out' : Outcome α σ} (h : out.Agrees out') : out'.Agrees out :=
  ⟨h.result.symm, h.point.symm, h.problem.symm, h.history.symm⟩

theorem Outcome.Agrees.trans {out out' out'' : Outcome α σ} (h : out.Agrees out')
    (h' : out'.Agrees out'') : out.Agrees out'' :=
  ⟨h'.result.trans h.result, h'.point.trans h.point, h'.problem.trans h.problem,
    h'.history.trans h.history⟩

def Outcome.withoutGradientTolerance (out : Outcome α σ) : Outcome α σ :=
  { out with result := out.result.map Report.withoutGradientTolerance }

theorem Outcome.Agrees.withoutGradientTolerance {out out' : Outcome α σ} (h : out.Agrees out') :
    out.withoutGradientTolerance.Agrees out'.withoutGradientTolerance :=
  ⟨congrArg (Except.map Report.withoutGradientTolerance) h.result, h.point, h.problem, h.history⟩

namespace Remains.Agrees

variable {r r' : Remains α σ}

theorem faulted (h : r.Agrees r') (fault : Fault) : (r.faulted fault).Agrees (r'.faulted fault) :=
  ⟨rfl, h.point, h.problem, congrArg (· ++ #[]) h.history⟩

theorem reported (h : r.Agrees r') (residuals : r'.workspace.residuals = r.workspace.residuals)
    (iteration : Nat) (reply : Reply σ Unit) :
    (r.reported iteration reply).Agrees (r'.reported iteration reply) := by
  refine ⟨rfl, h.point, h.evaluations, h.jacobianEvaluations, ?_⟩
  unfold Remains.reported
  rw [h.point, h.history, residuals]

end Remains.Agrees

def Run.reusing (r : Run α σ m n) (buffers : Buffers α m n) (trialResiduals : Array α) :
    Run α σ m n :=
  { r with buffers, trialResiduals }

/-- Whether buffers agree in what a run still reads of them before it writes it. A new run reads
nothing, a later one the scaling factors, and a trial the projected residuals, too. -/
def Phase.Shares : Phase α m n → Buffers α m n → Buffers α m n → Prop
  | .linearize _ (.fresh _), _, _ => True
  | .linearize _ (.underway _), b, b' => b'.scaling = b.scaling
  | .attempt .., b, b' => b'.scaling = b.scaling ∧ b'.projected = b.projected

def Phase.Ordered : Phase α m n → Prop
  | .linearize .. => True
  | .attempt factor _ => Function.Injective factor.permutation.get

inductive Advance.Agrees : Advance α σ m n → Advance α σ m n → Prop
  | continues {r : Run α σ m n} {phase : Phase α m n} {b : Buffers α m n} {trial : Array α}
    (shares : phase.Shares r.buffers b) (ordered : phase.Ordered)
    (size : r.trialResiduals.size = m) (size' : trial.size = m) :
    Agrees (.continues r phase) (.continues (r.reusing b trial) phase)
  | ends {f f' : Finished α σ} (h : f.Agrees f') : Agrees (.ends f) (.ends f')

namespace Run

variable {t : Task α σ m n} {r : Run α σ m n} {b : Buffers α m n} {trial : Array α}

theorem fault_agrees (r : Run α σ m n) (b : Buffers α m n) (trial : Array α) (fault : Fault) :
    (r.fault fault).Agrees ((r.reusing b trial).fault fault) :=
  .ends ⟨rfl, ⟨rfl, rfl, rfl, rfl, rfl⟩, fun _ h => nomatch h⟩

theorem halt_agrees (r : Run α σ m n) (b : Buffers α m n) (trial : Array α)
    (termination : Termination) (trust : Option (TrustRegion α)) :
    (r.halt termination trust).Agrees ((r.reusing b trial).halt termination trust) :=
  .ends ⟨rfl, ⟨rfl, rfl, rfl, rfl, rfl⟩, fun _ _ => rfl⟩

theorem evaluated_reusing {reply reply' : Reply σ (Array α)} (h : reply.Agrees reply')
    (trialPoint : b.trialPoint = r.buffers.trialPoint) :
    (r.reusing b trial).evaluated reply' = (r.evaluated reply).reusing b trial := by
  unfold evaluated reusing
  rw [h.state, h.answer.output?, trialPoint]

variable [Scalar α]

theorem factorize_agrees {matrix : Mat α m n} {progress : Progress α}
    (shares : (Phase.linearize matrix progress).Shares r.buffers b)
    (size : r.trialResiduals.size = m) (size' : trial.size = m) (jacobian : Mat α m n) :
    (r.factorize t jacobian progress).Agrees
      ((r.reusing b trial).factorize t jacobian progress) := by
  have hresumed (columnNorms : Vec α n) :
      (r.reusing b trial).resumed t columnNorms progress = r.resumed t columnNorms progress := by
    cases progress with
    | fresh => rfl
    | underway trust => exact congrArg (trust, ·) shares
  rcases r.factorize_cases t jacobian progress with ⟨small, step⟩ | ⟨large, step⟩ <;>
    rcases (r.reusing b trial).factorize_cases t jacobian progress with
      ⟨small', step'⟩ | ⟨large', step'⟩ <;>
    rw [hresumed] at *
  · rw [step, step']
    exact halt_agrees _ _ trial _ _
  · exact absurd small large'
  · exact absurd small' large
  · rw [step, step']
    exact .continues ⟨rfl, rfl⟩ (QR.permutation_factorize_injective true jacobian) size size'

theorem inform_agrees {matrix : Mat α m n} {progress : Progress α}
    (shares : (Phase.linearize matrix progress).Shares r.buffers b)
    (size : r.trialResiduals.size = m) (size' : trial.size = m) (jacobian : Mat α m n) :
    (r.inform t jacobian progress).Agrees ((r.reusing b trial).inform t jacobian progress) := by
  have hreply : (r.reusing b trial).reportReply t progress.iteration =
      r.reportReply t progress.iteration := rfl
  unfold inform
  dsimp only
  rw [hreply]
  let told := r.reported progress.iteration (r.reportReply t progress.iteration)
  split
  · split
    · exact fault_agrees told b trial _
    · exact halt_agrees told b trial _ _
    · exact factorize_agrees (r := told) shares size size' jacobian
  · exact factorize_agrees shares size size' jacobian

theorem linearize_agrees {matrix : Mat α m n} {progress : Progress α}
    (shares : (Phase.linearize matrix progress).Shares r.buffers b)
    (size : r.trialResiduals.size = m) (size' : trial.size = m) :
    (r.linearize t matrix progress).Agrees ((r.reusing b trial).linearize t matrix progress) := by
  have hreply : (r.reusing b trial).jacobianReply t matrix = r.jacobianReply t matrix := rfl
  unfold linearize
  dsimp only
  rw [hreply]
  let called := r.differentiated matrix (r.jacobianReply t matrix)
  split
  · exact fault_agrees called b trial _
  · exact halt_agrees called b trial _ _
  · split
    · exact fault_agrees called b trial _
    · exact inform_agrees (r := called) shares size size' _

/-- Whether buffers agree in what a trial is judged by, and in what later steps read. -/
structure SharesTrial (b b' : Buffers α m n) : Prop where
  scaling : b'.scaling = b.scaling
  projected : b'.projected = b.projected
  step : b'.step = b.step
  trialPoint : b'.trialPoint = b.trialPoint
  linearChange : b'.linearChange = b.linearChange

theorem judge_agrees (shares : SharesTrial r.buffers b) {factor : Triangular α m n}
    (ordered : Function.Injective factor.permutation.get) (trust : TrustRegion α) (damping : α)
    (residuals : Vec α m) :
    (r.judge t factor trust damping residuals).Agrees
      ((r.reusing b trial).judge t factor trust damping residuals) := by
  obtain ⟨scaling, projected, step, trialPoint, linearChange⟩ := shares
  have hjudged : (r.reusing b trial).judgement t trust damping residuals =
      r.judgement t trust damping residuals := by
    unfold judgement Run.trial reusing
    rw [scaling, step, trialPoint, linearChange]
  have hmoved : (r.reusing b trial).moved residuals =
      (r.moved residuals).reusing b r.residuals.toArray := by
    unfold moved reusing
    rw [trialPoint]
  have hstayed (next : TrustRegion α) : (r.reusing b trial).stayed residuals next =
      (r.stayed residuals next).reusing b residuals.toArray := rfl
  unfold judge
  rw [hjudged]
  dsimp only
  rw [hmoved, hstayed]
  cases (r.judgement t trust damping residuals).2.accepted with
  | true =>
    simp only [if_true]
    split
    · exact halt_agrees (r.moved residuals) b _ _ _
    · exact .continues scaling trivial (Vec.size_toArray _) (Vec.size_toArray _)
  | false =>
    simp only [Bool.false_eq_true, if_false]
    split
    · exact halt_agrees (r.stayed residuals _) b _ _ _
    · exact .continues ⟨scaling, projected⟩ ordered (Vec.size_toArray _) (Vec.size_toArray _)

/-- The trial point and what it is judged by do not depend on the old step. -/
theorem proposed_reusing (trial : Array α) {found found' : SearchOutcome α m n}
    (h : found.Agrees found')
    (scaling : b.scaling = r.buffers.scaling) (projected : b.projected = r.buffers.projected) :
    ∃ b', (r.reusing b trial).proposed found' = (r.proposed found).reusing b' trial ∧
      SharesTrial (r.proposed found).buffers b' := by
  obtain ⟨-, -, step, factor, log⟩ := h
  unfold proposed reusing
  rw [step, factor, log]
  exact ⟨_, rfl, ⟨scaling, projected, rfl, rfl, rfl⟩⟩

theorem attempt_agrees (oblivious : t.problem.Oblivious m n) {factor : Triangular α m n}
    {trust : TrustRegion α} (shares : (Phase.attempt factor trust).Shares r.buffers b)
    (ordered : Function.Injective factor.permutation.get) (size : r.trialResiduals.size = m)
    (size' : trial.size = m) :
    (r.attempt t factor trust).Agrees ((r.reusing b trial).attempt t factor trust) := by
  obtain ⟨scaling, projected⟩ := shares
  have hsubproblem : (r.reusing b trial).subproblem t trust = r.subproblem t trust := by
    unfold subproblem reusing
    rw [scaling, projected]
  have found : (r.search t factor trust).Agrees ((r.reusing b trial).search t factor trust) := by
    unfold search
    rw [hsubproblem]
    exact Subproblem.search_agrees ordered _ _ _ _ _ _
  obtain ⟨b', hproposed, shares⟩ := proposed_reusing trial found scaling projected
  have hordered : Function.Injective (r.search t factor trust).factor.permutation.get := by
    unfold search
    rwa [Subproblem.permutation_search]
  unfold attempt
  dsimp only
  rw [hproposed, found.factor, found.damping]
  generalize r.search t factor trust = out at *
  have hreply : ((r.proposed out).trialReply t).Agrees
      (((r.proposed out).reusing b' trial).trialReply t) := by
    unfold trialReply reusing
    rw [shares.trialPoint]
    exact oblivious _ _ _ _ (Vec.size_toArray _) size size'
  rw [evaluated_reusing hreply shares.trialPoint]
  have hanswer := hreply.answer
  generalize ((r.proposed out).reusing b' trial).trialReply t = reply' at *
  generalize (r.proposed out).trialReply t = reply at *
  let tried := (r.proposed out).evaluated reply
  cases answer : reply.answer <;> cases answer' : reply'.answer <;> rw [answer, answer'] at hanswer
  case done.done written written' =>
    obtain rfl : written' = written := hanswer
    dsimp only
    split
    · exact fault_agrees tried b' trial _
    · exact judge_agrees (r := tried) shares hordered trust _ _
  case aborted.aborted abort left abort' left' =>
    obtain rfl : abort' = abort := hanswer
    exact halt_agrees { tried with trialResiduals := left } b' left' _ _
  case faulted.faulted fault fault' =>
    obtain rfl : fault' = fault := hanswer
    exact fault_agrees tried b' trial _
  all_goals exact hanswer.elim

/-- A step does the same whatever is in the buffers that it does not read. -/
theorem advance_agrees (oblivious : t.problem.Oblivious m n) {phase : Phase α m n}
    (shares : phase.Shares r.buffers b) (ordered : phase.Ordered)
    (size : r.trialResiduals.size = m) (size' : trial.size = m) :
    (r.advance t phase).Agrees ((r.reusing b trial).advance t phase) := by
  cases phase with
  | linearize matrix progress => exact linearize_agrees shares size size'
  | attempt factor trust => exact attempt_agrees oblivious shares ordered size size'

/-- So does a whole run, step by step. -/
theorem complete_agrees (oblivious : t.problem.Oblivious m n) {phase : Phase α m n}
    (shares : phase.Shares r.buffers b) (ordered : phase.Ordered)
    (size : r.trialResiduals.size = m) (size' : trial.size = m) :
    (r.complete t phase).Agrees ((r.reusing b trial).complete t phase) := by
  fun_induction Run.complete t r phase generalizing b trial with
  | case1 r phase finished hstep =>
    have hagrees := advance_agrees oblivious shares ordered size size'
    rw [hstep] at hagrees
    generalize hstep' : (r.reusing b trial).advance t phase = a at hagrees
    cases hagrees with
    | ends h => rwa [complete_of_ends hstep']
  | case2 r phase r' next hstep _ ih =>
    have hagrees := advance_agrees oblivious shares ordered size size'
    rw [hstep] at hagrees
    generalize hstep' : (r.reusing b trial).advance t phase = a at hagrees
    cases hagrees with
    | continues shares ordered size size' =>
      rw [complete_of_continues hstep']
      exact ih shares ordered size size'

end Run

/-- Whether two runs are launched from the same point, with residual buffers of the right length. -/
structure Launch.Agrees (l l' : Launch α σ m n) : Prop where
  problem : l'.problem = l.problem
  point : l'.point = l.point
  residuals : l.residuals.size = m
  residuals' : l'.residuals.size = m
  trialResiduals : l.trialResiduals.size = m
  trialResiduals' : l'.trialResiduals.size = m

variable [Scalar α]

/-- Launched from the same point, two runs end alike unless the first evaluation is aborted. -/
theorem Task.run_agrees {t : Task α σ m n} {l l' : Launch α σ m n} (h : l.Agrees l')
    (oblivious : t.problem.Oblivious m n)
    (first : ∀ abort written, (l.reply t).answer ≠ .aborted abort written) :
    (t.run l).Agrees (t.run l') := by
  have hreply : (l.reply t).Agrees (l'.reply t) := by
    unfold Launch.reply
    rw [h.problem, h.point]
    exact oblivious _ _ _ _ (Vec.size_toArray _) h.residuals h.residuals'
  have hremains (left left' : Array α) : (l.remains t left).Agrees (l'.remains t left') := by
    refine ⟨hreply.state, congrArg Vec.toArray h.point, rfl, rfl, ?_⟩
    unfold Launch.remains
    rw [h.point, hreply.answer.output?]
  have hstarted (residuals : Vec α m) :
      l'.started t residuals = (l.started t residuals).reusing l'.buffers l'.trialResiduals := by
    unfold Launch.started Run.reusing
    rw [hreply.state, h.point, hreply.answer.output?]
  have hanswer := hreply.answer
  unfold run
  cases answer : (l.reply t).answer <;> cases answer' : (l'.reply t).answer <;>
    rw [answer, answer'] at hanswer
  case done.done written written' =>
    obtain rfl : written' = written := hanswer
    dsimp only
    split
    · exact ⟨rfl, hremains _ _, fun _ h => nomatch h⟩
    · rw [hstarted]
      exact Run.complete_agrees oblivious trivial trivial h.trialResiduals h.trialResiduals'
  case aborted.aborted abort written _ _ => exact absurd answer (first abort written)
  case faulted.faulted fault fault' =>
    obtain rfl : fault' = fault := hanswer
    exact ⟨rfl, hremains _ _, fun _ h => nomatch h⟩
  all_goals exact hanswer.elim

theorem Remains.Agrees.closed {r r' : Remains α σ} (h : r.Agrees r')
    (residuals : r'.workspace.residuals = r.workspace.residuals) (halt : Halt α) :
    (r.closed halt).Agrees (r'.closed halt) := by
  have hreport : r'.report halt = r.report halt := by
    unfold Remains.report
    rw [residuals, h.evaluations, h.jacobianEvaluations]
  unfold Remains.closed
  rw [hreport]
  exact ⟨rfl, h.point, h.problem, congrArg (· ++ _) h.history⟩

theorem Finished.workspace_close (f : Finished α σ) (problem : Problem α σ) (reportEvery : Nat) :
    (f.close problem reportEvery).workspace = f.remains.workspace := by
  unfold Finished.close
  dsimp only
  split
  · rfl
  · split
    · rfl
    · split <;> rfl

theorem Finished.close_of_error {f : Finished α σ} {fault : Fault} (h : f.result = .error fault)
    {problem : Problem α σ} {reportEvery : Nat} :
    (f.close problem reportEvery).result = .error (.faulted fault) := by
  unfold Finished.close
  rw [h]
  rfl

theorem Finished.Agrees.close {f f' : Finished α σ} (h : f.Agrees f') (problem : Problem α σ)
    (reportEvery : Nat) : (f.close problem reportEvery).Agrees (f'.close problem reportEvery) := by
  obtain ⟨result, remains⟩ := f
  obtain ⟨_, remains'⟩ := f'
  obtain ⟨hresult, hremains, hresiduals⟩ := h
  cases hresult
  have agrees : remains.Agrees remains' := hremains
  cases result with
  | error fault => exact agrees.faulted fault
  | ok halt =>
    have residuals : remains'.workspace.residuals = remains.workspace.residuals :=
      hresiduals halt rfl
    unfold Finished.close
    dsimp only
    rw [agrees.problem, agrees.point, residuals]
    split
    · exact agrees.closed residuals halt
    · have told := agrees.reported residuals halt.iteration
        (problem.report remains.problem halt.iteration remains.point remains.workspace.residuals)
      split
      · exact told.faulted _
      · exact told.closed residuals halt
      · exact told.closed residuals halt

namespace Settings

variable {s : Settings α} {problem : Problem α σ} {state : σ} {x : Array α} {w w' : Workspace α}

theorem minimizeWith_of_error {error : InputError α}
    (h : s.error? problem.residualCount x.size = some error) :
    s.minimizeWith problem state x w =
      { result := .error (.invalid error), point := x, problem := state, workspace := w
        history := #[] } := by
  unfold minimizeWith
  dsimp only
  split
  · rename_i hinvalid
    rw [h] at hinvalid
    cases hinvalid
    rfl
  · rename_i hvalid
    rw [h] at hvalid
    cases hvalid

/-- Minimizing does the same on any two workspaces whose buffers fit together. -/
theorem minimizeWith_agrees {k k' l l' : Nat} (fits : w.Fits k k') (fits' : w'.Fits l l')
    (oblivious : problem.Oblivious problem.residualCount x.size)
    (first : ∀ abort written,
      (problem.residuals state x (.replicate problem.residualCount 0)).answer ≠
        .aborted abort written) :
    (s.minimizeWith problem state x w).Agrees (s.minimizeWith problem state x w') := by
  cases valid : s.error? problem.residualCount x.size with
  | some error =>
    rw [minimizeWith_of_error valid, minimizeWith_of_error valid]
    exact ⟨rfl, rfl, rfl, rfl⟩
  | none =>
    obtain ⟨launch, launched, -⟩ := exists_launch? fits.coherent problem.residualCount state x
    obtain ⟨launch', launched', -⟩ := exists_launch? fits'.coherent problem.residualCount state x
    obtain ⟨hproblem, hpoint, hresiduals, htrial⟩ := launch?_eq_some launched
    obtain ⟨hproblem', hpoint', hresiduals', htrial'⟩ := launch?_eq_some launched'
    have prepared := fits.prepared problem.residualCount x.size
    have prepared' := fits'.prepared problem.residualCount x.size
    have hagrees : launch.Agrees launch' :=
      ⟨hproblem'.trans hproblem.symm, hpoint'.trans hpoint.symm,
        hresiduals ▸ prepared.residuals, hresiduals' ▸ prepared'.residuals,
        htrial ▸ prepared.trialResiduals, htrial' ▸ prepared'.trialResiduals⟩
    rw [minimizeWith_eq_close valid launched, minimizeWith_eq_close valid launched']
    refine Finished.Agrees.close (Task.run_agrees hagrees oblivious ?_) problem s.reportEvery
    intro abort written answer
    have hanswer := (oblivious state x (.replicate problem.residualCount 0) launch.residuals rfl
      Array.size_replicate hagrees.residuals).answer
    rw [Launch.reply, hproblem, hpoint] at answer
    change (problem.residuals state x launch.residuals).answer = _ at answer
    rw [answer] at hanswer
    cases fresh : (problem.residuals state x (.replicate problem.residualCount 0)).answer with
    | aborted abort written => exact first abort written fresh
    | done | faulted =>
      rw [fresh] at hanswer
      exact hanswer.elim

/-- A minimization that meets no fault leaves a workspace with the dimensions of its problem. -/
theorem minimizeWith_fits_of_valid {k l : Nat} (fits : w.Fits k l)
    (valid : s.error? problem.residualCount x.size = none)
    (inPlace : problem.AbortsInPlace problem.residualCount x.size)
    (unfaulted : ∀ fault, (s.minimizeWith problem state x w).result ≠ .error (.faulted fault)) :
    (s.minimizeWith problem state x w).workspace.Fits problem.residualCount x.size := by
  obtain ⟨launch, launched, -⟩ := exists_launch? fits.coherent problem.residualCount state x
  obtain ⟨-, -, hresiduals, htrial⟩ := launch?_eq_some launched
  have prepared := fits.prepared problem.residualCount x.size
  rw [minimizeWith_eq_close valid launched] at unfaulted ⊢
  rw [Finished.workspace_close]
  cases hresult : ((s.task problem x.size valid).run launch).result with
  | error fault => exact absurd (Finished.close_of_error hresult) (unfaulted fault)
  | ok halt =>
    exact Task.run_fits inPlace (hresiduals ▸ prepared.residuals)
      (htrial ▸ prepared.trialResiduals) hresult

/-- A refused minimization leaves the workspace as it is. -/
theorem minimizeWith_fits {k l : Nat} (fits : w.Fits k l)
    (inPlace : problem.AbortsInPlace problem.residualCount x.size)
    (unfaulted : ∀ fault, (s.minimizeWith problem state x w).result ≠ .error (.faulted fault)) :
    ∃ k' l', (s.minimizeWith problem state x w).workspace.Fits k' l' := by
  cases valid : s.error? problem.residualCount x.size with
  | some error =>
    rw [minimizeWith_of_error valid]
    exact ⟨k, l, fits⟩
  | none => exact ⟨_, _, minimizeWith_fits_of_valid fits valid inPlace unfaulted⟩

theorem minimizeWith_unfaulted {k l : Nat} (fits : w.Fits k l)
    (keeps : problem.KeepsDimensions problem.residualCount x.size) (fault : Fault) :
    (s.minimizeWith problem state x w).result ≠ .error (.faulted fault) := by
  cases valid : s.error? problem.residualCount x.size with
  | some error =>
    rw [minimizeWith_of_error valid]
    exact fun h => nomatch h
  | none =>
    obtain ⟨report, reported⟩ := exists_report fits valid keeps
    rw [reported]
    exact fun h => nomatch h

theorem minimizeWith_fits_of_keeps {k l : Nat} (fits : w.Fits k l)
    (valid : s.error? problem.residualCount x.size = none)
    (keeps : problem.KeepsDimensions problem.residualCount x.size) :
    (s.minimizeWith problem state x w).workspace.Fits problem.residualCount x.size :=
  minimizeWith_fits_of_valid fits valid keeps.abortsInPlace (minimizeWith_unfaulted fits keeps)

def tolerating (tolerance : α) : Settings α :=
  { Settings.standard with functionTolerance := tolerance, stepTolerance := tolerance }

end Settings

/-- The standard minimization writes out the budget that its settings have anyway. -/
theorem minimizeStandard_eq {problem : Problem α σ} {state : σ} {x : Array α} {w : Workspace α}
    {k l : Nat} (fits : w.Fits k l)
    (large : requiredWorkspace problem.residualCount x.size ≤ w.size) (tolerance : α) :
    minimizeStandard problem state x tolerance w =
      ((Settings.tolerating tolerance).minimizeWith problem state x
        w).withoutGradientTolerance := by
  unfold minimizeStandard
  dsimp only
  rw [if_neg (Nat.not_lt.mpr large)]
  let s : Settings α :=
    { Settings.tolerating tolerance with maxEvaluations := some (100 * (x.size + 1)) }
  have herror : s.error? problem.residualCount x.size =
      (Settings.tolerating tolerance).error? problem.residualCount x.size := by
    unfold Settings.error?
    rw [if_neg (show s.maxEvaluations ≠ some 0 by simp [s])]
    rfl
  have hout : s.minimizeWith problem state x w =
      (Settings.tolerating tolerance).minimizeWith problem state x w := by
    cases valid : (Settings.tolerating tolerance).error? problem.residualCount x.size with
    | some error =>
      rw [Settings.minimizeWith_of_error valid,
        Settings.minimizeWith_of_error (herror.trans valid)]
    | none =>
      obtain ⟨launch, launched, -⟩ :=
        Settings.exists_launch? fits.coherent problem.residualCount state x
      rw [Settings.minimizeWith_eq_close valid launched,
        Settings.minimizeWith_eq_close (herror.trans valid) launched]
      rfl
  exact congrArg Outcome.withoutGradientTolerance hout

theorem minimizeStandard_workspace {problem : Problem α σ} {state : σ} {x : Array α}
    {w : Workspace α} {k l : Nat} (fits : w.Fits k l) (tolerance : α)
    (inPlace : problem.AbortsInPlace problem.residualCount x.size)
    (unfaulted : ∀ fault,
      (minimizeStandard problem state x tolerance w).result ≠ .error (.faulted fault)) :
    ∃ k' l', (minimizeStandard problem state x tolerance w).workspace.Fits k' l' := by
  by_cases large : requiredWorkspace problem.residualCount x.size ≤ w.size
  · rw [minimizeStandard_eq fits large] at unfaulted ⊢
    refine Settings.minimizeWith_fits (s := Settings.tolerating tolerance) fits inPlace ?_
    intro fault hfault
    refine unfaulted fault ?_
    unfold Outcome.withoutGradientTolerance
    rw [hfault]
    rfl
  · unfold minimizeStandard
    rw [if_pos (Nat.lt_of_not_le large)]
    exact ⟨k, l, fits⟩

/-- The workspaces that minimizations leave, starting from a new one, whatever they minimize and
however they end, short of a fault. An aborted call leaves its buffer at its length. -/
inductive Workspace.Used : Workspace α → Prop
  | new (m n : Nat) : Used (.zeros m n)
  | minimized {σ : Type} {w : Workspace α} (h : Used w) (s : Settings α) (problem : Problem α σ)
    (state : σ) (x : Array α) (inPlace : problem.AbortsInPlace problem.residualCount x.size)
    (unfaulted : ∀ fault, (s.minimizeWith problem state x w).result ≠ .error (.faulted fault)) :
    Used (s.minimizeWith problem state x w).workspace
  | minimizedStandard {σ : Type} {w : Workspace α} (h : Used w) (problem : Problem α σ) (state : σ)
    (x : Array α) (tolerance : α)
    (inPlace : problem.AbortsInPlace problem.residualCount x.size)
    (unfaulted : ∀ fault,
      (minimizeStandard problem state x tolerance w).result ≠ .error (.faulted fault)) :
    Used (minimizeStandard problem state x tolerance w).workspace

theorem Workspace.Used.fits {w : Workspace α} (h : w.Used) : ∃ k l, w.Fits k l := by
  induction h with
  | new m n => exact ⟨m, n, fits_zeros m n⟩
  | minimized _ s problem state x inPlace unfaulted ih =>
    obtain ⟨_, _, fits⟩ := ih
    exact Settings.minimizeWith_fits fits inPlace unfaulted
  | minimizedStandard _ problem state x tolerance inPlace unfaulted ih =>
    obtain ⟨_, _, fits⟩ := ih
    exact minimizeStandard_workspace fits tolerance inPlace unfaulted

theorem Workspace.Used.minimize {w : Workspace α} (h : w.Used) (s : Settings α)
    {problem : Problem α σ} {x : Array α}
    (keeps : problem.KeepsDimensions problem.residualCount x.size) (state : σ) :
    (s.minimizeWith problem state x w).workspace.Used := by
  obtain ⟨_, _, fits⟩ := h.fits
  exact h.minimized s problem state x keeps.abortsInPlace
    (Settings.minimizeWith_unfaulted fits keeps)

/-- A minimization whose first evaluation is not aborted does not depend on what earlier ones left
in its workspace: it ends with the same point and the same result after the same calls as with any
other workspace and as with a new one. So does the standard minimization, which reports a gradient
tolerance that is too small as convergence. -/
theorem run_independent_of_workspace {problem : Problem α σ} {state : σ} {x : Array α}
    (oblivious : problem.Oblivious problem.residualCount x.size)
    (first : ∀ abort written,
      (problem.residuals state x (.replicate problem.residualCount 0)).answer ≠
        .aborted abort written)
    {w w' : Workspace α} (used : w.Used) (used' : w'.Used) :
    (∀ s : Settings α,
      (s.minimizeWith problem state x w).Agrees (s.minimizeWith problem state x w') ∧
        (s.minimize problem state x).Agrees (s.minimizeWith problem state x w)) ∧
    (∀ tolerance, requiredWorkspace problem.residualCount x.size ≤ w.size →
      ((Settings.tolerating tolerance).minimize problem state x).withoutGradientTolerance.Agrees
        (minimizeStandard problem state x tolerance w)) := by
  obtain ⟨_, _, fits⟩ := used.fits
  obtain ⟨_, _, fits'⟩ := used'.fits
  have new := Workspace.fits_zeros (α := α) problem.residualCount x.size
  refine ⟨fun s => ⟨?_, ?_⟩, fun tolerance large => ?_⟩
  · exact Settings.minimizeWith_agrees fits fits' oblivious first
  · exact Settings.minimizeWith_agrees new fits oblivious first
  · rw [minimizeStandard_eq fits large]
    exact (Settings.minimizeWith_agrees new fits oblivious first).withoutGradientTolerance

/-- In the valley of Rosenbrock, on the workspace that an earlier run left there. -/
theorem rosenbrock_independent_of_workspace :
    let s : Settings ℝ := .standard
    let left := (s.minimizeWith Problems.rosenbrock () #[0, 0] (.zeros 2 2)).workspace
    left.Used ∧ 12 ≤ left.size ∧
      (∀ s : Settings ℝ,
        (s.minimizeWith Problems.rosenbrock () #[1, 3] left).Agrees
            (s.minimizeWith Problems.rosenbrock () #[1, 3] (.zeros 5 4)) ∧
          (s.minimize Problems.rosenbrock () #[1, 3]).Agrees
            (s.minimizeWith Problems.rosenbrock () #[1, 3] left)) ∧
      (∀ tolerance : ℝ, 12 ≤ left.size →
        ((Settings.tolerating tolerance).minimize Problems.rosenbrock ()
            #[1, 3]).withoutGradientTolerance.Agrees
          (minimizeStandard Problems.rosenbrock () #[1, 3] tolerance left)) := by
  intro s left
  have keeps : (Problems.rosenbrock : Problem ℝ Unit).KeepsDimensions 2 2 :=
    Problems.rosenbrock_keepsDimensions
  have used : left.Used := (Workspace.Used.new 2 2).minimize s keeps ()
  have fits : left.Fits 2 2 := Settings.minimizeWith_fits_of_keeps (Workspace.fits_zeros 2 2)
    (Settings.error?_standard two_pos le_rfl) keeps
  have large : 12 ≤ left.size := by
    rw [fits.size_eq]
    norm_num
  refine ⟨used, large, ?_⟩
  refine run_independent_of_workspace Problem.oblivious_ofFunctions ?_ used (.new 5 4)
  intro abort written answer
  cases answer

end LeastSquares
