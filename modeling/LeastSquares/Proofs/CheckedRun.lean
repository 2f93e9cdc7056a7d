import LeastSquares.Checked.Run
import LeastSquares.Proofs.CheckedSearch
import LeastSquares.Proofs.Noninterference
import LeastSquares.Proofs.ValidSettings

namespace LeastSquares

open Checked

variable {α σ : Type} {m n : Nat}

def Task.stored (t : Task α σ m n) : Checked.Task α σ where
  problem := t.problem
  residualCount := m
  fixedScaling := t.fixedScaling.map Vec.toArray
  stepBound := t.stepBound
  reportEvery := t.reportEvery
  criteria := t.criteria
  budget := t.budget

def Phase.stored : Phase α m n → Checked.Phase α
  | linearize matrix progress => .linearize ⟨m, n, matrix⟩ progress
  | attempt factor trust => .attempt factor.stored trust

def Advance.stored : Advance α σ m n → Except Fault (Checked.Advance α σ)
  | continues r phase => .ok (.continues r.remains phase.stored)
  | ends ⟨.ok halt, left⟩ => .ok (.ends halt left)
  | ends ⟨.error fault, _⟩ => .error fault

variable [Scalar α]

theorem scaledNorm?_toArray (scaling v : Vec α n) :
    scaledNorm? scaling.toArray v.toArray = .ok (scaledNorm scaling v) := by
  obtain ⟨⟨xs, rfl⟩⟩ := v
  have hv : Vec.ofArray? xs.size xs = some ⟨⟨xs, rfl⟩⟩ := dif_pos rfl
  have hscaling : Vec.ofArray? xs.size scaling.toArray = some scaling :=
    scaling.ofArray?_toArray
  unfold scaledNorm?
  split
  · rename_i scaling' v' hs hv'
    cases hscaling.symm.trans hs
    cases hv.symm.trans hv'
    rfl
  · rename_i other
    exact (other _ _ hscaling hv).elim

namespace Run

variable (t : Task α σ m n) (r : Run α σ m n)

theorem initialScaling_stored (scaling columnNorms : Vec α n) :
    t.stored.initialScaling scaling.toArray columnNorms.toArray =
      .ok (initialScaling t columnNorms).toArray := by
  unfold Checked.Task.initialScaling initialScaling Task.stored
  cases t.fixedScaling with
  | some factors => exact copy_toArray scaling factors
  | none => exact combine_toArray scaling columnNorms _

theorem raisedScaling_stored (scaling columnNorms : Vec α n) :
    t.stored.raisedScaling scaling.toArray columnNorms.toArray =
      .ok (raisedScaling t scaling columnNorms).toArray := by
  unfold Checked.Task.raisedScaling raisedScaling Task.stored
  cases t.fixedScaling with
  | some factors => rfl
  | none => exact combine_toArray scaling columnNorms _

theorem resumed_stored (columnNorms : Vec α n) (progress : Progress α) :
    t.stored.resumed r.remains columnNorms.toArray progress =
      .ok ((r.resumed t columnNorms progress).1, (r.resumed t columnNorms progress).2.toArray) := by
  cases progress with
  | underway trust => rfl
  | fresh residualNorm =>
    refine (bind_of_ok (initialScaling_stored t r.buffers.scaling columnNorms) _).trans ?_
    exact bind_of_ok (scaledNorm?_toArray _ r.point) _

theorem factorize_stored (jacobian : Mat α m n) (progress : Progress α) :
    t.stored.factorize r.remains ⟨m, n, jacobian⟩ progress =
      (r.factorize t jacobian progress).stored := by
  let qr := LeastSquares.QR.factorize true jacobian
  let resumed := r.resumed t qr.columnNorms progress
  let reflected := qr.applyTranspose r.residuals
  let factored := r.factored t qr resumed.2
  have block : block reflected.toArray 0 r.remains.point.size =
      .ok (reflected.leading t.size_le).toArray := by
    rw [show r.remains.point.size = n from r.point.size_toArray]
    exact block_toArray reflected t.size_le
  unfold Checked.Task.factorize
  refine (bind_of_ok (QR.factorize_stored true jacobian) _).trans ?_
  refine (bind_of_ok (copy_toArray r.buffers.columnNorms qr.columnNorms) _).trans ?_
  refine (bind_of_ok (r.resumed_stored t qr.columnNorms progress) _).trans ?_
  refine (bind_of_ok (copy_toArray r.buffers.reflected r.residuals) _).trans ?_
  refine (bind_of_ok (qr.applyTranspose_stored r.residuals) _).trans ?_
  refine (bind_of_ok block _).trans ?_
  refine (bind_of_ok (copy_toArray r.buffers.projected _) _).trans ?_
  refine (bind_of_ok (qr.triangular_stored t.size_le) _).trans ?_
  refine (bind_of_ok ((qr.triangular t.size_le).gradientNorm_stored (reflected.leading t.size_le)
    qr.columnNorms resumed.1.residualNorm) _).trans ?_
  let told := factored.gradientTest t qr resumed.1
  have raised := raisedScaling_stored t resumed.2 qr.columnNorms
  change judged told.2.termination told.1 _ _ = _
  rcases r.factorize_cases t jacobian progress with ⟨small, step⟩ | ⟨large, step⟩
  · rw [show told.2.termination = some .gradientConverged from if_pos small, step]
    rfl
  · rw [show told.2.termination = none from if_neg large, step]
    exact bind_of_ok raised _

theorem inform_stored (jacobian : Mat α m n) (progress : Progress α) :
    t.stored.inform r.remains ⟨m, n, jacobian⟩ progress =
      (r.inform t jacobian progress).stored := by
  have due : (0 < t.stored.reportEvery ∧ (progress.iteration - 1) % t.stored.reportEvery = 0) ↔
      reportDue t progress.iteration = true := by
    simp [reportDue, Task.stored]
  unfold Checked.Task.inform
  rcases r.inform_cases t jacobian progress with
    ⟨quiet, step⟩ | ⟨reports, replied⟩
  · rw [if_neg (by rw [due, quiet]; exact Bool.false_ne_true), step, factorize_stored]
  · rw [if_pos (due.mpr reports)]
    change answered (r.reportReply t progress.iteration).answer _ _ = _
    rcases replied with ⟨fault, answer, step⟩ | ⟨abort, _, answer, step⟩ | ⟨answer, step⟩
    · rw [answer, step]
      rfl
    · rw [answer, step]
      rfl
    · rw [answer, step, ← factorize_stored]
      rfl

theorem linearize_stored (matrix : Mat α m n) (progress : Progress α) :
    t.stored.linearize r.remains ⟨m, n, matrix⟩ progress =
      (r.linearize t matrix progress).stored := by
  unfold Checked.Task.linearize
  change answered (r.jacobianReply t matrix).answer _ _ = _
  rcases r.linearize_cases t matrix progress with
    ⟨fault, answer, step⟩ | ⟨abort, _, answer, step⟩ | ⟨written, answer, shape, step⟩ |
      ⟨jacobian, answer, step⟩
  · rw [answer, step]
    rfl
  · rw [answer, step]
    rfl
  · have changed : ¬(written.residualCount = m ∧ written.parameterCount = n) := by
      intro same
      obtain ⟨_, hmat⟩ := Jacobian.exists_toMat? same
      rw [shape] at hmat
      cases hmat
    rw [answer, step]
    exact bind_of_error (require_of_not changed _) _
  · rw [answer, step, ← inform_stored]
    exact bind_of_ok (require_of ⟨rfl, rfl⟩ _) _

theorem judge_stored (factor : Triangular α m n) (trust : TrustRegion α) (damping : α)
    (residuals : Vec α m) :
    t.stored.judge { r with trialResiduals := residuals.toArray }.remains factor.stored trust
        (r.trial t damping (norm residuals)) =
      (r.judge t factor trust damping residuals).stored := by
  let told := r.judgement t trust damping residuals
  unfold Checked.Task.judge
  change (if told.2.accepted then _ else _) = _
  rcases r.judge_cases t factor trust damping residuals with
    ⟨accepted, ended⟩ | ⟨rejected, ended⟩
  · refine (if_pos accepted).trans ?_
    refine (bind_of_ok (copy_toArray r.point r.buffers.trialPoint) _).trans ?_
    change judged told.2.termination told.1 _ _ = _
    rcases ended with ⟨_, ended, step⟩ | ⟨ended, step⟩
    · rw [show told.2.termination = _ from ended, step]
      rfl
    · rw [show told.2.termination = _ from ended, step]
      rfl
  · refine (if_neg (Bool.eq_false_iff.mp rejected)).trans ?_
    change judged told.2.termination told.1 _ _ = _
    rcases ended with ⟨_, ended, step⟩ | ⟨ended, step⟩
    · rw [show told.2.termination = _ from ended, step]
      rfl
    · rw [show told.2.termination = _ from ended, step]
      rfl

theorem attempt_stored (factor : Triangular α m n) (trust : TrustRegion α) :
    t.stored.attempt r.remains factor.stored trust = (r.attempt t factor trust).stored := by
  let found := r.search t factor trust
  let tried := (r.proposed found).evaluated ((r.proposed found).trialReply t)
  have searched := (r.subproblem t trust).search_stored factor trust.damping r.buffers.step
    r.buffers.search
  unfold Checked.Task.attempt
  refine (bind_of_ok searched _).trans ?_
  refine (bind_of_ok (copy_toArray r.buffers.trialPoint r.point) _).trans ?_
  refine (bind_of_ok (combine_toArray r.point found.step _) _).trans ?_
  refine (bind_of_ok (scaledNorm?_toArray r.buffers.scaling found.step) _).trans ?_
  refine (bind_of_ok (found.factor.mulPermuted_stored found.step r.buffers.linearChange) _).trans ?_
  refine (bind_of_ok (scaledNorm?_toArray r.buffers.scaling tried.buffers.trialPoint) _).trans ?_
  change answered ((r.proposed found).trialReply t).answer _ _ = _
  rcases r.attempt_cases t factor trust with
    ⟨fault, answer, step⟩ | ⟨abort, buffer, answer, step⟩ | ⟨written, answer, size, step⟩ |
      ⟨residuals, answer, step⟩
  · rw [answer, step]
    rfl
  · rw [answer, step]
    rfl
  · have changed : written.size ≠ m := by
      intro same
      obtain ⟨_, hvec⟩ := Vec.exists_ofArray? same
      rw [size] at hvec
      cases hvec
    rw [answer, step]
    exact bind_of_error (require_of_not changed _) _
  · rw [answer, step, ← judge_stored]
    refine (bind_of_ok (require_of (Vec.size_toArray residuals) _) _).trans ?_
    rw [Vec.toList_toArray, Vec.toList_toArray]
    rfl

/-- A step in the buffers of a workspace does what the step does, and it makes a fault only where
the step ends with one. -/
theorem advance_stored (phase : Phase α m n) :
    t.stored.advance r.remains phase.stored = (r.advance t phase).stored := by
  cases phase with
  | linearize matrix progress => exact r.linearize_stored t matrix progress
  | attempt factor trust => exact r.attempt_stored t factor trust

/-- A run that halts makes no fault in the buffers of its workspace. -/
theorem halts_complete {phase : Phase α m n} {halt : Halt α}
    (h : (r.complete t phase).result = .ok halt) :
    t.stored.Halts (t.stored.advance r.remains phase.stored) halt (r.complete t phase).remains := by
  induction hleft : r.stepsLeft t phase using Nat.strongRecOn generalizing r phase with
  | ind left ih =>
    rw [advance_stored]
    cases step : r.advance t phase with
    | ends f =>
      rw [complete_of_ends step] at h ⊢
      obtain ⟨result, remains⟩ := f
      cases h
      exact .ends
    | continues r' next =>
      rw [complete_of_continues step] at h ⊢
      exact .continues (ih _ (hleft ▸ stepsLeft_lt_of_advance step) r' h rfl)

end Run

section Buffers

variable {w : Workspace α}

theorem SearchMemory.eq_ofBuffers {s : SearchMemory α} (fits : s.diagonal.size = n)
    {b : SearchBuffers α n} (h : s.buffers? n = some b) : s = .ofBuffers b := by
  have resized : s.resized n = s := if_pos fits
  simp only [buffers?, resized, Option.bind_eq_bind, Option.bind_eq_some_iff, Option.pure_def,
    Option.some.injEq] at h
  obtain ⟨_, diagonal, _, first, _, second, rfl⟩ := h
  rw [ofBuffers, ← Vec.eq_of_ofArray? diagonal, ← Vec.eq_of_ofArray? first,
    ← Vec.eq_of_ofArray? second]

/-- The buffers of a workspace are the workspace. -/
theorem Workspace.Fits.eq_ofBuffers (fits : w.Fits m n) {b : Buffers α m n}
    (h : w.buffers? m n = some b) : w = .ofBuffers b w.residuals w.trialResiduals := by
  simp only [buffers?, Option.bind_eq_bind, Option.bind_eq_some_iff, Option.pure_def,
    Option.some.injEq] at h
  obtain ⟨_, scaling, _, projected, _, step, _, trialPoint, _, linearChange, _, columnNorms, _,
    search, _, reflected, rfl⟩ := h
  rw [ofBuffers, ← Vec.eq_of_ofArray? scaling, ← Vec.eq_of_ofArray? projected,
    ← Vec.eq_of_ofArray? step, ← Vec.eq_of_ofArray? trialPoint, ← Vec.eq_of_ofArray? linearChange,
    ← Vec.eq_of_ofArray? columnNorms, ← SearchMemory.eq_ofBuffers fits.diagonal search,
    ← Vec.eq_of_ofArray? reflected]

end Buffers

namespace Task

variable (t : Task α σ m n) (l : Launch α σ m n) {w : Workspace α}

theorem start_of_aborted (hw : w.prepared m n = .ofBuffers l.buffers l.residuals l.trialResiduals)
    {abort : Abort} {written : Array α} (answer : (l.reply t).answer = .aborted abort written) :
    t.stored.start l.problem l.point.toArray w =
      .ok (.ends ⟨.aborted abort.status, none⟩ (l.remains t written)) := by
  unfold Checked.Task.start
  rw [l.point.size_toArray, show t.stored.residualCount = m from rfl, hw]
  change answered (l.reply t).answer _ _ = _
  rw [answer]
  rfl

theorem start_of_done (hw : w.prepared m n = .ofBuffers l.buffers l.residuals l.trialResiduals)
    {residuals : Vec α m} (answer : (l.reply t).answer = .done residuals.toArray) :
    t.stored.start l.problem l.point.toArray w =
      .ok (.continues (l.started t residuals).remains (Phase.first (n := n) residuals).stored) := by
  unfold Checked.Task.start
  rw [l.point.size_toArray, show t.stored.residualCount = m from rfl, hw]
  change answered (l.reply t).answer _ _ = _
  rw [answer]
  refine (bind_of_ok (require_of residuals.size_toArray _) _).trans ?_
  rw [residuals.toList_toArray]
  rfl

/-- A run that halts makes no fault from its first evaluation on. -/
theorem halts_run (hw : w.prepared m n = .ofBuffers l.buffers l.residuals l.trialResiduals)
    {halt : Halt α} (h : (t.run l).result = .ok halt) :
    t.stored.Halts (t.stored.start l.problem l.point.toArray w) halt (t.run l).remains := by
  rcases t.run_cases l with
    ⟨_, -, run⟩ | ⟨_, _, answer, run⟩ | ⟨_, -, -, run⟩ | ⟨residuals, answer, run⟩ <;>
    rw [run] at h ⊢
  · cases h
  · cases h
    rw [t.start_of_aborted l hw answer]
    exact .ends
  · cases h
  · rw [t.start_of_done l hw answer]
    exact .continues ((l.started t residuals).halts_complete t h)

end Task

namespace Settings

variable {s : Settings α} {problem : Problem α σ} {state : σ} {x : Array α} {w : Workspace α}

/-- The task of settings that pass all checks. -/
theorem stored_task {n : Nat} (valid : s.error? problem.residualCount n = none) :
    (s.task problem n valid).stored = .ofSettings s problem n := by
  have fixed : (s.fixedScaling? n).map Vec.toArray = fixedFactors? s.scaling := by
    obtain ⟨-, -, -, scaling, -⟩ := checks_of_error? valid
    unfold fixedScaling?
    cases hs : s.scaling with
    | adaptive => rfl
    | fixed factors =>
      have size : factors.size = n := by
        rw [hs, Scaling.error?] at scaling
        by_contra other
        rw [if_pos other] at scaling
        cases scaling
      obtain ⟨v, hv⟩ := Vec.exists_ofArray? size
      change (Vec.ofArray? n factors).map Vec.toArray = some factors
      rw [hv, Vec.eq_of_ofArray? hv]
      rfl
  exact congrArg (Checked.Task.mk problem problem.residualCount · s.stepBound s.reportEvery
    s.criteria (s.budget n)) fixed

/-- A run is launched in the buffers of the workspace that was prepared for it. -/
theorem prepared_eq_ofBuffers {k l : Nat} (fits : w.Fits k l) {launch : Launch α σ m x.size}
    (launched : launch? state x w = some launch) :
    w.prepared m x.size =
      .ofBuffers launch.buffers launch.residuals launch.trialResiduals := by
  obtain ⟨buffers, hbuffers, launched⟩ := Option.bind_eq_some_iff.mp launched
  cases launched
  exact (fits.prepared m x.size).eq_ofBuffers hbuffers

/-- A minimization of a problem that keeps its dimensions makes no fault in a workspace whose
buffers fit together, and it has the outcome of the minimization. -/
theorem minimizes {k l : Nat} (fits : w.Fits k l)
    (keeps : problem.KeepsDimensions problem.residualCount x.size) :
    Minimizes s problem state x w (s.minimizeWith problem state x w) := by
  cases valid : s.error? problem.residualCount x.size with
  | some error =>
    rw [minimizeWith_of_error valid]
    exact .refused valid
  | none =>
    obtain ⟨launch, launched, hstate, hpoint, -⟩ :=
      exists_launch? fits.coherent problem.residualCount state x
    obtain ⟨-, -, hresiduals, htrial⟩ := launch?_eq_some launched
    have prepared := fits.prepared problem.residualCount x.size
    let t := s.task problem x.size valid
    obtain ⟨halt, halted⟩ := Task.run_ok (t := t) keeps (hresiduals ▸ prepared.residuals)
      (htrial ▸ prepared.trialResiduals)
    have halts := t.halts_run launch (prepared_eq_ofBuffers fits launched) halted
    rw [stored_task valid, hstate, hpoint] at halts
    rw [minimizeWith_eq_close valid launched]
    have finished : t.run launch = ⟨.ok halt, (t.run launch).remains⟩ := by
      rw [← halted]
    rw [show s.task problem x.size valid = t from rfl, finished]
    exact .closed valid halts

end Settings

end LeastSquares
