import LeastSquares.Problems.Limited
import LeastSquares.Proofs.Calls
import LeastSquares.Proofs.Effort

namespace LeastSquares

open Problems (limited Limited)

variable {α σ : Type} {m n : Nat}

def Problems.Limited.after (limit : Nat) (state : σ) (evaluations jacobianEvaluations : Nat) :
    Limited σ :=
  ⟨state, some (limit - evaluations), evaluations, jacobianEvaluations, #[]⟩

def Task.limited (abort : Abort) (t : Task α σ m n) : Task α (Limited σ) m n where
  problem := Problems.limited abort t.problem
  fixedScaling := t.fixedScaling
  stepBound := t.stepBound
  reportEvery := t.reportEvery
  criteria := t.criteria
  budget := t.budget
  size_le := t.size_le

def Run.limited (limit : Nat) (r : Run α σ m n) : Run α (Limited σ) m n where
  problem := .after limit r.problem r.evaluations r.jacobianEvaluations
  point := r.point
  residuals := r.residuals
  trialResiduals := r.trialResiduals
  buffers := r.buffers
  evaluations := r.evaluations
  jacobianEvaluations := r.jacobianEvaluations
  history := r.history

def Remains.limited (limit : Nat) (r : Remains α σ) : Remains α (Limited σ) where
  problem := .after limit r.problem r.evaluations r.jacobianEvaluations
  point := r.point
  workspace := r.workspace
  evaluations := r.evaluations
  jacobianEvaluations := r.jacobianEvaluations
  history := r.history

def Finished.limited (limit : Nat) (f : Finished α σ) : Finished α (Limited σ) :=
  ⟨f.result, f.remains.limited limit⟩

def Advance.limited (limit : Nat) : Advance α σ m n → Advance α (Limited σ) m n
  | .continues r phase => .continues (r.limited limit) phase
  | .ends f => .ends (f.limited limit)

def Phase.evaluations : Phase α m n → Nat
  | .linearize .. => 0
  | .attempt .. => 1

def Launch.limited (limit : Nat) (l : Launch α σ m n) : Launch α (Limited σ) m n where
  problem := .start l.problem (some limit)
  point := l.point
  buffers := l.buffers
  residuals := l.residuals
  trialResiduals := l.trialResiduals

namespace Launch

variable {t : Task α σ m n} {l : Launch α σ m n} {abort : Abort} {limit : Nat}

theorem reply_limited (positive : 1 ≤ limit) :
    (l.limited limit).reply (t.limited abort) =
      (l.reply t).mapState fun s => .after limit s 1 0 := by
  refine if_neg ?_
  rw [limited, Limited.start, Option.some_inj]
  exact Nat.one_le_iff_ne_zero.mp positive

theorem remains_limited (positive : 1 ≤ limit) (residuals : Array α) :
    (l.limited limit).remains (t.limited abort) residuals =
      (l.remains t residuals).limited limit := by
  unfold remains
  rw [reply_limited positive]
  rfl

theorem started_limited (positive : 1 ≤ limit) (residuals : Vec α m) :
    (l.limited limit).started (t.limited abort) residuals =
      (l.started t residuals).limited limit := by
  unfold started
  rw [reply_limited positive]
  rfl

end Launch

variable [Scalar α]

/-- Whether a limited run was cut off in an attempt of the run itself: what it leaves is what there
was before, but for the call that was aborted. -/
structure Run.CutsOff (t : Task α σ m n) (abort : Abort) (r : Run α σ m n)
    (factor : Triangular α m n) (trust : TrustRegion α) (f : Finished α (Limited σ)) : Prop where
  result_eq : f.result = .ok ⟨.aborted abort.status, some trust⟩
  point_eq : f.remains.point = r.point.toArray
  residuals_eq : f.remains.workspace.residuals = r.residuals.toArray
  evaluations_eq : f.remains.evaluations = r.evaluations + 1
  jacobianEvaluations_eq : f.remains.jacobianEvaluations = r.jacobianEvaluations
  residualCalls_eq : f.remains.problem.residualCalls = r.evaluations + 1
  calls_eq : f.remains.history.calls.toList = r.history.calls.toList ++
    [.residuals (r.proposed (r.search t factor trust)).buffers.trialPoint.toArray none]

namespace Run

variable {t : Task α σ m n} {r : Run α σ m n} (abort : Abort) {limit : Nat}

theorem factorize_limited (jacobian : Mat α m n) (progress : Progress α) :
    (r.limited limit).factorize (t.limited abort) jacobian progress =
      (r.factorize t jacobian progress).limited limit := by
  rcases r.factorize_cases t jacobian progress with ⟨small, step⟩ | ⟨large, step⟩ <;>
    rcases (r.limited limit).factorize_cases (t.limited abort) jacobian progress with
      ⟨small', step'⟩ | ⟨large', step'⟩ <;> rw [step, step']
  · rfl
  · exact absurd small large'
  · exact absurd small' large
  · rfl

theorem inform_of_quiet (quiet : t.reportEvery = 0) (jacobian : Mat α m n)
    (progress : Progress α) : r.inform t jacobian progress = r.factorize t jacobian progress := by
  rw [inform, if_neg]
  simp [reportDue, quiet]

theorem linearize_limited (quiet : t.reportEvery = 0) (matrix : Mat α m n)
    (progress : Progress α) :
    (r.limited limit).linearize (t.limited abort) matrix progress =
      (r.linearize t matrix progress).limited limit := by
  let wrap (s : σ) : Limited σ := .after limit s r.evaluations (r.jacobianEvaluations + 1)
  have hreply : (r.limited limit).jacobianReply (t.limited abort) matrix =
      (r.jacobianReply t matrix).mapState wrap := rfl
  unfold linearize
  dsimp only
  rw [hreply]
  generalize r.jacobianReply t matrix = reply
  have hcalled : (r.limited limit).differentiated matrix (reply.mapState wrap) =
      (r.differentiated matrix reply).limited limit := rfl
  rw [hcalled]
  cases answer : reply.answer with
  | faulted | aborted =>
    simp only [Reply.mapState, answer]
    rfl
  | done written =>
    simp only [Reply.mapState, answer]
    cases written.toMat? m n with
    | none => rfl
    | some jacobian =>
      dsimp only
      rw [inform_of_quiet quiet, inform_of_quiet (t := t.limited abort) quiet]
      exact factorize_limited abort jacobian progress

theorem judge_limited (factor : Triangular α m n) (trust : TrustRegion α) (damping : α)
    (residuals : Vec α m) :
    (r.limited limit).judge (t.limited abort) factor trust damping residuals =
      (r.judge t factor trust damping residuals).limited limit := by
  have hjudged : (r.limited limit).judgement (t.limited abort) trust damping residuals =
      r.judgement t trust damping residuals := rfl
  unfold judge
  rw [hjudged]
  obtain ⟨next, accepted, termination⟩ := r.judgement t trust damping residuals
  cases accepted <;> cases termination <;> rfl

variable (factor : Triangular α m n) (trust : TrustRegion α)

/-- An attempt within the limit is not aborted by it. -/
theorem attempt_limited (within : r.evaluations < limit) :
    (r.limited limit).attempt (t.limited abort) factor trust =
      (r.attempt t factor trust).limited limit := by
  have hsearch : (r.limited limit).search (t.limited abort) factor trust =
      r.search t factor trust := rfl
  let wrap (s : σ) : Limited σ := .after limit s (r.evaluations + 1) r.jacobianEvaluations
  unfold attempt
  dsimp only
  rw [hsearch]
  generalize r.search t factor trust = found
  have hproposed : (r.limited limit).proposed found = (r.proposed found).limited limit := rfl
  rw [hproposed]
  have hreply : ((r.proposed found).limited limit).trialReply (t.limited abort) =
      ((r.proposed found).trialReply t).mapState wrap := by
    have left : some (limit - r.evaluations) ≠ some 0 := by
      rw [Ne, Option.some_inj]
      omega
    exact if_neg left
  rw [hreply]
  generalize (r.proposed found).trialReply t = reply
  have hcalled : ((r.proposed found).limited limit).evaluated (reply.mapState wrap) =
      ((r.proposed found).evaluated reply).limited limit := rfl
  rw [hcalled]
  cases answer : reply.answer with
  | faulted | aborted =>
    simp only [Reply.mapState, answer]
    rfl
  | done written =>
    simp only [Reply.mapState, answer]
    cases Vec.ofArray? m written with
    | none => rfl
    | some residuals => exact judge_limited abort _ _ _ residuals

/-- An attempt beyond the limit is aborted by it. -/
theorem attempt_cutOff (used : r.evaluations = limit) :
    ∃ f, (r.limited limit).attempt (t.limited abort) factor trust = .ends f ∧
      r.CutsOff t abort factor trust f := by
  let proposed := (r.proposed (r.search t factor trust)).limited limit
  have hsearch : (r.limited limit).search (t.limited abort) factor trust =
      r.search t factor trust := rfl
  have hproposed : (r.limited limit).proposed (r.search t factor trust) = proposed := rfl
  have hreply : proposed.trialReply (t.limited abort) =
      ⟨{ proposed.problem with residualCalls := r.evaluations + 1 },
        .aborted abort r.trialResiduals⟩ := by
    refine if_pos (congrArg some ?_)
    exact Nat.sub_eq_zero_of_le used.ge
  have called := calls_attempt (t := t.limited abort) (r := r.limited limit) factor trust
  unfold stepCalls at called
  dsimp only at called
  unfold attempt at called ⊢
  dsimp only at called ⊢
  rw [hsearch, hproposed, hreply] at called ⊢
  exact ⟨_, rfl, rfl, rfl, rfl, rfl, rfl, rfl, called⟩

theorem evaluations_judge (damping : α) (residuals : Vec α m) :
    (r.judge t factor trust damping residuals).remains.evaluations = r.evaluations := by
  rcases r.judge_cases t factor trust damping residuals with
    ⟨-, ⟨_, -, step⟩ | ⟨-, step⟩⟩ | ⟨-, ⟨_, -, step⟩ | ⟨-, step⟩⟩ <;> rw [step] <;> rfl

/-- A step counts its residual evaluation. -/
theorem evaluations_advance (phase : Phase α m n) :
    (r.advance t phase).remains.evaluations = r.evaluations + phase.evaluations := by
  cases phase with
  | linearize matrix progress =>
    obtain ⟨told, htold, shape⟩ := r.linearize_shape t matrix progress
    have hevaluations : told.evaluations = r.evaluations := by
      rcases htold with rfl | rfl <;> rfl
    change (r.linearize t matrix progress).remains.evaluations = r.evaluations
    rcases shape with ⟨_, step⟩ | ⟨_, step⟩ | ⟨jacobian, step⟩ <;> rw [step]
    · exact hevaluations
    · exact hevaluations
    · rcases told.factorize_cases t jacobian progress with ⟨-, step⟩ | ⟨-, step⟩ <;> rw [step]
      · exact hevaluations
      · exact hevaluations
  | attempt factor trust =>
    change (r.attempt t factor trust).remains.evaluations = r.evaluations + 1
    rcases r.attempt_cases t factor trust with
      ⟨_, -, step⟩ | ⟨_, _, -, step⟩ | ⟨_, -, -, step⟩ | ⟨residuals, -, step⟩ <;> rw [step]
    · rfl
    · rfl
    · rfl
    · exact evaluations_judge _ _ _ residuals

theorem evaluations_le_complete (t : Task α σ m n) (r : Run α σ m n) (phase : Phase α m n) :
    r.evaluations + phase.evaluations ≤ (r.complete t phase).remains.evaluations := by
  fun_induction Run.complete t r phase with
  | case1 r phase f step =>
    have evaluations := evaluations_advance (t := t) (r := r) phase
    rw [step] at evaluations
    exact evaluations.ge
  | case2 r phase r' next step _ ih =>
    have evaluations := evaluations_advance (t := t) (r := r) phase
    rw [step] at evaluations
    exact evaluations.ge.trans ((Nat.le_add_right _ _).trans ih)

theorem advance_limited (quiet : t.reportEvery = 0) {phase : Phase α m n}
    (within : r.evaluations + phase.evaluations ≤ limit) :
    (r.limited limit).advance (t.limited abort) phase = (r.advance t phase).limited limit := by
  cases phase with
  | linearize matrix progress => exact linearize_limited abort quiet matrix progress
  | attempt factor trust => exact attempt_limited abort factor trust within

/-- A run whose next step goes beyond the limit is cut off there. -/
theorem complete_cutOff {phase : Phase α m n} (within : r.evaluations ≤ limit)
    (beyond : limit < r.evaluations + phase.evaluations) :
    ∃ factor trust, phase = .attempt factor trust ∧ r.evaluations = limit ∧
      r.CutsOff t abort factor trust ((r.limited limit).complete (t.limited abort) phase) := by
  cases phase with
  | linearize => exact absurd beyond within.not_gt
  | attempt factor trust =>
    have used : r.evaluations = limit := within.antisymm (Nat.lt_succ_iff.mp beyond)
    obtain ⟨f, step, cut⟩ := attempt_cutOff (t := t) abort factor trust used
    have ended : (r.limited limit).complete (t.limited abort) (.attempt factor trust) = f :=
      complete_of_ends step
    refine ⟨factor, trust, rfl, used, ?_⟩
    rw [ended]
    exact cut

/-- A limited run is the run itself if that stays within the limit. Else it is cut off in the first
attempt beyond the limit. -/
theorem complete_limited (quiet : t.reportEvery = 0) {l : Launch α σ m n}
    {committed : List (Evaluation α m n)} {phase : Phase α m n}
    (reached : t.Reaches l committed (.continues r phase)) (within : r.evaluations ≤ limit) :
    ((r.complete t phase).remains.evaluations ≤ limit ∧
      (r.limited limit).complete (t.limited abort) phase = (r.complete t phase).limited limit) ∨
    (limit < (r.complete t phase).remains.evaluations ∧ ∃ committed r' factor trust,
      t.Reaches l committed (.continues r' (.attempt factor trust)) ∧ r'.evaluations = limit ∧
      r'.CutsOff t abort factor trust ((r.limited limit).complete (t.limited abort) phase)) := by
  have cut {r : Run α σ m n} {committed : List (Evaluation α m n)} {phase : Phase α m n}
      (reached : t.Reaches l committed (.continues r phase)) (within : r.evaluations ≤ limit)
      (beyond : limit < r.evaluations + phase.evaluations) :
      limit < (r.complete t phase).remains.evaluations ∧ ∃ committed r' factor trust,
        t.Reaches l committed (.continues r' (.attempt factor trust)) ∧ r'.evaluations = limit ∧
        r'.CutsOff t abort factor trust ((r.limited limit).complete (t.limited abort) phase) := by
    obtain ⟨factor, trust, rfl, used, cut⟩ := complete_cutOff (t := t) abort within beyond
    exact ⟨beyond.trans_le (evaluations_le_complete t r _), committed, r, factor, trust, reached,
      used, cut⟩
  fun_induction Run.complete t r phase generalizing committed with
  | case1 r phase f step =>
    by_cases counted : r.evaluations + phase.evaluations ≤ limit
    · have evaluations := evaluations_advance (t := t) (r := r) phase
      have step' := advance_limited abort quiet counted
      rw [step] at evaluations step'
      exact Or.inl ⟨evaluations.trans_le counted, complete_of_ends step'⟩
    · have cut := cut reached within (Nat.lt_of_not_le counted)
      rw [complete_of_ends step] at cut
      exact Or.inr cut
  | case2 r phase r' next step _ ih =>
    by_cases counted : r.evaluations + phase.evaluations ≤ limit
    · have evaluations := evaluations_advance (t := t) (r := r) phase
      have step' := advance_limited abort quiet counted
      rw [step] at evaluations step'
      rw [complete_of_continues step']
      exact ih (step ▸ reached.step) (evaluations.trans_le counted)
    · have cut := cut reached within (Nat.lt_of_not_le counted)
      rw [complete_of_continues step] at cut
      exact Or.inr cut

end Run

theorem Settings.launch?_limited {state : σ} {x : Array α} {workspace : Workspace α}
    {l : Launch α σ m x.size} (h : launch? state x workspace = some l) (limit : Nat) :
    launch? (Limited.start state (some limit)) x workspace = some (l.limited limit) := by
  obtain ⟨buffers, hbuffers, hl⟩ := Option.bind_eq_some_iff.mp h
  cases hl
  exact Option.bind_eq_some_iff.mpr ⟨buffers, hbuffers, rfl⟩

namespace Task

variable {t : Task α σ m n} {l : Launch α σ m n} (abort : Abort) {limit : Nat}

/-- A limited run of a task is the run itself, or cut off in the first attempt beyond the limit. -/
theorem run_limited (quiet : t.reportEvery = 0) (positive : 1 ≤ limit) :
    ((t.run l).remains.evaluations ≤ limit ∧
      (t.limited abort).run (l.limited limit) = (t.run l).limited limit) ∨
    (limit < (t.run l).remains.evaluations ∧ ∃ committed r factor trust,
      t.Reaches l committed (.continues r (.attempt factor trust)) ∧ r.evaluations = limit ∧
      r.CutsOff t abort factor trust ((t.limited abort).run (l.limited limit))) := by
  have hanswer : ((l.limited limit).reply (t.limited abort)).answer = (l.reply t).answer :=
    congrArg Reply.answer (Launch.reply_limited positive)
  rcases t.run_cases l with
    ⟨_, answer, run⟩ | ⟨_, _, answer, run⟩ | ⟨_, answer, size, run⟩ | ⟨residuals, answer, run⟩ <;>
    rw [run, Task.run, hanswer, answer]
  · refine Or.inl ⟨positive, ?_⟩
    dsimp only
    rw [Launch.remains_limited positive]
    rfl
  · refine Or.inl ⟨positive, ?_⟩
    dsimp only
    rw [Launch.remains_limited positive]
    rfl
  · refine Or.inl ⟨positive, ?_⟩
    dsimp only
    rw [size]
    dsimp only
    rw [Launch.remains_limited positive]
    rfl
  · dsimp only
    rw [Vec.ofArray?_toArray]
    dsimp only
    rw [Launch.started_limited positive]
    exact Run.complete_limited abort quiet (.start answer) positive

end Task

/-- Whether an outcome is that of a run which was committed to an evaluation after some accepted
steps, and was cut off in one more residual call. -/
structure Outcome.CutOff (out : Outcome α (Limited σ)) (report : Report α) (r : Run α σ m n)
    (c : Evaluation α m n) (accepted : Nat) : Prop where
  result_eq : out.result = .ok report
  residualCalls_eq : out.problem.residualCalls = r.history.residualCalls + 1
  evaluations_eq : report.evaluations = r.history.residualCalls + 1
  jacobianEvaluations_eq : report.jacobianEvaluations = r.history.jacobianCalls
  iterations_eq : report.iterations = accepted
  point_eq : out.point = c.point.toArray
  residuals_eq : report.residuals = c.residuals.toArray
  residualNorm_eq : report.residualNorm = norm c.residuals

/-- A run that is cut off is closed with the evaluation to which it was committed. -/
theorem Run.CutsOff.closed {t : Task α σ m n} {l : Launch α σ m n} {abort : Abort}
    {r : Run α σ m n} {factor : Triangular α m n} {trust : TrustRegion α}
    {f : Finished α (Limited σ)} {c : Evaluation α m n} {earlier : List (Evaluation α m n)}
    (h : r.CutsOff t abort factor trust f)
    (reached : t.Reaches l (c :: earlier) (.continues r (.attempt factor trust))) :
    let halt : Halt α := ⟨.aborted abort.status, some trust⟩
    (f.remains.closed halt).CutOff (f.remains.report halt) r c earlier.length := by
  intro halt
  obtain ⟨_, _, committed, hat⟩ := reached.at_head
  cases committed
  obtain rfl := hat.current_eq
  obtain ⟨_, hlength, track, hiteration⟩ := reached.accounted
  cases hlength
  refine ⟨rfl, ?_, ?_, ?_, ?_, h.point_eq, h.residuals_eq, ?_⟩
  · rw [track.counts.residualCalls_eq]
    exact h.residualCalls_eq
  · rw [track.counts.residualCalls_eq]
    exact h.evaluations_eq
  · rw [track.counts.jacobianCalls_eq]
    exact h.jacobianEvaluations_eq
  · exact Nat.sub_eq_of_eq_add hiteration
  · change Scalar.norm f.remains.workspace.residuals.toList = norm r.residuals
    rw [h.residuals_eq, Vec.toList_toArray]
    rfl

/-- The status with which an abort was asked for, if it may be one. -/
theorem Abort.status_ofStatus (status : Int) :
    (Abort.ofStatus status).status = if status < 0 then status else -1 := by
  unfold ofStatus
  split <;> rfl

namespace Settings

/-- A minimization without reports whose residual evaluations are limited ends with the same result
at the same point, if it needs no more of them. Else the next evaluation is aborted, and the run
ends with the evaluation to which the unlimited run is committed then. -/
theorem limit_cuts_off_run (s : Settings α) (problem : Problem α σ) (state : σ) (x : Array α)
    {workspace : Workspace α} {k k' : Nat}
    (valid : s.error? problem.residualCount x.size = none) (quiet : s.reportEvery = 0)
    (fits : workspace.Fits k k')
    (keeps : problem.KeepsDimensions problem.residualCount x.size) {limit : Nat}
    (positive : 1 ≤ limit) (status : Int) :
    let t := s.task problem x.size valid
    let out := s.minimizeWith problem state x workspace
    let cut := s.minimizeWith (limited (.ofStatus status) problem)
      (.start state (some limit)) x workspace
    ∃ report, out.result = .ok report ∧
      (out.history.residualCalls ≤ limit → cut.result = .ok report ∧ cut.point = out.point) ∧
      (limit < out.history.residualCalls → ∃ l c earlier r factor trust report',
        launch? state x workspace = some l ∧
        t.Reaches l (c :: earlier) (.continues r (.attempt factor trust)) ∧
        r.history.residualCalls = limit ∧
        report'.termination = .aborted (if status < 0 then status else -1) ∧
        cut.history.calls.toList = r.history.calls.toList ++
          [.residuals (r.proposed (r.search t factor trust)).buffers.trialPoint.toArray none] ∧
        cut.CutOff report' r c earlier.length) := by
  intro t out cut
  obtain ⟨l, launched, -⟩ := exists_launch? fits.coherent problem.residualCount state x
  obtain ⟨-, -, hresiduals, htrial⟩ := launch?_eq_some launched
  have prepared := fits.prepared problem.residualCount x.size
  obtain ⟨halt, hhalt⟩ := t.run_ok keeps (hresiduals ▸ prepared.residuals)
    (htrial ▸ prepared.trialResiduals)
  have hout : out = (t.run l).remains.closed halt := by
    rw [← Finished.close_of_quiet hhalt problem, ← quiet]
    exact minimizeWith_eq_close valid launched
  let f := (t.limited (.ofStatus status)).run (l.limited limit)
  have valid' : s.error? (limited (.ofStatus status) problem).residualCount x.size = none := valid
  have hcut : cut = f.close (limited (.ofStatus status) problem) 0 := by
    rw [← quiet]
    exact minimizeWith_eq_close valid' (launch?_limited launched limit)
  have counts : out.history.residualCalls = (t.run l).remains.evaluations := by
    obtain ⟨_, -, accounted, -⟩ := Task.run_accounted hhalt
    rw [hout]
    exact (accounted.counts.log _).residualCalls_eq
  refine ⟨_, congrArg Outcome.result hout, ?_⟩
  rw [counts]
  rcases t.run_limited (.ofStatus status) quiet positive with
    ⟨within, same⟩ | ⟨beyond, committed, r, factor, trust, reached, used, cutsOff⟩
  · refine ⟨fun _ => ?_, fun beyond => absurd beyond within.not_gt⟩
    have hf : f.result = .ok halt := by
      change ((t.limited (.ofStatus status)).run (l.limited limit)).result = _
      rw [same]
      exact hhalt
    rw [hcut, Finished.close_of_quiet hf, hout]
    change (f.remains.closed halt).result = _ ∧ f.remains.point = _
    rw [show f = (t.run l).limited limit from same]
    exact ⟨rfl, rfl⟩
  · refine ⟨fun within => absurd beyond within.not_gt, fun _ => ?_⟩
    obtain ⟨c, earlier, rfl, -⟩ := reached.at_head
    obtain ⟨_, -, track, -⟩ := reached.accounted
    have residualCalls : r.history.residualCalls = limit :=
      track.counts.residualCalls_eq.trans used
    rw [hcut, Finished.close_of_quiet cutsOff.result_eq]
    refine ⟨l, c, earlier, r, factor, trust, _, launched, reached, residualCalls,
      Abort.status_ofStatus status ▸ rfl, ?_, cutsOff.closed reached⟩
    rw [Finished.calls_closed]
    exact cutsOff.calls_eq

/-- One evaluation in the valley of Rosenbrock, and a status that is none. -/
theorem rosenbrock_limit_cuts_off_run :
    let s : Settings ℝ := .standard
    let t := s.task Problems.rosenbrock 2 (error?_standard two_pos le_rfl)
    let out := s.minimizeWith Problems.rosenbrock () #[0, 0] (.zeros 2 2)
    let cut := s.minimizeWith (limited (.ofStatus 3) Problems.rosenbrock) (.start () (some 1))
      #[0, 0] (.zeros 2 2)
    ∃ report, out.result = .ok report ∧
      (out.history.residualCalls ≤ 1 → cut.result = .ok report ∧ cut.point = out.point) ∧
      (1 < out.history.residualCalls → ∃ l c earlier r factor trust report',
        launch? () #[0, 0] (.zeros 2 2) = some l ∧
        t.Reaches l (c :: earlier) (.continues r (.attempt factor trust)) ∧
        r.history.residualCalls = 1 ∧ report'.termination = .aborted (-1) ∧
        cut.history.calls.toList = r.history.calls.toList ++
          [.residuals (r.proposed (r.search t factor trust)).buffers.trialPoint.toArray none] ∧
        cut.CutOff report' r c earlier.length) :=
  limit_cuts_off_run Settings.standard Problems.rosenbrock () #[0, 0]
    (error?_standard two_pos le_rfl) rfl (Workspace.fits_zeros 2 2)
    Problems.rosenbrock_keepsDimensions le_rfl 3

end Settings

end LeastSquares
