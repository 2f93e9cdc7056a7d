import LeastSquares.Proofs.Commitment
import LeastSquares.Proofs.Dimensions
import LeastSquares.Proofs.Real

namespace LeastSquares

variable {α σ : Type} {m n : Nat}

structure History.Counts (h : History α) (evaluations jacobians : Nat) : Prop where
  residualCalls_eq : h.residualCalls = evaluations
  jacobianCalls_eq : h.jacobianCalls = jacobians

namespace History.Counts

variable {h : History α} {e j : Nat}

theorem push_residuals (hc : h.Counts e j) (point : Array α) (written : Option (Array α)) :
    Counts (h.push (.residuals point written)) (e + 1) j where
  residualCalls_eq := by
    rw [residualCalls, Array.countP_push, ← hc.residualCalls_eq]
    rfl
  jacobianCalls_eq := by
    rw [jacobianCalls, Array.countP_push, ← hc.jacobianCalls_eq]
    rfl

theorem push_jacobian (hc : h.Counts e j) (point : Array α) (given : Jacobian α)
    (written : Option (Jacobian α)) :
    Counts (h.push (.jacobian point given written)) e (j + 1) where
  residualCalls_eq := by
    rw [residualCalls, Array.countP_push, ← hc.residualCalls_eq]
    rfl
  jacobianCalls_eq := by
    rw [jacobianCalls, Array.countP_push, ← hc.jacobianCalls_eq]
    rfl

theorem push_report (hc : h.Counts e j) (iteration : Nat) (point residuals : Array α) :
    Counts (h.push (.report iteration point residuals)) e j where
  residualCalls_eq := by
    rw [residualCalls, Array.countP_push, ← hc.residualCalls_eq]
    rfl
  jacobianCalls_eq := by
    rw [jacobianCalls, Array.countP_push, ← hc.jacobianCalls_eq]
    rfl

theorem log (hc : h.Counts e j) (records : List (LogRecord α)) :
    Counts (h ++ (records.map Event.log).toArray) e j where
  residualCalls_eq := by
    have none_counted : (records.map Event.log).countP Event.isResiduals = 0 := by
      simp [List.countP_eq_zero, Event.isResiduals]
    simp [residualCalls, none_counted, ← hc.residualCalls_eq]
  jacobianCalls_eq := by
    have none_counted : (records.map Event.log).countP Event.isJacobian = 0 := by
      simp [List.countP_eq_zero, Event.isJacobian]
    simp [jacobianCalls, none_counted, ← hc.jacobianCalls_eq]

end History.Counts

def Phase.iteration : Phase α m n → Nat
  | .linearize _ progress => progress.iteration
  | .attempt _ trust => trust.iteration

def Phase.jacobiansDue : Phase α m n → Nat
  | .linearize .. => 1
  | .attempt .. => 0

/-- Whether a run with so many accepted steps and so many Jacobians due has made the effort for them
and has some of its limit left. -/
structure Run.OnTrack (r : Run α σ m n) (due limit accepted : Nat) : Prop where
  counts : r.history.Counts r.evaluations r.jacobianEvaluations
  jacobians_eq : r.jacobianEvaluations + due = accepted + 1
  accepted_lt : accepted < r.evaluations
  evaluations_lt : r.evaluations < limit

structure Run.Tried (r : Run α σ m n) (limit accepted : Nat) : Prop where
  counts : r.history.Counts r.evaluations r.jacobianEvaluations
  jacobians_eq : r.jacobianEvaluations = accepted + 1
  accepted_lt : accepted + 1 < r.evaluations
  evaluations_le : r.evaluations ≤ limit

/-- Whether the counters that a run leaves fit its calls and its accepted steps. -/
structure Remains.Accounted (r : Remains α σ) (limit accepted : Nat) : Prop where
  counts : r.history.Counts r.evaluations r.jacobianEvaluations
  evaluations_le : r.evaluations ≤ limit
  accepted_le : accepted ≤ r.jacobianEvaluations
  jacobians_le : r.jacobianEvaluations ≤ accepted + 1
  jacobians_le_evaluations : r.jacobianEvaluations ≤ r.evaluations

structure Halt.Accounted (halt : Halt α) (evaluations limit accepted : Nat) : Prop where
  accepted_eq : halt.accepted = accepted
  evaluations_eq : halt.termination = .budgetExhausted → evaluations = limit

def Advance.Accounted (a : Advance α σ m n) (limit accepted : Nat) : Prop :=
  match a with
  | .continues r phase =>
    r.OnTrack phase.jacobiansDue limit accepted ∧ phase.iteration = accepted + 1
  | .ends f =>
    f.remains.Accounted limit accepted ∧
      ∀ halt, f.result = .ok halt → halt.Accounted f.remains.evaluations limit accepted

namespace TrustRegion

variable [Arith α] {criteria : Criteria α} {s : TrustRegion α} {t : Trial α}

/-- A trial stays in its iteration unless it is accepted. -/
theorem iteration_judge (criteria : Criteria α) (s : TrustRegion α) (t : Trial α) :
    (s.judge criteria t).1.iteration =
      if (s.judge criteria t).2.accepted then s.iteration + 1 else s.iteration := by
  have hadapted : (s.adapted criteria.tuning t).iteration = s.iteration := by
    unfold adapted
    dsimp only
    split
    · rfl
    · split <;> rfl
  unfold judge
  dsimp only
  split
  · exact congrArg (· + 1) hadapted
  · exact hadapted

theorem convergence_ne_budgetExhausted (current : α) :
    s.convergence criteria t current ≠ some .budgetExhausted := by
  unfold convergence
  split <;> exact fun h => nomatch h

theorem budgetExhausted_of_limit {current : α} (h : s.limit t current = some .budgetExhausted) :
    t.budgetExhausted = true := by
  unfold limit at h
  split at h
  · cases h
  · split at h
    · cases h
    · split at h
      · cases h
      · split at h
        · rename_i exhausted
          exact exhausted
        · cases h

theorem budgetExhausted_of_judge
    (h : (s.judge criteria t).2.termination = some .budgetExhausted) :
    t.budgetExhausted = true := by
  rcases Option.or_eq_some_iff.mp h with h | ⟨-, h⟩
  · exact absurd h (convergence_ne_budgetExhausted _)
  · exact budgetExhausted_of_limit h

end TrustRegion

theorem Halt.accepted_trust? {progress : Progress α} {accepted : Nat}
    (h : progress.iteration = accepted + 1) (termination : Termination) :
    (Halt.mk termination progress.trust?).accepted = accepted := by
  cases progress with
  | fresh => exact Nat.succ.inj h
  | underway trust => exact Nat.sub_eq_of_eq_add h

namespace Run

variable {r : Run α σ m n} {due limit accepted : Nat}

theorem OnTrack.accounted (h : r.OnTrack due limit accepted) (hdue : due ≤ 1) :
    r.remains.Accounted limit accepted := by
  obtain ⟨counts, jacobians_eq, accepted_lt, evaluations_lt⟩ := h
  refine ⟨counts, evaluations_lt.le, ?_, ?_, ?_⟩ <;> dsimp only [remains] <;> omega

theorem OnTrack.differentiated (h : r.OnTrack 1 limit accepted) (matrix : Mat α m n)
    (reply : Reply σ (Jacobian α)) : (r.differentiated matrix reply).OnTrack 0 limit accepted :=
  ⟨h.counts.push_jacobian _ _ _, h.jacobians_eq, h.accepted_lt, h.evaluations_lt⟩

theorem OnTrack.reported (h : r.OnTrack due limit accepted) (iteration : Nat)
    (reply : Reply σ Unit) : (r.reported iteration reply).OnTrack due limit accepted :=
  ⟨h.counts.push_report _ _ _, h.jacobians_eq, h.accepted_lt, h.evaluations_lt⟩

theorem OnTrack.announced (h : r.OnTrack due limit accepted) (trust : TrustRegion α) :
    (r.announced trust).OnTrack due limit accepted :=
  ⟨h.counts.log _, h.jacobians_eq, h.accepted_lt, h.evaluations_lt⟩

theorem OnTrack.rescaled (h : r.OnTrack due limit accepted) (scaling : Vec α n) :
    (r.rescaled scaling).OnTrack due limit accepted :=
  ⟨h.counts, h.jacobians_eq, h.accepted_lt, h.evaluations_lt⟩

theorem Tried.accounted (h : r.Tried limit accepted) : r.remains.Accounted limit accepted := by
  obtain ⟨counts, jacobians_eq, accepted_lt, evaluations_le⟩ := h
  refine ⟨counts, evaluations_le, ?_, ?_, ?_⟩ <;> dsimp only [remains] <;> omega

theorem Tried.moved_accounted (h : r.Tried limit accepted) (residuals : Vec α m) :
    (r.moved residuals).remains.Accounted limit (accepted + 1) := by
  obtain ⟨counts, jacobians_eq, accepted_lt, evaluations_le⟩ := h
  refine ⟨counts, evaluations_le, ?_, ?_, ?_⟩ <;> dsimp only [remains, moved] <;> omega

theorem fault_accounted (h : r.remains.Accounted limit accepted) (fault : Fault) :
    (r.fault fault).Accounted limit accepted :=
  ⟨h, fun _ hhalt => nomatch hhalt⟩

theorem halt_accounted {termination : Termination} {trust : Option (TrustRegion α)}
    (h : r.remains.Accounted limit accepted)
    (hhalt : (Halt.mk termination trust).Accounted r.evaluations limit accepted) :
    (r.halt termination trust).Accounted limit accepted := by
  refine ⟨h, ?_⟩
  intro halt heq
  cases heq
  exact hhalt

variable [Scalar α] {t : Task α σ m n}

theorem factorize_accounted (h : r.OnTrack 0 limit accepted) {progress : Progress α}
    (hiteration : progress.iteration = accepted + 1) (jacobian : Mat α m n) :
    (r.factorize t jacobian progress).Accounted limit accepted := by
  have hresumed (columnNorms : Vec α n) :
      (r.resumed t columnNorms progress).1.iteration = accepted + 1 := by
    rw [← hiteration]
    cases progress <;> rfl
  have hfactored (qr : QR α m n) (scaling : Vec α n) :
      (r.factored t qr scaling).OnTrack 0 limit accepted :=
    ⟨h.counts, h.jacobians_eq, h.accepted_lt, h.evaluations_lt⟩
  rcases r.factorize_cases t jacobian progress with ⟨-, step⟩ | ⟨-, step⟩ <;> rw [step]
  · refine halt_accounted (((hfactored _ _).announced _).accounted zero_le_one) ?_
    exact ⟨Nat.sub_eq_of_eq_add (hresumed _), fun h => nomatch h⟩
  · exact ⟨((hfactored _ _).announced _).rescaled _, hresumed _⟩

/-- A linearization makes one Jacobian call and commits to nothing. -/
theorem linearize_accounted (h : r.OnTrack 1 limit accepted) {progress : Progress α}
    (hiteration : progress.iteration = accepted + 1) (matrix : Mat α m n) :
    (r.linearize t matrix progress).Accounted limit accepted := by
  obtain ⟨told, htold, shape⟩ := r.linearize_shape t matrix progress
  have htrack : told.OnTrack 0 limit accepted := by
    have called := h.differentiated matrix (r.jacobianReply t matrix)
    rcases htold with rfl | rfl
    · exact called
    · exact called.reported _ _
  rcases shape with ⟨_, step⟩ | ⟨_, step⟩ | ⟨_, step⟩ <;> rw [step]
  · exact fault_accounted (htrack.accounted zero_le_one) _
  · exact halt_accounted (htrack.accounted zero_le_one)
      ⟨Halt.accepted_trust? hiteration _, fun h => nomatch h⟩
  · exact factorize_accounted htrack hiteration _

variable {trust : TrustRegion α}

theorem OnTrack.evaluated (h : r.OnTrack 0 limit accepted) (found : SearchOutcome α m n)
    (reply : Reply σ (Array α)) : ((r.proposed found).evaluated reply).Tried limit accepted :=
  ⟨(h.counts.log _).push_residuals _ _, h.jacobians_eq, Nat.succ_lt_succ h.accepted_lt,
    h.evaluations_lt⟩

theorem Tried.stayed (h : r.Tried limit accepted) (residuals : Vec α m) (trust : TrustRegion α) :
    (r.stayed residuals trust).Tried limit accepted :=
  ⟨h.counts.log _, h.jacobians_eq, h.accepted_lt, h.evaluations_le⟩

/-- A trial that leaves the run going leaves some of the limit. -/
theorem judge_accounted (h : r.Tried (max t.budget 2) accepted)
    (hiteration : trust.iteration = accepted + 1) (factor : Triangular α m n) (damping : α)
    (residuals : Vec α m) :
    (r.judge t factor trust damping residuals).Accounted (max t.budget 2)
      (if (r.judgement t trust damping residuals).2.accepted then accepted + 1 else accepted) := by
  have hnext : (r.judgement t trust damping residuals).1.iteration =
      if (r.judgement t trust damping residuals).2.accepted then trust.iteration + 1
      else trust.iteration :=
    TrustRegion.iteration_judge _ _ _
  have hexhausted {termination : Termination}
      (ended : (r.judgement t trust damping residuals).2.termination = some termination)
      (exhausted : termination = .budgetExhausted) : r.evaluations = max t.budget 2 := by
    have used : t.budget ≤ r.evaluations :=
      of_decide_eq_true (TrustRegion.budgetExhausted_of_judge (exhausted ▸ ended))
    have := h.accepted_lt
    have := h.evaluations_le
    omega
  have hleft {r' : Run α σ m n} {phase : Phase α m n}
      (step : r.judge t factor trust damping residuals = .continues r' phase) :
      r.evaluations < max t.budget 2 :=
    (judge_continues step).2.trans_le (le_max_left _ _)
  rcases r.judge_cases t factor trust damping residuals with
    ⟨accept, ends⟩ | ⟨reject, ends⟩
  · rw [accept, if_pos rfl, hiteration] at hnext
    rw [accept, if_pos rfl]
    rcases ends with ⟨_, ended, step⟩ | ⟨-, step⟩
    · rw [step]
      exact halt_accounted (h.moved_accounted residuals)
        ⟨Nat.sub_eq_of_eq_add hnext, hexhausted ended⟩
    · have left := hleft step
      rw [step]
      exact ⟨⟨h.counts, congrArg (· + 1) h.jacobians_eq, h.accepted_lt, left⟩, hnext⟩
  · rw [reject, if_neg Bool.false_ne_true, hiteration] at hnext
    rw [reject, if_neg Bool.false_ne_true]
    have stayed := h.stayed residuals (r.judgement t trust damping residuals).1
    rcases ends with ⟨_, ended, step⟩ | ⟨-, step⟩
    · rw [step]
      exact halt_accounted stayed.accounted ⟨Nat.sub_eq_of_eq_add hnext, hexhausted ended⟩
    · have left := hleft step
      rw [step]
      exact ⟨⟨stayed.counts, stayed.jacobians_eq, (Nat.lt_succ_self _).trans stayed.accepted_lt,
        left⟩, hnext⟩

/-- An attempt makes one residual call, whatever comes of it. -/
theorem attempt_accounted (h : r.OnTrack 0 (max t.budget 2) accepted)
    (hiteration : trust.iteration = accepted + 1) (factor : Triangular α m n) :
    (r.attempt t factor trust).Accounted (max t.budget 2)
      (accepted + (r.committed? t (.attempt factor trust)).toList.length) := by
  have tried := h.evaluated (r.search t factor trust)
    ((r.proposed (r.search t factor trust)).trialReply t)
  rcases r.attempt_cases t factor trust with
    ⟨_, answer, step⟩ | ⟨_, _, answer, step⟩ | ⟨_, answer, size, step⟩ | ⟨residuals, answer, step⟩
    <;> rw [step]
  · rw [committed?_eq_none (by rw [answer]; rfl)]
    exact fault_accounted tried.accounted _
  · rw [committed?_eq_none (by rw [answer]; rfl)]
    refine halt_accounted (Tried.accounted ?_) ⟨Nat.sub_eq_of_eq_add hiteration, fun h => nomatch h⟩
    exact ⟨tried.counts, tried.jacobians_eq, tried.accepted_lt, tried.evaluations_le⟩
  · rw [committed?_eq_none (by rw [answer]; exact size)]
    exact fault_accounted tried.accounted _
  · have judged := judge_accounted tried hiteration (r.search t factor trust).factor
      (r.search t factor trust).damping residuals
    rw [committed?_of_done answer]
    split
    · rename_i accept
      rwa [accept, if_pos rfl] at judged
    · rename_i reject
      rwa [if_neg reject] at judged

/-- Every step keeps account of the steps accepted so far. -/
theorem advance_accounted {phase : Phase α m n}
    (h : r.OnTrack phase.jacobiansDue (max t.budget 2) accepted)
    (hiteration : phase.iteration = accepted + 1) :
    (r.advance t phase).Accounted (max t.budget 2)
      (accepted + (r.committed? t phase).toList.length) := by
  cases phase with
  | linearize matrix progress => exact linearize_accounted h hiteration matrix
  | attempt factor trust => exact attempt_accounted h hiteration factor

end Run

namespace Task

variable [Scalar α] {t : Task α σ m n} {l : Launch α σ m n}
  {committed : List (Evaluation α m n)}

/-- A run commits to the evaluation at its start and to one for every accepted step. -/
theorem Reaches.accounted {a : Advance α σ m n} (h : t.Reaches l committed a) :
    ∃ accepted, committed.length = accepted + 1 ∧ a.Accounted (max t.budget 2) accepted := by
  induction h with
  | start =>
    refine ⟨0, rfl, ⟨⟨rfl, rfl⟩, rfl, one_pos, ?_⟩, rfl⟩
    exact one_lt_two.trans_le (le_max_right _ _)
  | @step committed r phase _ ih =>
    obtain ⟨accepted, hlength, htrack, hiteration⟩ := ih
    refine ⟨_, ?_, Run.advance_accounted htrack hiteration⟩
    rw [List.length_append, hlength]
    omega

/-- Whether a run ends after the given accepted steps, the latest first. A run that is aborted in
its first evaluation accepts none. -/
inductive Accepts (t : Task α σ m n) (l : Launch α σ m n) : List (Evaluation α m n) → Prop
  | aborted {abort : Abort} {written : Array α} (h : (l.reply t).answer = .aborted abort written) :
    Accepts t l []
  | ended {residuals : Vec α m} {accepted : List (Evaluation α m n)}
    (first : (l.reply t).answer = .done residuals.toArray)
    (h : t.Reaches l (accepted ++ [⟨l.point, residuals⟩]) (.ends (t.run l))) :
    Accepts t l accepted

/-- A run that halts has accounted for the steps that it accepted. -/
theorem run_accounted {halt : Halt α} (hhalt : (t.run l).result = .ok halt) :
    ∃ accepted, t.Accepts l accepted ∧
      (t.run l).remains.Accounted (max t.budget 2) accepted.length ∧
      halt.Accounted (t.run l).remains.evaluations (max t.budget 2) accepted.length := by
  rcases t.run_cases l with
    ⟨_, -, run⟩ | ⟨abort, _, answer, run⟩ | ⟨_, -, -, run⟩ | ⟨residuals, first, -⟩
  · rw [run] at hhalt
    cases hhalt
  · rw [run] at hhalt ⊢
    cases hhalt
    refine ⟨[], .aborted answer, ⟨⟨rfl, rfl⟩, ?_, le_rfl, zero_le_one, zero_le_one⟩, rfl, ?_⟩
    · exact one_le_two.trans (le_max_right _ _)
    · exact fun h => nomatch h
  · rw [run] at hhalt
    cases hhalt
  · obtain ⟨accepted, h⟩ := reaches_run first
    obtain ⟨count, hlength, hremains, hends⟩ := h.accounted
    obtain rfl : accepted.length = count := by simpa using hlength
    exact ⟨accepted, .ended first h, hremains, hends halt hhalt⟩

end Task

/-- What a report says of the effort, for a run that made the calls of a history and accepted some
steps. -/
structure Report.Accounts (report : Report α) (h : History α) (limit accepted : Nat) : Prop where
  evaluations_eq : report.evaluations = h.residualCalls
  jacobianEvaluations_eq : report.jacobianEvaluations = h.jacobianCalls
  iterations_eq : report.iterations = accepted
  evaluations_le : report.evaluations ≤ limit
  evaluations_of_budgetExhausted :
    report.termination = .budgetExhausted → report.evaluations = limit
  iterations_le : report.iterations ≤ report.jacobianEvaluations
  jacobianEvaluations_le : report.jacobianEvaluations ≤ report.iterations + 1
  jacobianEvaluations_le_evaluations : report.jacobianEvaluations ≤ report.evaluations

theorem Remains.closed_accounts [Scalar α] {r : Remains α σ} {halt : Halt α} {limit accepted : Nat}
    (h : r.Accounted limit accepted) (hhalt : halt.Accounted r.evaluations limit accepted) :
    ∃ report, (r.closed halt).result = .ok report ∧
      report.Accounts (r.closed halt).history limit accepted := by
  have counts := h.counts.log (r.report halt).closingLog
  refine ⟨r.report halt, rfl, ?_⟩
  exact {
    evaluations_eq := counts.residualCalls_eq.symm
    jacobianEvaluations_eq := counts.jacobianCalls_eq.symm
    iterations_eq := hhalt.accepted_eq
    evaluations_le := h.evaluations_le
    evaluations_of_budgetExhausted := hhalt.evaluations_eq
    iterations_le := hhalt.accepted_eq.trans_le h.accepted_le
    jacobianEvaluations_le := h.jacobians_le.trans_eq (congrArg (· + 1) hhalt.accepted_eq.symm)
    jacobianEvaluations_le_evaluations := h.jacobians_le_evaluations }

namespace Settings

/-- Whatever the arithmetic gives, a run ends with a report that counts its calls and its accepted
steps. It evaluates the residuals no more often than its budget allows, except for a first trial,
and exactly as often if the budget ends it. -/
theorem run_accounts_for_effort [Scalar α] (s : Settings α) (problem : Problem α σ) (state : σ)
    (x : Array α) (workspace : Workspace α) {k k' : Nat} (fits : workspace.Fits k k')
    (valid : s.error? problem.residualCount x.size = none)
    (keeps : problem.KeepsDimensions problem.residualCount x.size) :
    let t := s.task problem x.size valid
    let out := s.minimizeWith problem state x workspace
    ∃ l accepted report, launch? state x workspace = some l ∧ t.Accepts l accepted ∧
      out.result = .ok report ∧
      report.Accounts out.history (max (s.budget x.size) 2) accepted.length := by
  intro t out
  obtain ⟨l, halt, left, launched, hhalt, hleft, closed⟩ := exists_closed fits valid keeps
  obtain ⟨accepted, accepts, accounted, hstop⟩ := Task.run_accounted hhalt
  have hout : out = left.closed halt := closed
  have reached : left.Accounted (max t.budget 2) accepted.length ∧
      left.evaluations = (t.run l).remains.evaluations := by
    rcases hleft with rfl | ⟨reply, rfl⟩
    · exact ⟨accounted, rfl⟩
    · refine ⟨⟨accounted.counts.push_report _ _ _, ?_, ?_, ?_, ?_⟩, rfl⟩
      · exact accounted.evaluations_le
      · exact accounted.accepted_le
      · exact accounted.jacobians_le
      · exact accounted.jacobians_le_evaluations
  obtain ⟨report, hresult, accounts⟩ :=
    Remains.closed_accounts reached.1 (reached.2 ▸ hstop)
  refine ⟨l, accepted, report, launched, accepts, ?_, ?_⟩
  · rw [hout]
    exact hresult
  · rw [hout]
    exact accounts

/-- In the valley of Rosenbrock from the origin. -/
theorem rosenbrock_accounts_for_effort :
    let s : Settings ℝ := .standard
    let t := s.task Problems.rosenbrock 2 (error?_standard two_pos le_rfl)
    let out := s.minimizeWith Problems.rosenbrock () #[0, 0] (.zeros 2 2)
    ∃ l accepted report, launch? () #[0, 0] (.zeros 2 2) = some l ∧ t.Accepts l accepted ∧
      out.result = .ok report ∧ report.Accounts out.history 300 accepted.length :=
  run_accounts_for_effort Settings.standard Problems.rosenbrock () #[(0 : ℝ), 0] (.zeros 2 2)
    (Workspace.fits_zeros 2 2) (error?_standard two_pos le_rfl) Problems.rosenbrock_keepsDimensions

end Settings

end LeastSquares
