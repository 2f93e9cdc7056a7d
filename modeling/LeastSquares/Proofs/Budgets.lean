import LeastSquares.Proofs.Calls
import LeastSquares.Proofs.Noninterference

namespace LeastSquares

variable {α σ : Type} {m n : Nat}

namespace TrustRegion

variable [Arith α]

/-- A budget that is not used up yet changes the limit only if that was the budget. -/
theorem limit_relaxed (s : TrustRegion α) (t : Trial α) (current : α) {exhausted : Bool}
    (h : exhausted = true → t.budgetExhausted = true) :
    s.limit { t with budgetExhausted := exhausted } current = s.limit t current ∨
      s.limit t current = some .budgetExhausted := by
  unfold limit
  split
  · exact Or.inl rfl
  · split
    · exact Or.inl rfl
    · by_cases within : reductionWithin Arith.epsilon t current = true
      · exact Or.inl ((if_pos within).trans (if_pos within).symm)
      · rw [if_neg within]
        cases used : t.budgetExhausted with
        | true => exact Or.inr rfl
        | false =>
          have unused : exhausted = false := by
            rw [Bool.eq_false_iff]
            exact fun e => Bool.false_ne_true (used.symm.trans (h e))
          refine Or.inl ((if_neg within).trans ?_)
          rw [unused]

/-- A budget that is not used up yet changes nothing in a judgement but a termination by the
budget. -/
theorem judge_relaxed (criteria : Criteria α) (s : TrustRegion α) (t : Trial α) {exhausted : Bool}
    (h : exhausted = true → t.budgetExhausted = true) :
    let relaxed := s.judge criteria { t with budgetExhausted := exhausted }
    s.judge criteria t = relaxed ∨
      s.judge criteria t = (relaxed.1, ⟨relaxed.2.accepted, some .budgetExhausted⟩) := by
  intro relaxed
  have judged : s.judge criteria t =
    (relaxed.1, ⟨relaxed.2.accepted, (s.judge criteria t).2.termination⟩) := rfl
  let next := (s.judge criteria t).1
  have termination : (s.judge criteria t).2.termination = relaxed.2.termination ∨
      (s.judge criteria t).2.termination = some .budgetExhausted := by
    change (next.convergence criteria t s.residualNorm).or (next.limit t s.residualNorm) =
        (next.convergence criteria t s.residualNorm).or
          (next.limit { t with budgetExhausted := exhausted } s.residualNorm) ∨
      (next.convergence criteria t s.residualNorm).or (next.limit t s.residualNorm) =
        some .budgetExhausted
    cases next.convergence criteria t s.residualNorm with
    | some => exact Or.inl rfl
    | none => exact (next.limit_relaxed t s.residualNorm h).imp Eq.symm id
  exact termination.imp (fun e => judged.trans (by rw [e])) fun e => judged.trans (by rw [e])

end TrustRegion

def Task.withBudget (t : Task α σ m n) (budget : Nat) : Task α σ m n :=
  { t with budget }

variable [Scalar α]

/-- Whether a step does the same as another one, or makes the same calls and uses up the budget. -/
inductive Advance.Truncates : Advance α σ m n → Advance α σ m n → Prop
  | same (a : Advance α σ m n) : Truncates a a
  | exhausted (a : Advance α σ m n) (trust : Option (TrustRegion α)) :
    Truncates (.ends ⟨.ok ⟨.budgetExhausted, trust⟩, a.remains⟩) a

namespace Run

variable {t : Task α σ m n} {r : Run α σ m n} {budget : Nat}

/-- What a judgement leaves depends on whether the trial is accepted, not on whether the run
ends. -/
theorem remains_judge (factor : Triangular α m n) (trust : TrustRegion α) (damping : α)
    (residuals : Vec α m) :
    let judged := r.judgement t trust damping residuals
    (r.judge t factor trust damping residuals).remains =
      (if judged.2.accepted then r.moved residuals else r.stayed residuals judged.1).remains := by
  intro judged
  rcases r.judge_cases t factor trust damping residuals with
    ⟨accepted, ⟨_, -, step⟩ | ⟨-, step⟩⟩ | ⟨rejected, ⟨_, -, step⟩ | ⟨-, step⟩⟩ <;> rw [step]
  · rw [if_pos accepted]
    rfl
  · rw [if_pos accepted]
    rfl
  · rw [if_neg (Bool.eq_false_iff.mp rejected)]
    rfl
  · rw [if_neg (Bool.eq_false_iff.mp rejected)]
    rfl

theorem judge_truncates (h : t.budget ≤ budget) (factor : Triangular α m n)
    (trust : TrustRegion α) (damping : α) (residuals : Vec α m) :
    (r.judge t factor trust damping residuals).Truncates
      (r.judge (t.withBudget budget) factor trust damping residuals) := by
  have used : decide (budget ≤ r.evaluations) = true →
      (r.trial t damping (norm residuals)).budgetExhausted = true := by
    intro e
    exact decide_eq_true (h.trans (of_decide_eq_true e))
  rcases trust.judge_relaxed t.criteria (r.trial t damping (norm residuals)) used with
    judged | judged
  · have same : r.judgement t trust damping residuals =
        r.judgement (t.withBudget budget) trust damping residuals := judged
    unfold judge
    rw [same]
    exact .same _
  · let relaxed := r.judgement (t.withBudget budget) trust damping residuals
    have exhausted : r.judgement t trust damping residuals =
        (relaxed.1, ⟨relaxed.2.accepted, some .budgetExhausted⟩) := judged
    have ended : r.judge t factor trust damping residuals =
        (if relaxed.2.accepted then r.moved residuals
          else r.stayed residuals relaxed.1).halt .budgetExhausted (some relaxed.1) := by
      unfold judge
      rw [exhausted]
    rw [ended, halt, ← remains_judge factor]
    exact .exhausted _ _

theorem attempt_truncates (h : t.budget ≤ budget) (factor : Triangular α m n)
    (trust : TrustRegion α) :
    (r.attempt t factor trust).Truncates (r.attempt (t.withBudget budget) factor trust) := by
  have hsearch : r.search (t.withBudget budget) factor trust = r.search t factor trust := rfl
  unfold attempt
  dsimp only
  rw [hsearch]
  generalize r.search t factor trust = found
  have hreply : (r.proposed found).trialReply (t.withBudget budget) =
      (r.proposed found).trialReply t := rfl
  rw [hreply]
  generalize (r.proposed found).trialReply t = reply
  cases reply.answer with
  | faulted | aborted => exact .same _
  | done written =>
    dsimp only
    split
    · exact .same _
    · exact judge_truncates h _ _ _ _

/-- A step depends on the budget only if it uses it up. -/
theorem advance_truncates (h : t.budget ≤ budget) (phase : Phase α m n) :
    (r.advance t phase).Truncates (r.advance (t.withBudget budget) phase) := by
  cases phase with
  | linearize => exact .same _
  | attempt factor trust => exact attempt_truncates h factor trust

/-- A run with a smaller budget ends like one with a larger budget, or the budget is used up and it
has made the first calls of that run. -/
theorem complete_truncates (h : t.budget ≤ budget) (phase : Phase α m n) :
    r.complete (t.withBudget budget) phase = r.complete t phase ∨
      ∃ trust, (r.complete t phase).result = .ok ⟨.budgetExhausted, trust⟩ ∧
        (r.complete t phase).remains.history.calls.toList <+:
          (r.complete (t.withBudget budget) phase).remains.history.calls.toList := by
  fun_induction Run.complete t r phase with
  | case1 r phase f step =>
    have truncates := advance_truncates (r := r) h phase
    rw [step] at truncates
    generalize step' : r.advance (t.withBudget budget) phase = a at truncates
    cases truncates with
    | same => exact Or.inl (complete_of_ends step')
    | exhausted _ trust =>
      refine Or.inr ⟨trust, rfl, ?_⟩
      rw [← step']
      exact calls_advance_prefix_complete _ r phase
  | case2 r phase r' next step _ ih =>
    have truncates := advance_truncates (r := r) h phase
    rw [step] at truncates
    generalize step' : r.advance (t.withBudget budget) phase = a at truncates
    cases truncates with
    | same =>
      rw [complete_of_continues step']
      exact ih

end Run

theorem Task.run_truncates {t : Task α σ m n} {budget : Nat} (h : t.budget ≤ budget)
    (l : Launch α σ m n) :
    (t.withBudget budget).run l = t.run l ∨
      ∃ trust, (t.run l).result = .ok ⟨.budgetExhausted, trust⟩ ∧
        (t.run l).remains.history.calls.toList <+:
          ((t.withBudget budget).run l).remains.history.calls.toList := by
  have hreply : l.reply (t.withBudget budget) = l.reply t := rfl
  unfold run
  rw [hreply]
  cases (l.reply t).answer with
  | faulted | aborted => exact Or.inl rfl
  | done written =>
    dsimp only
    cases Vec.ofArray? m written with
    | none => exact Or.inl rfl
    | some residuals => exact Run.complete_truncates h (.first residuals)

namespace Settings

theorem error?_standard_withBudget {budget : Nat} (h : budget ≠ 0) :
    { (Settings.standard : Settings ℝ) with maxEvaluations := some budget }.error? 2 2 = none := by
  have unlimited : (Settings.standard : Settings ℝ).error? 2 2 = none :=
    error?_standard two_pos le_rfl
  unfold error? at unlimited ⊢
  rw [if_neg (show some budget ≠ some 0 by simpa using h)]
  exact unlimited

/-- Among runs without reports that differ in their budgets, the one with the smaller budget makes
the first calls of the other one, with the same arguments. Unless it uses up its budget, it makes
all of them and has the same outcome. -/
theorem budget_only_truncates (s : Settings α) (problem : Problem α σ) (state : σ) (x : Array α)
    {workspace : Workspace α} {k k' : Nat} (maxEvaluations : Option Nat)
    (valid : s.error? problem.residualCount x.size = none)
    (valid' : { s with maxEvaluations }.error? problem.residualCount x.size = none)
    (le : s.budget x.size ≤ { s with maxEvaluations }.budget x.size) (quiet : s.reportEvery = 0)
    (fits : workspace.Fits k k') (keeps : problem.KeepsDimensions problem.residualCount x.size) :
    let out := s.minimizeWith problem state x workspace
    let out' := { s with maxEvaluations }.minimizeWith problem state x workspace
    ∃ report report', out.result = .ok report ∧ out'.result = .ok report' ∧
      out.history.calls.toList <+: out'.history.calls.toList ∧
      (report.termination ≠ .budgetExhausted → out' = out) := by
  intro out out'
  obtain ⟨l, launched, -⟩ := exists_launch? fits.coherent problem.residualCount state x
  obtain ⟨-, -, hresiduals, htrial⟩ := launch?_eq_some launched
  have prepared := fits.prepared problem.residualCount x.size
  let t := s.task problem x.size valid
  let t' := { s with maxEvaluations }.task problem x.size valid'
  obtain ⟨halt, hhalt⟩ := t.run_ok keeps (hresiduals ▸ prepared.residuals)
    (htrial ▸ prepared.trialResiduals)
  obtain ⟨halt', hhalt'⟩ := t'.run_ok keeps (hresiduals ▸ prepared.residuals)
    (htrial ▸ prepared.trialResiduals)
  have hout : out = (t.run l).remains.closed halt := by
    rw [← Finished.close_of_quiet hhalt problem, ← quiet]
    exact minimizeWith_eq_close valid launched
  have hout' : out' = (t'.run l).remains.closed halt' := by
    rw [← Finished.close_of_quiet hhalt' problem, ← quiet]
    exact minimizeWith_eq_close valid' launched
  refine ⟨_, _, congrArg Outcome.result hout, congrArg Outcome.result hout', ?_⟩
  rw [hout, hout', Finished.calls_closed, Finished.calls_closed]
  rcases t.run_truncates le l with same | ⟨trust, exhausted, calls⟩
  · change t'.run l = t.run l at same
    rw [same, hhalt] at hhalt'
    cases hhalt'
    rw [same]
    exact ⟨List.prefix_refl _, fun _ => rfl⟩
  · rw [hhalt] at exhausted
    cases exhausted
    exact ⟨calls, fun other => absurd rfl other⟩

/-- Two evaluations in the valley of Rosenbrock and three hundred of them. -/
theorem rosenbrock_budget_only_truncates :
    let s : Settings ℝ := { Settings.standard with maxEvaluations := some 2 }
    let s' : Settings ℝ := { s with maxEvaluations := some 300 }
    let out := s.minimizeWith Problems.rosenbrock () #[0, 0] (.zeros 2 2)
    let out' := s'.minimizeWith Problems.rosenbrock () #[0, 0] (.zeros 2 2)
    s.error? 2 2 = none ∧ s'.error? 2 2 = none ∧
      ∃ report report', out.result = .ok report ∧ out'.result = .ok report' ∧
        out.history.calls.toList <+: out'.history.calls.toList ∧
        (report.termination ≠ .budgetExhausted → out' = out) := by
  intro s s' out out'
  have valid : s.error? 2 2 = none := error?_standard_withBudget (by decide)
  have valid' : s'.error? 2 2 = none := error?_standard_withBudget (by decide)
  refine ⟨valid, valid', ?_⟩
  exact budget_only_truncates s Problems.rosenbrock () #[0, 0] (some 300) valid valid'
    (by decide) rfl (Workspace.fits_zeros 2 2) Problems.rosenbrock_keepsDimensions

end Settings

end LeastSquares
