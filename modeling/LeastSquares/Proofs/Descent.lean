import LeastSquares.Proofs.Reports
import LeastSquares.Proofs.ValidSettings

namespace LeastSquares

variable {σ : Type} {m n : Nat}

theorem Settings.zero_le_gradientTolerance {s : Settings ℝ} (h : s.error? m n = none) :
    0 ≤ s.gradientTolerance := by
  obtain ⟨-, -, tolerance⟩ := isTolerance_of_error? h
  simpa [isTolerance] using tolerance

theorem Triangular.gradientNorm_zero (f : Triangular ℝ m n) (projected columnNorms : Vec ℝ n) :
    f.gradientNorm projected columnNorms 0 = 0 :=
  if_pos (beq_self_eq_true 0)

namespace Trial

variable {t : Trial ℝ} {current : ℝ}

theorem zero_le_predictedReduction : 0 ≤ t.predictedReduction current :=
  add_nonneg (mul_self_nonneg _) (div_nonneg (mul_self_nonneg _) (by norm_num))

theorem directionalDerivative_nonpos : t.directionalDerivative current ≤ 0 :=
  neg_nonpos.mpr (add_nonneg (mul_self_nonneg _) (mul_self_nonneg _))

/-- A positive gain ratio means that the residual norm fell. -/
theorem residualNorm_lt_of_gainRatio (hcurrent : 0 < current) (h : 0 < t.gainRatio current) :
    t.residualNorm < current := by
  have hactual : 0 < t.actualReduction current := by
    unfold gainRatio at h
    split at h
    · exact absurd h (lt_irrefl 0)
    · by_contra hle
      exact not_lt.mpr
        (div_nonpos_of_nonpos_of_nonneg (not_lt.mp hle) zero_le_predictedReduction) h
  unfold actualReduction at hactual
  split at hactual
  · have hratio : t.residualNorm / current < 1 := by
      by_contra hge
      have hsquare := one_le_mul_of_one_le_of_one_le (not_lt.mp hge) (not_lt.mp hge)
      linarith
    rwa [div_lt_one hcurrent] at hratio
  · norm_num at hactual

end Trial

/-- With a positive threshold only trials with a smaller residual norm are accepted. -/
theorem TrustRegion.residualNorm_lt_of_accepted {criteria : Criteria ℝ} {s : TrustRegion ℝ}
    {t : Trial ℝ} (threshold : 0 < criteria.tuning.acceptanceThreshold)
    (hs : 0 < s.residualNorm) (h : (s.judge criteria t).2.accepted = true) :
    t.residualNorm < s.residualNorm := by
  have hratio : criteria.tuning.acceptanceThreshold ≤ t.gainRatio s.residualNorm :=
    of_decide_eq_true h
  exact Trial.residualNorm_lt_of_gainRatio hs (threshold.trans_le hratio)

section Run

variable [RealNorm]

namespace Run

variable {t : Task ℝ σ m n} {r r' : Run ℝ σ m n} {trust trust' : TrustRegion ℝ}
  {factor factor' : Triangular ℝ m n}

/-- The gradient test lets no run with vanishing residuals go on. -/
theorem residualNorm_pos_of_factorize {jacobian : Mat ℝ m n} {progress : Progress ℝ}
    (tolerance : 0 ≤ t.criteria.gradientTolerance) (hnorm : 0 ≤ progress.residualNorm)
    (h : r.factorize t jacobian progress = .continues r' (.attempt factor trust)) :
    0 < trust.residualNorm := by
  rcases r.factorize_cases t jacobian progress with ⟨-, step⟩ | ⟨large, step⟩ <;>
    rw [step] at h <;> cases h
  have hresumed := residualNorm_resumed t r (QR.factorize true jacobian).columnNorms progress
  refine lt_of_le_of_ne (hnorm.trans_eq hresumed.symm) ?_
  intro hzero
  apply large
  have hprogress : progress.residualNorm = 0 := hresumed.symm.trans hzero.symm
  change Triangular.gradientNorm _ _ _ (r.resumed t _ progress).1.residualNorm ≤ _
  rw [hresumed, hprogress, Triangular.gradientNorm_zero]
  exact tolerance

end Run

namespace Task.Reaches

variable {t : Task ℝ σ m n} {l : Launch ℝ σ m n} {committed : List (Evaluation ℝ m n)}

/-- Every trial is judged against a positive residual norm. -/
theorem residualNorm_pos {a : Advance ℝ σ m n} (h : t.Reaches l committed a)
    (tolerance : 0 ≤ t.criteria.gradientTolerance) {r : Run ℝ σ m n} {factor : Triangular ℝ m n}
    {trust : TrustRegion ℝ} (ha : a = .continues r (.attempt factor trust)) :
    0 < trust.residualNorm := by
  induction h generalizing r factor trust with
  | start => cases ha
  | @step _ before phase h ih =>
    cases phase with
    | linearize matrix progress =>
      have hnorm : progress.residualNorm = norm before.residuals := h.residualNorm_eq
      obtain ⟨_, _, -, -, hstep⟩ := Run.factorize_of_linearize ha
      exact Run.residualNorm_pos_of_factorize tolerance (hnorm ▸ zero_le_norm _) hstep
    | attempt factor trust =>
      obtain ⟨residuals, hrejected, -, rfl, -⟩ := Run.rejected_of_attempt ha
      have hkept := TrustRegion.residualNorm_judge t.criteria trust
      rw [Run.judgement, TrustRegion.observe] at hrejected ⊢
      rw [hkept, hrejected, if_neg Bool.false_ne_true]
      exact ih rfl

theorem descends {r : Run ℝ σ m n} {phase : Phase ℝ m n} {c : Evaluation ℝ m n}
    (h : t.Reaches l committed (.continues r phase))
    (tolerance : 0 ≤ t.criteria.gradientTolerance)
    (threshold : 0 < t.criteria.tuning.acceptanceThreshold)
    (hc : r.committed? t phase = some c) : norm c.residuals < norm r.residuals := by
  obtain ⟨factor, trust, rfl, -, -, accepted, -⟩ := Run.committed?_eq_some hc
  have hcurrent : trust.residualNorm = norm r.residuals := h.residualNorm_eq
  rw [← hcurrent]
  have hpos : 0 < trust.residualNorm := h.residualNorm_pos tolerance rfl
  exact TrustRegion.residualNorm_lt_of_accepted threshold hpos accepted

/-- The residual norms of the evaluations that a run committed to decrease. -/
theorem pairwise_descends {a : Advance ℝ σ m n} (h : t.Reaches l committed a)
    (tolerance : 0 ≤ t.criteria.gradientTolerance)
    (threshold : 0 < t.criteria.tuning.acceptanceThreshold) :
    committed.Pairwise fun later earlier => norm later.residuals < norm earlier.residuals := by
  refine h.pairwise_of_step (fun first second => first.trans second) ?_
  intro committed r phase c h hc
  exact h.descends tolerance threshold hc

end Task.Reaches

/-- In a run with a positive threshold every accepted step has a smaller residual norm than the one
that it replaces. So the final residual norm is at most the one at the start, and equal to it
exactly if no step was accepted. A problem that keeps its dimensions gets a report that says it. -/
theorem Settings.accepted_steps_descend (s : Settings ℝ) (problem : Problem ℝ σ) (state : σ)
    (x : Array ℝ) (workspace : Workspace ℝ)
    (valid : s.error? problem.residualCount x.size = none)
    (threshold : 0 < s.tuning.acceptanceThreshold) (coherent : workspace.Coherent)
    (residuals : Vec ℝ problem.residualCount)
    (first : (problem.residuals state x
      (workspace.prepared problem.residualCount x.size).residuals).answer =
        .done residuals.toArray) :
    let t := s.task problem x.size valid
    ∃ l, launch? state x workspace = some l ∧
      (∀ committed r phase c, t.Reaches l committed (.continues r phase) →
        r.committed? t phase = some c → norm c.residuals < norm r.residuals) ∧
      (∀ committed a, t.Reaches l committed a → committed.Pairwise
        fun later earlier => norm later.residuals < norm earlier.residuals) ∧
      ∃ accepted, t.Reaches l (accepted ++ [⟨.ofArray x, residuals⟩]) (.ends (t.run l)) ∧
        (∀ report, (s.minimizeWith problem state x workspace).result = .ok report →
          report.residualNorm ≤ norm residuals ∧
          (report.residualNorm = norm residuals ↔ accepted = [])) ∧
        ∀ k k', workspace.Fits k k' →
          problem.KeepsDimensions problem.residualCount x.size →
          ∃ report, (s.minimizeWith problem state x workspace).result = .ok report := by
  intro t
  obtain ⟨l, launched, hpoint, first⟩ := exists_launch?_of_first (t := t) coherent first
  have tolerance := zero_le_gradientTolerance valid
  refine ⟨l, launched, ?_, ?_, ?_⟩
  · intro committed r phase c h
    exact h.descends tolerance threshold
  · intro committed a h
    exact h.pairwise_descends tolerance threshold
  · obtain ⟨accepted, h⟩ := Task.reaches_run first
    rw [hpoint] at h
    refine ⟨accepted, h, ?_, fun k k' fits keeps => exists_report fits valid keeps⟩
    intro report hreport
    rw [minimizeWith_eq_close valid launched] at hreport
    obtain ⟨c, earlier, heq, hat⟩ := h.at_head
    have hdescends := h.pairwise_descends tolerance threshold
    rw [((Finished.close_endsAt hat problem s.reportEvery).report_eq report hreport).2]
    cases accepted with
    | nil =>
      cases heq
      exact ⟨le_rfl, iff_of_true rfl rfl⟩
    | cons c' accepted =>
      obtain ⟨rfl, -⟩ := List.cons.inj heq
      have hlt : norm c'.residuals < norm residuals :=
        (List.pairwise_cons.mp hdescends).1 ⟨.ofArray x, residuals⟩
          (List.mem_append_right _ (List.mem_singleton_self _))
      exact ⟨hlt.le, iff_of_false hlt.ne (List.cons_ne_nil _ _)⟩

end Run

/-- In the valley of Rosenbrock from the origin, with the norm that the library computes. -/
theorem Settings.rosenbrock_steps_descend :
    letI := RealNorm.banded
    let s : Settings ℝ := .standard
    let residuals : Vec ℝ 2 := ⟨#v[10.0 * (0 - 0 * 0), 1 - 0]⟩
    ∃ l accepted report, launch? () #[0, 0] (.zeros 2 2) = some l ∧
      let t := s.task Problems.rosenbrock 2 (error?_standard two_pos le_rfl)
      t.Reaches l (accepted ++ [⟨.ofArray #[0, 0], residuals⟩]) (.ends (t.run l)) ∧
        (s.minimizeWith Problems.rosenbrock () #[0, 0] (.zeros 2 2)).result = .ok report ∧
          report.residualNorm ≤ norm residuals ∧
          (report.residualNorm = norm residuals ↔ accepted = []) := by
  intro s residuals
  have threshold : (0 : ℝ) < s.tuning.acceptanceThreshold := by
    norm_num [s, Settings.standard, Tuning.standard]
  obtain ⟨l, launched, -, -, accepted, reached, descends, reports⟩ :=
    @accepted_steps_descend Unit RealNorm.banded s Problems.rosenbrock () #[0, 0] (.zeros 2 2)
      (error?_standard two_pos le_rfl) threshold (Workspace.coherent_zeros 2 2) residuals rfl
  obtain ⟨report, reported⟩ := reports 2 2 (Workspace.fits_zeros 2 2)
    Problems.rosenbrock_keepsDimensions
  exact ⟨l, accepted, report, launched, reached, reported, descends report reported⟩

end LeastSquares
