import LeastSquares.Proofs.Rejections

namespace LeastSquares

namespace Trial

variable {t : Trial ℝ} {current : ℝ}

/-- A trial predicts no reduction exactly if the linear model sees none and the damping has no
share. -/
theorem predictedReduction_eq_zero_iff (hcurrent : 0 < current) (ht : t.Nonneg) :
    t.predictedReduction current = 0 ↔ t.linearNorm = 0 ∧ (t.damping = 0 ∨ t.stepNorm = 0) := by
  have hlinear : t.linearShare current = 0 ↔ t.linearNorm = 0 := by
    rw [linearShare, div_eq_zero_iff, or_iff_left hcurrent.ne']
  have hdamping : t.dampingShare current = 0 ↔ t.damping = 0 ∨ t.stepNorm = 0 := by
    rw [dampingShare, div_eq_zero_iff, or_iff_left hcurrent.ne', mul_eq_zero, Arith.sqrt_real,
      Real.sqrt_eq_zero ht.damping]
  have hhalf : (0.5 : ℝ) ≠ 0 := by norm_num
  rw [predictedReduction,
    add_eq_zero_iff_of_nonneg (mul_self_nonneg _) (div_nonneg (mul_self_nonneg _) (by norm_num)),
    mul_self_eq_zero, div_eq_zero_iff, or_iff_left hhalf, mul_self_eq_zero, hlinear, hdamping]

/-- A larger residual norm makes the gain ratio negative, if there is one. -/
theorem gainRatio_of_uphill (hcurrent : 0 < current) (huphill : current < t.residualNorm) :
    (t.predictedReduction current = 0 ∧ t.gainRatio current = 0) ∨
      (t.predictedReduction current ≠ 0 ∧ t.gainRatio current < 0) := by
  by_cases hstill : t.predictedReduction current = 0
  · exact Or.inl ⟨hstill, if_pos (beq_iff_eq.mpr hstill)⟩
  · refine Or.inr ⟨hstill, ?_⟩
    by_contra hratio
    exact not_le.mpr huphill (residualNorm_le_of_gainRatio hcurrent hstill (not_lt.mp hratio))

end Trial

/-- With a threshold that may be zero, the trials that lead uphill are those that predict no
reduction. -/
theorem TrustRegion.accepted_uphill_iff {criteria : Criteria ℝ} {s : TrustRegion ℝ} {t : Trial ℝ}
    (tuning : criteria.tuning.error? = none) (hs : 0 < s.residualNorm)
    (huphill : s.residualNorm < t.residualNorm) :
    (s.observe criteria (.trial t)).2.accepted = true ↔
      criteria.tuning.acceptanceThreshold = 0 ∧ t.predictedReduction s.residualNorm = 0 := by
  obtain ⟨hthreshold, -, -⟩ := Tuning.thresholds_of_error? tuning
  have haccepted : (s.observe criteria (.trial t)).2.accepted = true ↔
      criteria.tuning.acceptanceThreshold ≤ t.gainRatio s.residualNorm := decide_eq_true_iff
  rw [haccepted]
  rcases Trial.gainRatio_of_uphill hs huphill with ⟨hstill, hratio⟩ | ⟨hmoves, hratio⟩
  · rw [hratio, and_iff_left hstill]
    exact ⟨fun h => h.antisymm hthreshold, le_of_eq⟩
  · exact iff_of_false (not_le.mpr (hratio.trans_le hthreshold)) fun h => hmoves h.2

/-- A trial with a larger residual norm is accepted exactly if the acceptance threshold is zero and
the trial predicts no reduction. -/
theorem Criteria.accepts_uphill_iff_nothing_predicted (criteria : Criteria ℝ)
    (tuning : criteria.tuning.error? = none) (s : TrustRegion ℝ) (t : Trial ℝ)
    (residualNorm : 0 < s.residualNorm) (nonneg : t.Nonneg)
    (uphill : s.residualNorm < t.residualNorm) :
    (s.observe criteria (.trial t)).2.accepted = true ↔
      criteria.tuning.acceptanceThreshold = 0 ∧
        t.linearNorm = 0 ∧ (t.damping = 0 ∨ t.stepNorm = 0) := by
  rw [TrustRegion.accepted_uphill_iff tuning residualNorm uphill,
    Trial.predictedReduction_eq_zero_iff residualNorm nonneg]

noncomputable def Criteria.lenient : Criteria ℝ :=
  { (Settings.standard : Settings ℝ).criteria with
    tuning := { Tuning.standard with acceptanceThreshold := 0 } }

theorem Criteria.error?_lenient : lenient.tuning.error? = none := by
  unfold lenient Tuning.error? Tuning.standard
  norm_num

noncomputable def Trial.blind : Trial ℝ :=
  { doubling with linearNorm := 0, damping := 0 }

theorem Trial.blind_nonneg : blind.Nonneg :=
  ⟨doubling_nonneg.residualNorm, doubling_nonneg.stepNorm, le_rfl, le_rfl,
    doubling_nonneg.pointNorm⟩

/-- A trial that doubles the residual norm is accepted if it predicts nothing, and rejected if it
predicts a reduction. -/
theorem Criteria.lenient_accepts_blind_doubling :
    (TrustRegion.ofUnit.observe lenient (.trial .blind)).2.accepted = true ∧
      (TrustRegion.ofUnit.observe lenient (.trial .doubling)).2.accepted = false := by
  constructor
  · rw [accepts_uphill_iff_nothing_predicted lenient error?_lenient .ofUnit .blind one_pos
      Trial.blind_nonneg one_lt_two]
    exact ⟨rfl, rfl, Or.inl rfl⟩
  · rw [← Bool.not_eq_true, accepts_uphill_iff_nothing_predicted lenient error?_lenient .ofUnit
      .doubling one_pos Trial.doubling_nonneg one_lt_two]
    rintro ⟨-, hlinear, -⟩
    exact one_ne_zero hlinear

/-- Constants that pass all checks do not keep a trial from doubling the residual norm. -/
theorem Criteria.valid_tuning_admits_uphill_step :
    let s := TrustRegion.ofUnit
    let t := Trial.blind
    lenient.tuning.error? = none ∧ 0 < s.residualNorm ∧ 0 < s.radius ∧ t.Nonneg ∧
      s.residualNorm < t.residualNorm ∧ (s.observe lenient (.trial t)).2.accepted = true ∧
      (s.observe lenient (.trial t)).1.residualNorm = 2 := by
  intro s t
  have predicted : t.predictedReduction s.residualNorm = 0 :=
    (Trial.predictedReduction_eq_zero_iff one_pos Trial.blind_nonneg).mpr ⟨rfl, Or.inl rfl⟩
  have accepted : (s.observe lenient (.trial t)).2.accepted = true :=
    (TrustRegion.accepted_uphill_iff error?_lenient one_pos one_lt_two).mpr ⟨rfl, predicted⟩
  refine ⟨error?_lenient, one_pos, ?_, Trial.blind_nonneg, one_lt_two, accepted, ?_⟩
  · norm_num [s, TrustRegion.ofUnit]
  · exact (TrustRegion.residualNorm_judge lenient s t).trans (if_pos accepted)

end LeastSquares
