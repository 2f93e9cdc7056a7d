import LeastSquares.Problems.Classic
import LeastSquares.Proofs.Pivoting
import LeastSquares.Proofs.Predictions
import Mathlib.LinearAlgebra.Matrix.DotProduct

namespace LeastSquares

open Matrix

variable {σ : Type} {k m n : Nat}

theorem of_firstIndex_lt {p : Fin n → Bool} (h : firstIndex p < n) :
    p ⟨firstIndex p, h⟩ = true := by
  have hlength : (List.finRange n).findIdx p < (List.finRange n).length := by
    rwa [List.length_finRange]
  have := List.findIdx_getElem (w := hlength)
  simpa [firstIndex] using this

/-- With fewer indices that have the property, the first one comes later. -/
theorem firstIndex_mono {p p' : Fin n → Bool} (h : ∀ i, p' i = true → p i = true) :
    firstIndex p ≤ firstIndex p' := by
  by_contra hlt
  have hlt' := not_le.mp hlt
  have hp' := of_firstIndex_lt (hlt'.trans_le (firstIndex_le p))
  have hp := not_of_lt_firstIndex (p := p)
    (i := ⟨firstIndex p', hlt'.trans_le (firstIndex_le p)⟩) hlt'
  rw [h _ hp'] at hp
  cases hp

namespace Triangular

/-- Whether the residuals are not orthogonal to all columns before the first diagonal element of `R`
that counts as zero. -/
def SeesGradient (f : Triangular ℝ m n) (a : Matrix (Fin k) (Fin n) ℝ) (b : Fin k → ℝ) : Prop :=
  ∃ c : Fin n, c < f.rank ∧ a.col (f.permutation c) ⬝ᵥ b ≠ 0

variable {f : Triangular ℝ m n} {scaling q step : Vec ℝ n} {damping : ℝ}
  {a : Matrix (Fin k) (Fin n) ℝ} {b : Fin k → ℝ}

theorem r_ne_zero_of_lt_rank {j : Fin n} (h : j < f.rank) : f.r.toMatrix j j ≠ 0 := by
  rw [f.r_apply le_rfl]
  exact ne_zero_of_lt_rank h

/-- The slope of the linear model along a step is the squared length of what the triangle makes of
it. -/
theorem slope_eq {s : Matrix (Fin n) (Fin n) ℝ} {w r z : Fin n → ℝ} {rank : Nat}
    (hm : f.Models q a b) (hd : Damps f.r.toMatrix w q.get s r) (hz : SolvesLeading s rank r z)
    (hstep : f.permute step.get = -z) :
    b ⬝ᵥ (a *ᵥ step.get) = -((s *ᵥ z) ⬝ᵥ (s *ᵥ z)) := by
  have hmove (t : Matrix (Fin n) (Fin n) ℝ) (v : Fin n → ℝ) : (t *ᵥ z) ⬝ᵥ v = z ⬝ᵥ (tᵀ *ᵥ v) := by
    rw [dotProduct_mulVec, vecMul_transpose]
  calc b ⬝ᵥ (a *ᵥ step.get) = (f.r.toMatrix *ᵥ f.permute step.get) ⬝ᵥ q.get := by
        rw [hm.change_dot, dotProduct_comm]
    _ = -(z ⬝ᵥ (f.r.toMatrixᵀ *ᵥ q.get)) := by rw [hstep, mulVec_neg, neg_dotProduct, hmove]
    _ = -((s *ᵥ z) ⬝ᵥ r) := by rw [← hd.gradient, ← hmove]
    _ = -((s *ᵥ z) ⬝ᵥ (s *ᵥ z)) := by rw [hz.dot hd.upper]

theorem IsStep.slope_neg (h : f.IsStep scaling q damping step) (hm : f.Models q a b)
    (hsees : f.SeesGradient a b) : b ⬝ᵥ (a *ᵥ step.get) < 0 := by
  obtain ⟨s, r, z, hd, hz, hstep⟩ := h
  rw [slope_eq hm hd hz hstep, neg_lt_zero, ← length_sq]
  refine pow_pos (length_pos.mpr fun hchange => ?_) 2
  obtain ⟨c, hc, hne⟩ := hsees
  have hrank : f.rank ≤ firstIndex fun j => negligible (s j j) := by
    refine firstIndex_mono fun j hj => ?_
    rw [← Bool.not_eq_false, negligible_eq_false] at hj ⊢
    intro hlarge
    rw [← f.r_apply le_rfl] at hlarge
    exact hj (hlarge.trans_le (hd.diagonal j))
  have hr : ∀ i : Fin n, i < f.rank → r i = 0 := by
    intro i hi
    rw [← hz.solves i (hi.trans_le hrank), hchange, Pi.zero_apply]
  apply hne
  have hgradient := congrFun hd.gradient c
  change s.col c ⬝ᵥ r = f.r.toMatrix.col c ⬝ᵥ q.get at hgradient
  rw [hm.gradient, ← hgradient]
  refine Finset.sum_eq_zero fun i _ => ?_
  by_cases hi : i ≤ c
  · rw [hr i ((Fin.le_def.mp hi).trans_lt hc), mul_zero]
  · rw [col_apply, hd.upper i c (not_le.mp hi), zero_mul]

theorem ne_zero_of_lt_firstIndex {d : Fin n → ℝ} {j : Fin n}
    (h : j < firstIndex fun j => negligible (d j)) : d j ≠ 0 := by
  have hlarge := negligible_eq_false.mp (not_of_lt_firstIndex h)
  exact abs_pos.mp (Arith.epsilon_pos.trans hlarge)

/-- A step without a slope is zero: the leading block that it solves is regular. -/
theorem IsStep.eq_zero_of_slope (h : f.IsStep scaling q damping step) (hm : f.Models q a b)
    (hslope : b ⬝ᵥ (a *ᵥ step.get) = 0) : step.get = 0 := by
  obtain ⟨s, r, z, hd, hz, hstep⟩ := h
  rw [slope_eq hm hd hz hstep, neg_eq_zero] at hslope
  have hchange : s *ᵥ z = 0 := dotProduct_self_eq_zero.mp hslope
  have hzero : z = 0 := by
    refine hz.eq_zero hd.upper (fun j => ne_zero_of_lt_firstIndex) fun i hi => ?_
    rw [← hz.solves i hi, hchange, Pi.zero_apply]
  funext i
  obtain ⟨c, rfl⟩ := (Finite.injective_iff_bijective.mp hm.injective).surjective i
  have hc := congrFun hstep c
  rwa [hzero, neg_zero] at hc

/-- Without a gradient in the leading columns, nothing is left to be solved for. -/
theorem leading_eq_zero (hm : f.Models q a b) (h : ¬f.SeesGradient a b) (i : Fin n)
    (hi : i < f.rank) : q i = 0 := by
  refine f.isUpper_r.eq_zero_of_dot (fun j => r_ne_zero_of_lt_rank) (fun c hc => ?_) i hi
  rw [← hm.gradient]
  by_contra hne
  exact h ⟨c, hc, hne⟩

/-- Behind a diagonal element that counts as zero at the very front, nothing is seen. -/
theorem not_seesGradient (h : ∀ j, |f.r j j| ≤ Arith.epsilon) : ¬f.SeesGradient a b := by
  rintro ⟨c, hc, -⟩
  have hlarge := negligible_eq_false.mp (not_of_lt_firstIndex hc)
  rw [← f.r_apply le_rfl] at hlarge
  exact not_lt.mpr (h c) hlarge

theorem solveLeading_eq_zero (hm : f.Models q a b) (h : ¬f.SeesGradient a b) :
    (f.solveLeading q).get = 0 :=
  (f.solveLeading_solves q).eq_zero f.isUpper_r (fun _ => r_ne_zero_of_lt_rank)
    (leading_eq_zero hm h)

/-- If only exact zeros count as zero on the diagonal of `R`, the columns behind them add nothing.
-/
theorem RevealsRank.seesGradient (hrank : f.RevealsRank) (hm : f.Models q a b)
    (exact : ∀ j, |f.r j j| ≤ Arith.epsilon → f.r j j = 0) {c : Fin n}
    (hc : a.col (f.permutation c) ⬝ᵥ b ≠ 0) : f.SeesGradient a b := by
  by_contra hblind
  apply hc
  rw [hm.gradient]
  refine Finset.sum_eq_zero fun i _ => ?_
  by_cases hi : i < f.rank
  · exact mul_eq_zero_of_right _ (leading_eq_zero hm hblind i hi)
  · have hle : f.rank ≤ i := not_lt.mp hi
    have hnegligible := of_firstIndex_lt (hle.trans_lt i.isLt)
    rw [← Bool.not_eq_false, negligible_eq_false, not_lt, ← f.r_apply le_rfl] at hnegligible
    exact mul_eq_zero_of_left (hrank _ (exact _ hnegligible) i c hle) _

/-- A positive gradient comes from a column that is not orthogonal to the residuals. -/
theorem exists_column_of_gradientNorm {columnNorms : Vec ℝ n} {residualNorm : ℝ}
    (hm : f.Models q a b) (h : 0 < f.gradientNorm q columnNorms residualNorm) :
    ∃ c, a.col (f.permutation c) ⬝ᵥ b ≠ 0 := by
  have hresidual : residualNorm ≠ 0 := by
    rintro rfl
    simp [gradientNorm] at h
  obtain ⟨j, hj⟩ : ∃ j, a.col j ⬝ᵥ b ≠ 0 := by
    by_contra hnone
    push Not at hnone
    refine h.not_ge ((gradientNorm_le_iff hm hresidual 0).mpr ⟨le_rfl, fun j _ => ?_⟩)
    simp [hnone j]
  obtain ⟨c, rfl⟩ := (Finite.injective_iff_bijective.mp hm.injective).surjective j
  exact ⟨c, hj⟩

end Triangular

structure SearchOutcome.FollowsGradient (out : SearchOutcome ℝ m n) (f : Triangular ℝ m n)
    (a : Matrix (Fin k) (Fin n) ℝ) (b : Fin k → ℝ) : Prop where
  slope_neg : f.SeesGradient a b → b ⬝ᵥ (a *ᵥ out.step.get) < 0
  step_eq_zero : ¬f.SeesGradient a b → out.step.get = 0

namespace Subproblem

variable {f : Triangular ℝ m n} {p : Subproblem ℝ n} {a : Matrix (Fin k) (Fin n) ℝ}
  {b : Fin k → ℝ} {estimate : ℝ} {oldStep : Vec ℝ n} {buffers : SearchBuffers ℝ n}

theorem search_slope_neg (hm : f.Models p.projected a b) (h : f.SeesGradient a b) :
    b ⬝ᵥ (a *ᵥ (p.search f estimate oldStep buffers).step.get) < 0 := by
  have hsound : (p.search f estimate oldStep buffers).IsSound f p := search_isSound hm.injective
  exact hsound.isStep.slope_neg hm h

/-- Without a gradient that the factor sees, the undamped solution is zero. -/
theorem undamped_eq_zero (hm : f.Models p.projected a b) (h : ¬f.SeesGradient a b)
    (oldStep : Vec ℝ n) : (p.undamped f oldStep).get = 0 := by
  refine hm.permute_injective ?_
  rw [permute_undamped hm.injective, Triangular.solveLeading_eq_zero hm h]
  rfl

/-- The step is zero too then, because it lies in every trust region. -/
theorem search_step_eq_zero (hm : f.Models p.projected a b) (h : ¬f.SeesGradient a b)
    (radius : 0 < p.radius) (tolerance : 0 < p.tuning.searchTolerance) :
    (p.search f estimate oldStep buffers).step.get = 0 := by
  have hzero := undamped_eq_zero hm h oldStep
  have hinside : norm (p.scaled (p.undamped f oldStep)) - p.radius ≤
      p.tuning.searchTolerance * p.radius := by
    rw [norm_eq_length, get_scaled, hzero, scale_zero, length_zero, zero_sub]
    exact (neg_neg_of_pos radius).le.trans (mul_pos tolerance radius).le
  have hsearch : p.search f estimate oldStep buffers = _ := if_pos hinside
  rw [hsearch]
  change ((p.undamped f oldStep).map (-·)).get = 0
  rw [Vec.get_neg, hzero, neg_zero]

theorem search_followsGradient (hm : f.Models p.projected a b) (radius : 0 < p.radius)
    (tolerance : 0 < p.tuning.searchTolerance) :
    (p.search f estimate oldStep buffers).FollowsGradient f a b :=
  ⟨search_slope_neg hm, fun h => search_step_eq_zero hm h radius tolerance⟩

end Subproblem

theorem Trial.directionalDerivative_eq_zero {t : Trial ℝ} {current : ℝ}
    (h : t.predictedReduction current = 0) : t.directionalDerivative current = 0 := by
  have hlinear := mul_self_nonneg (t.linearShare current)
  have hdamping := mul_self_nonneg (t.dampingShare current)
  have hhalf : t.dampingShare current * t.dampingShare current / 0.5 =
      2 * (t.dampingShare current * t.dampingShare current) := by
    norm_num
    ring
  rw [predictedReduction, hhalf] at h
  rw [directionalDerivative]
  linarith

structure Run.HasSlope (r : Run ℝ σ m n) (factor : Triangular ℝ m n) (a : Mat ℝ m n) : Prop where
  linearized : r.Linearized factor a
  revealsRank : factor.RevealsRank
  exists_column : ∃ c, a.toMatrix.col (factor.permutation c) ⬝ᵥ r.residuals.get ≠ 0

namespace Run

variable {t : Task ℝ σ m n} {r r' : Run ℝ σ m n} {factor factor' : Triangular ℝ m n}
  {trust trust' : TrustRegion ℝ} {a : Mat ℝ m n}

/-- The gradient test lets a run go on only if some column is not orthogonal to the residuals. -/
theorem hasSlope_of_factorize (tolerance : 0 ≤ t.criteria.gradientTolerance) {told : Run ℝ σ m n}
    {progress : Progress ℝ} (hlast : told.history.lastJacobian? = some ⟨m, n, a⟩)
    (h : told.factorize t a progress = .continues r (.attempt factor trust)) :
    r.HasSlope factor a := by
  have hlinearized := linearized_of_factorize hlast h
  rcases told.factorize_cases t a progress with ⟨-, step⟩ | ⟨large, step⟩ <;> rw [step] at h <;>
    cases h
  refine ⟨hlinearized, QR.revealsRank_factorize a t.size_le, ?_⟩
  exact Triangular.exists_column_of_gradientNorm hlinearized.2
    (tolerance.trans_lt (not_le.mp large))

/-- A trial that predicts no reduction does not move. -/
theorem Linearized.step_eq_zero (h : r.Linearized factor a) (hb : 0 < length r.residuals.get)
    (reply : Reply σ (Array ℝ)) (residualNorm : ℝ) :
    let found := r.search t factor trust
    let trial := ((r.proposed found).evaluated reply).trial t found.damping residualNorm
    trial.predictedReduction (length r.residuals.get) = 0 → found.step.get = 0 := by
  intro found trial hpredicted
  have hsound : found.IsSound factor (r.subproblem t trust) :=
    Subproblem.search_isSound h.2.injective
  refine hsound.isStep.eq_zero_of_slope h.2 ?_
  have hslope : trial.directionalDerivative (length r.residuals.get) =
      (r.residuals.get ⬝ᵥ (a.toMatrix *ᵥ found.step.get)) / length r.residuals.get ^ 2 :=
    (h.predictions hb reply residualNorm).2
  rw [Trial.directionalDerivative_eq_zero hpredicted, eq_comm, div_eq_zero_iff] at hslope
  exact hslope.resolve_right (pow_pos hb 2).ne'

theorem factor_of_factorize {told : Run ℝ σ m n} {progress : Progress ℝ}
    (h : told.factorize t a progress = .continues r (.attempt factor trust)) :
    factor = (QR.factorize true a).triangular t.size_le := by
  rcases told.factorize_cases t a progress with ⟨-, step⟩ | ⟨-, step⟩ <;> rw [step] at h <;> cases h
  rfl

theorem HasSlope.of_rejected (h : r.HasSlope factor a)
    (hstep : r.attempt t factor trust = .continues r' (.attempt factor' trust')) :
    r'.HasSlope factor' a := by
  have hlinearized := h.linearized.of_rejected hstep
  obtain ⟨residuals, -, rfl, rfl, rfl⟩ := rejected_of_attempt hstep
  have hsound : (r.search t factor trust).IsSound factor (r.subproblem t trust) :=
    Subproblem.search_isSound h.linearized.2.injective
  refine ⟨hlinearized, ?_, ?_⟩
  · rw [Triangular.RevealsRank, hsound.r_eq]
    exact h.revealsRank
  · rw [hsound.permutation_eq]
    exact h.exists_column

end Run

/-- At every trial some column of the last Jacobian is not orthogonal to the residuals. -/
theorem Task.Reaches.hasSlope {t : Task ℝ σ m n} {l : Launch ℝ σ m n}
    {committed : List (Evaluation ℝ m n)} {r : Run ℝ σ m n} {factor : Triangular ℝ m n}
    {trust : TrustRegion ℝ} (tolerance : 0 ≤ t.criteria.gradientTolerance)
    (h : t.Reaches l committed (.continues r (.attempt factor trust))) :
    ∃ jacobian, r.HasSlope factor jacobian := by
  refine attempt_induction (P := fun r factor => ∃ jacobian, r.HasSlope factor jacobian) ?_ ?_ h rfl
  · intro told jacobian progress r factor trust hlast hstep
    exact ⟨jacobian, Run.hasSlope_of_factorize tolerance hlast hstep⟩
  · rintro r factor trust r' factor' trust' ⟨jacobian, hslope⟩ hstep
    exact ⟨jacobian, hslope.of_rejected hstep⟩

theorem step_ne_zero_of_slope {a : Matrix (Fin k) (Fin n) ℝ} {b : Fin k → ℝ} {x : Fin n → ℝ}
    (h : b ⬝ᵥ (a *ᵥ x) < 0) : x ≠ 0 := by
  rintro rfl
  rw [mulVec_zero, dotProduct_zero] at h
  exact lt_irrefl 0 h

/-- If only exact zeros count as zero on the diagonal, a trial moves. -/
theorem Run.HasSlope.step_ne_zero {t : Task ℝ σ m n} {r : Run ℝ σ m n} {factor : Triangular ℝ m n}
    {trust : TrustRegion ℝ} {a : Mat ℝ m n} (h : r.HasSlope factor a)
    (exact : ∀ j, |factor.r j j| ≤ Arith.epsilon → factor.r j j = 0) :
    (r.search t factor trust).step.get ≠ 0 := by
  obtain ⟨⟨-, hmodels⟩, hrank, c, hc⟩ := h
  exact step_ne_zero_of_slope
    (Subproblem.search_slope_neg hmodels (hrank.seesGradient hmodels exact hc))

theorem abs_r_single (c : ℝ) (j : Fin 1) :
    |((QR.factorize true (.fill 1 1 c)).triangular le_rfl).r j j| = |c| := by
  have hmodels := QR.models_factorize true (.fill 1 1 c) (.fill 1 0) le_rfl
  have hgram := hmodels.gram j j
  fin_cases j
  rw [← sq_eq_sq_iff_abs_eq_abs]
  simpa [dotProduct, ← pow_two] using hgram.symm

/-- A derivative that is small enough counts as zero. -/
theorem abs_r_tiny (j : Fin 1) :
    |((QR.factorize true (.fill 1 1 (2 ^ (-60 : ℤ)))).triangular le_rfl).r j j| ≤
      (Arith.epsilon : ℝ) := by
  rw [abs_r_single]
  change |(2 : ℝ) ^ (-60 : ℤ)| ≤ 2 ^ (-52 : ℤ)
  norm_num

noncomputable def unusedJacobian : Mat ℝ 3 3 :=
  .ofFn ![![1, 0, 0], ![0, 0, 1], ![1, 0, 1]]

theorem unusedJacobian_dot (i j : Fin 3) :
    unusedJacobian.toMatrix.col i ⬝ᵥ unusedJacobian.toMatrix.col j =
      if i = 1 ∨ j = 1 then 0 else if i = j then 2 else 1 := by
  fin_cases i <;> fin_cases j <;> norm_num [unusedJacobian, dotProduct, Fin.sum_univ_succ]

namespace Triangular

variable {f : Triangular ℝ 3 3} {q : Vec ℝ 3} {b : Fin 3 → ℝ}

theorem gram_of_unused (hm : f.Models q unusedJacobian.toMatrix b) {c d : Fin 3}
    (hc : f.permutation c ≠ 1) (hd : f.permutation d ≠ 1) :
    f.r 0 c * f.r 0 d + f.r 1 c * f.r 1 d + f.r 2 c * f.r 2 d = if c = d then 2 else 1 := by
  have h := hm.gram c d
  rw [unusedJacobian_dot, if_neg (not_or.mpr ⟨hc, hd⟩),
    if_congr hm.injective.eq_iff rfl rfl] at h
  simpa [dotProduct, Fin.sum_univ_three] using h.symm

theorem column_of_unused (hm : f.Models q unusedJacobian.toMatrix b) {c : Fin 3}
    (hc : f.permutation c = 1) (i : Fin 3) : f.r i c = 0 := by
  have h := hm.gram c c
  rw [unusedJacobian_dot, if_pos (Or.inl hc)] at h
  exact congrFun (dotProduct_self_eq_zero.mp h.symm) i

/-- The column of zeros comes last if the rank is revealed. -/
theorem permutation_of_unused (hm : f.Models q unusedJacobian.toMatrix b)
    (hrank : f.RevealsRank) : f.permutation 2 = 1 := by
  obtain ⟨c, hc⟩ := (Finite.injective_iff_bijective.mp hm.injective).surjective 1
  have hne {d : Fin 3} (hd : d ≠ c) : f.permutation d ≠ 1 :=
    fun h => hd (hm.injective (h.trans hc.symm))
  have hbelow {i d : Fin 3} (hi : c ≤ i) : f.r i d = 0 := hrank c (column_of_unused hm hc c) i d hi
  obtain rfl | rfl | rfl : c = 0 ∨ c = 1 ∨ c = 2 := by fin_cases c <;> simp
  · have h11 := gram_of_unused hm (c := 1) (d := 1) (hne (by decide)) (hne (by decide))
    simp [hbelow] at h11
  · have h00 := gram_of_unused hm (c := 0) (d := 0) (hne (by decide)) (hne (by decide))
    have h02 := gram_of_unused hm (c := 0) (d := 2) (hne (by decide)) (hne (by decide))
    have h22 := gram_of_unused hm (c := 2) (d := 2) (hne (by decide)) (hne (by decide))
    simp only [hbelow le_rfl, hbelow (show (1 : Fin 3) ≤ 2 by decide), mul_zero, add_zero,
      if_pos, if_neg (show (0 : Fin 3) ≠ 2 by decide)] at h00 h02 h22
    have hsquares := mul_mul_mul_comm (f.r 0 0) (f.r 0 2) (f.r 0 0) (f.r 0 2)
    rw [h00, h02, h22] at hsquares
    norm_num at hsquares
  · exact hc

theorem diagonal_of_unused (hm : f.Models q unusedJacobian.toMatrix b) (hrank : f.RevealsRank) :
    f.r 2 2 = 0 ∧ ∀ j, |f.r j j| ≤ Arith.epsilon → f.r j j = 0 := by
  have hlast := permutation_of_unused hm hrank
  have hzero : f.r 2 2 = 0 := column_of_unused hm hlast 2
  have hne {d : Fin 3} (hd : d ≠ 2) : f.permutation d ≠ 1 :=
    fun h => hd (hm.injective (h.trans hlast.symm))
  have h10 : f.r 1 0 = 0 := f.isUpper_r 1 0 (by decide)
  have h00 := gram_of_unused hm (c := 0) (d := 0) (hne (by decide)) (hne (by decide))
  have h01 := gram_of_unused hm (c := 0) (d := 1) (hne (by decide)) (hne (by decide))
  have h11 := gram_of_unused hm (c := 1) (d := 1) (hne (by decide)) (hne (by decide))
  simp only [hrank 2 hzero 2 _ le_rfl, h10, mul_zero, zero_mul, add_zero, if_pos,
    if_neg (show (0 : Fin 3) ≠ 1 by decide)] at h00 h01 h11
  have hsquares := mul_mul_mul_comm (f.r 0 0) (f.r 0 1) (f.r 0 0) (f.r 0 1)
  rw [h00, h01] at hsquares
  have hlarge {x : ℝ} (hx : 1 < x * x) : ¬|x| ≤ Arith.epsilon := by
    rw [← pow_two, one_lt_sq_iff_one_lt_abs] at hx
    exact not_le.mpr (Arith.epsilon_lt_one.trans hx)
  have h0 : 1 < f.r 0 0 * f.r 0 0 := by linarith
  have h1 : 1 < f.r 1 1 * f.r 1 1 := by linarith
  refine ⟨hzero, fun j hj => ?_⟩
  fin_cases j
  · exact absurd hj (hlarge h0)
  · exact absurd hj (hlarge h1)
  · exact hzero

end Triangular

/-- The step of a search goes downhill on the linear model exactly if the residuals are not
orthogonal to all columns before the first diagonal element of `R` that counts as zero, and is zero
otherwise. If only exact zeros count as zero there, the gradient test lets no iteration go on whose
steps are not downhill, and no trial of a run makes a zero step. -/
theorem searched_steps_follow_gradient :
    (∀ {m n : Nat} (h : n ≤ m) (a : Mat ℝ m n) (b : Vec ℝ m) (p : Subproblem ℝ n) (estimate : ℝ)
      (oldStep : Vec ℝ n) (buffers : SearchBuffers ℝ n),
      let qr := QR.factorize true a
      let f := qr.triangular h
      let out := p.search f estimate oldStep buffers
      p.projected = (qr.applyTranspose b).leading h → 0 < p.radius → p.tuning.error? = none →
        out.FollowsGradient f a.toMatrix b.get ∧
        (0 < f.gradientNorm p.projected qr.columnNorms (norm b) →
          (∀ j, |f.r j j| ≤ Arith.epsilon → f.r j j = 0) →
          b.get ⬝ᵥ (a.toMatrix *ᵥ out.step.get) < 0 ∧ out.step.get ≠ 0)) ∧
    ∀ {σ : Type} {n : Nat} (s : Settings ℝ) (problem : Problem ℝ σ)
      (valid : s.error? problem.residualCount n = none) (l : Launch ℝ σ problem.residualCount n)
      (committed : List (Evaluation ℝ problem.residualCount n))
      (r : Run ℝ σ problem.residualCount n) (factor : Triangular ℝ problem.residualCount n)
      (trust : TrustRegion ℝ),
      let t := s.task problem n valid
      t.Reaches l committed (.continues r (.attempt factor trust)) →
      ∃ jacobian : Mat ℝ problem.residualCount n,
        r.history.lastJacobian? = some ⟨problem.residualCount, n, jacobian⟩ ∧
        ((∀ j, |factor.r j j| ≤ Arith.epsilon → factor.r j j = 0) →
          let step := (r.search t factor trust).step.get
          r.residuals.get ⬝ᵥ (jacobian.toMatrix *ᵥ step) < 0 ∧ step ≠ 0) := by
  refine ⟨?_, ?_⟩
  · intro m n h a b p estimate oldStep buffers qr f out projected radius tuning
    have hmodels : f.Models p.projected a.toMatrix b.get :=
      projected ▸ QR.models_factorize true a b h
    have hfollows : out.FollowsGradient f a.toMatrix b.get :=
      Subproblem.search_followsGradient hmodels radius (Tuning.searchTolerance_pos tuning)
    refine ⟨hfollows, ?_⟩
    intro gradient exact
    obtain ⟨c, hc⟩ := Triangular.exists_column_of_gradientNorm hmodels gradient
    have hdown := hfollows.slope_neg ((QR.revealsRank_factorize a h).seesGradient hmodels exact hc)
    exact ⟨hdown, step_ne_zero_of_slope hdown⟩
  · intro σ n s problem valid l committed r factor trust t h
    obtain ⟨jacobian, ⟨hlast, hmodels⟩, hrank, c, hc⟩ :=
      h.hasSlope (Settings.zero_le_gradientTolerance valid)
    refine ⟨jacobian, hlast, ?_⟩
    intro exact step
    have hdown : r.residuals.get ⬝ᵥ (jacobian.toMatrix *ᵥ step) < 0 :=
      Subproblem.search_slope_neg hmodels (hrank.seesGradient hmodels exact hc)
    exact ⟨hdown, step_ne_zero_of_slope hdown⟩

/-- Three parameters of which the second one enters no residual, so that `R` ends with a zero: in
one search and in the first trial of a run. -/
theorem unused_parameter_follows_gradient :
    (let b : Vec ℝ 3 := ⟨#v[-1, -2, -3]⟩
      let qr := QR.factorize true unusedJacobian
      let f := qr.triangular le_rfl
      let p : Subproblem ℝ 3 :=
        { scaling := .fill 3 1
          projected := (qr.applyTranspose b).leading le_rfl
          radius := 1
          tuning := .standard }
      let out := p.search f 0 (.fill 3 0) ⟨.fill 3 0, .fill 3 0, .fill 3 0⟩
      f.r 2 2 = 0 ∧ b.get ⬝ᵥ (unusedJacobian.toMatrix *ᵥ out.step.get) < 0 ∧ out.step.get ≠ 0) ∧
    let s : Settings ℝ := .standard
    let problem : Problem ℝ Unit := Problems.unusedParameter
    let t := s.task problem 3 (Settings.error?_standard three_pos le_rfl)
    ∃ l committed r factor trust, t.Reaches l committed (.continues r (.attempt factor trust)) ∧
      factor.r 2 2 = 0 ∧
      ∃ jacobian : Mat ℝ problem.residualCount 3,
        r.history.lastJacobian? = some ⟨problem.residualCount, 3, jacobian⟩ ∧
        let step := (r.search t factor trust).step.get
        r.residuals.get ⬝ᵥ (jacobian.toMatrix *ᵥ step) < 0 ∧ step ≠ 0 := by
  have hrank := QR.revealsRank_factorize unusedJacobian le_rfl
  obtain ⟨hlast, hexact⟩ := Triangular.diagonal_of_unused
    (QR.models_factorize true unusedJacobian (.fill 3 0) le_rfl) hrank
  refine ⟨?_, ?_⟩
  · intro b qr f p out
    have hgradient : unusedJacobian.toMatrix.col 0 ⬝ᵥ b.get ≠ 0 := by
      norm_num [b, unusedJacobian, dotProduct, Fin.sum_univ_succ, Vec.get]
    have hdown := (searched_steps_follow_gradient.1 le_rfl unusedJacobian b p 0 (.fill 3 0)
      ⟨.fill 3 0, .fill 3 0, .fill 3 0⟩ rfl one_pos Tuning.error?_standard).2
        (QR.gradientNorm_pos unusedJacobian b le_rfl hgradient) hexact
    exact ⟨hlast, hdown⟩
  · intro s problem t
    let residuals : Vec ℝ 3 := ⟨#v[0 - 1, 0 - 2.0, 0 + 0 - 3.0]⟩
    obtain ⟨l, -, hpoint, first⟩ : ∃ l, Settings.launch? () #[0, 0, 0] (.zeros 3 3) = some l ∧
        l.point = .ofArray #[0, 0, 0] ∧ (l.reply t).answer = .done residuals.toArray :=
      Settings.exists_launch?_of_first (Workspace.coherent_zeros 3 3) rfl
    have hjacobian : ((((Mat.fill 3 3 0).set 0 0 1).set 1 2 1).set 2 0 1).set 2 2 1 =
        unusedJacobian := by
      ext i j
      fin_cases i <;> fin_cases j <;> rfl
    have answer : ((l.started t residuals).jacobianReply t (.fill 3 3 0)).answer =
        .done ⟨3, 3, unusedJacobian⟩ := by
      rw [← hjacobian]
      rfl
    have hgradient : unusedJacobian.toMatrix.col 0 ⬝ᵥ residuals.get ≠ 0 := by
      norm_num [residuals, unusedJacobian, dotProduct, Fin.sum_univ_succ, Vec.get]
    obtain ⟨r, factor, trust, hstep, hreached⟩ :=
      Task.Reaches.first_attempt first answer rfl rfl hgradient
    obtain rfl := Run.factor_of_factorize hstep
    obtain ⟨jacobian, hjacobian, hdown⟩ := searched_steps_follow_gradient.2 s problem
      (Settings.error?_standard three_pos le_rfl) l _ r _ trust hreached
    exact ⟨l, _, r, _, trust, hreached, hlast, jacobian, hjacobian, hdown hexact⟩

/-- A derivative so small that it counts as zero leads to no step, although it is all that the
gradient test sees. -/
theorem tiny_derivative_takes_no_step :
    let a : Mat ℝ 1 1 := .fill 1 1 (2 ^ (-60 : ℤ))
    let b : Vec ℝ 1 := .fill 1 1
    let qr := QR.factorize true a
    let f := qr.triangular le_rfl
    let p : Subproblem ℝ 1 :=
      { scaling := .fill 1 1
        projected := (qr.applyTranspose b).leading le_rfl
        radius := 1
        tuning := .standard }
    let out := p.search f 0 (.fill 1 0) ⟨.fill 1 0, .fill 1 0, .fill 1 0⟩
    (∀ i, 0 < p.scaling i) ∧ 0 < p.radius ∧ p.tuning.error? = none ∧ b.get ≠ 0 ∧
      0 < f.gradientNorm p.projected qr.columnNorms (norm b) ∧
      ¬b.get ⬝ᵥ (a.toMatrix *ᵥ out.step.get) < 0 ∧ out.step.get = 0 := by
  intro a b qr f p out
  have hsingle (c : ℝ) (i : Fin 1) : (Vec.fill 1 c) i = c := Vec.fill_apply _ _
  have hgradient : a.toMatrix.col 0 ⬝ᵥ b.get ≠ 0 := by
    simp [a, b, dotProduct]
  have hblind : ¬f.SeesGradient a.toMatrix b.get :=
    Triangular.not_seesGradient abs_r_tiny
  have hstep : out.step.get = 0 :=
    Subproblem.search_step_eq_zero (QR.models_factorize true a b le_rfl) hblind one_pos
      (Tuning.searchTolerance_pos Tuning.error?_standard)
  refine ⟨fun i => ?_, one_pos, Tuning.error?_standard, fun hb => ?_,
    QR.gradientNorm_pos a b le_rfl hgradient, ?_, hstep⟩
  · exact (hsingle 1 i).symm ▸ one_pos
  · rw [hb, dotProduct_zero] at hgradient
    exact hgradient rfl
  · rw [hstep, mulVec_zero, dotProduct_zero]
    exact lt_irrefl 0

end LeastSquares
