import LeastSquares.Proofs.LinearModel

namespace LeastSquares

open Matrix

variable {k m n : Nat}

/-- Whether a step comes from a solve with the given damping, truncated at the first negligible
diagonal element of the damped triangle. -/
def Triangular.IsStep (f : Triangular ℝ m n) (scaling q : Vec ℝ n) (damping : ℝ)
    (step : Vec ℝ n) : Prop :=
  ∃ s r z, Damps f.r.toMatrix (scale (f.permute scaling.get) fun _ => √damping) q.get s r ∧
    SolvesLeading s (firstIndex fun j => negligible (s j j)) r z ∧ f.permute step.get = -z

theorem firstIndex_eq {p : Fin n → Bool} (h : ∀ i, p i = false) : firstIndex p = n := by
  unfold firstIndex
  have := List.findIdx_eq_length.mpr fun i (_ : i ∈ List.finRange n) => h i
  rwa [List.length_finRange] at this

theorem negligible_eq_false {x : ℝ} : negligible x = false ↔ Arith.epsilon < |x| := by
  unfold negligible
  rw [decide_eq_false_iff_not, not_le, Arith.abs_real]

section IsStep

variable {f : Triangular ℝ m n} {scaling q step : Vec ℝ n} {damping : ℝ}

theorem Triangular.IsStep.congr {f' : Triangular ℝ m n} (h : f'.IsStep scaling q damping step)
    (hr : f'.r = f.r) (hp : f'.permutation = f.permutation) : f.IsStep scaling q damping step := by
  unfold Triangular.IsStep Triangular.permute at h ⊢
  rwa [hr, hp] at h

variable {a : Matrix (Fin k) (Fin n) ℝ} {b : Fin k → ℝ}

/-- The change of the residuals along a step, its damped length and its slope balance, whatever
the rank. -/
theorem Triangular.IsStep.energy (h : f.IsStep scaling q damping step) (hm : f.Models q a b) :
    (a *ᵥ step.get) ⬝ᵥ (a *ᵥ step.get) +
        √damping ^ 2 * (scale scaling.get step.get ⬝ᵥ scale scaling.get step.get) =
      -((a *ᵥ step.get) ⬝ᵥ b) := by
  obtain ⟨s, r, z, hd, hz, hstep⟩ := h
  have he := hz.energy hd
  rw [← neg_eq_iff_eq_neg] at hstep
  have hscale : scale (scale (f.permute scaling.get) fun _ => √damping) z =
      -√damping • f.permute (scale scaling.get step.get) := by
    funext c
    rw [← hstep]
    simp only [scale, Triangular.permute, Pi.neg_apply, Pi.smul_apply, smul_eq_mul]
    ring
  rw [hscale, smul_dotProduct, dotProduct_smul, hm.permute_dot, ← hstep, mulVec_neg,
    neg_dotProduct_neg, neg_dotProduct, hm.change_dot_self, hm.change_dot] at he
  rw [← he, smul_eq_mul, smul_eq_mul]
  ring

/-- With a regular triangle a step solves the damped normal equations. -/
theorem Triangular.IsStep.normalOf_eq (h : f.IsStep scaling q damping step) (hm : f.Models q a b)
    (regular : ∀ j, Arith.epsilon < |f.r j j|) :
    normalOf a (scale scaling.get fun _ => √damping) step.get = -(aᵀ *ᵥ b) := by
  obtain ⟨s, r, z, hd, hz, hstep⟩ := h
  have hrank : n ≤ firstIndex fun j => negligible (s j j) :=
    (firstIndex_eq fun j => negligible_eq_false.mpr ((regular j).trans_le (hd.diagonal j))).ge
  have hn := hz.normal hd hrank
  apply hm.permute_injective
  rw [hm.permute_normalOf, hstep, mulVec_neg, mulVec_neg]
  change _ = -f.permute (aᵀ *ᵥ b)
  rw [hm.permute_gradient, ← hn, neg_add]
  congr 1
  funext c
  exact mul_neg _ _

theorem Triangular.IsStep.normal (h : f.IsStep scaling q damping step) (hm : f.Models q a b)
    (regular : ∀ j, Arith.epsilon < |f.r j j|) (hdamping : 0 ≤ damping) :
    aᵀ *ᵥ (a *ᵥ step.get) + (fun i => damping * (scaling i ^ 2 * step i)) = -(aᵀ *ᵥ b) := by
  rw [← h.normalOf_eq hm regular, normalOf]
  congr 1
  funext i
  change _ = (scaling i * √damping) ^ 2 * step i
  rw [mul_pow, Real.sq_sqrt hdamping]
  ring

end IsStep

section Subproblem

/-- A solution of the damped normal equations is the best step that is no longer than itself. -/
theorem length_le_of_normal {a : Matrix (Fin k) (Fin n) ℝ} {b : Fin k → ℝ} {d x y : Fin n → ℝ}
    {damping : ℝ} (hdamping : 0 ≤ damping)
    (normal : aᵀ *ᵥ (a *ᵥ x) + (fun i => damping * (d i ^ 2 * x i)) = -(aᵀ *ᵥ b))
    (h : damping = 0 ∨ length (scale d y) ≤ length (scale d x)) :
    length (a *ᵥ x + b) ≤ length (a *ᵥ y + b) := by
  set u := y - x with hu
  have hy : a *ᵥ y + b = (a *ᵥ x + b) + a *ᵥ u := by
    rw [hu, mulVec_sub]
    abel
  have hslope : (a *ᵥ x + b) ⬝ᵥ (a *ᵥ u) = -damping * (scale d x ⬝ᵥ scale d u) := by
    have hgradient : aᵀ *ᵥ (a *ᵥ x + b) = fun i => -damping * (d i ^ 2 * x i) := by
      funext i
      have := congrFun normal i
      simp only [mulVec_add, Pi.add_apply, Pi.neg_apply] at this ⊢
      linarith
    rw [dotProduct_mulVec, ← mulVec_transpose, hgradient, dotProduct, dotProduct, Finset.mul_sum]
    apply Finset.sum_congr rfl
    intro i _
    unfold scale
    ring
  have hnonneg : 0 ≤ (a *ᵥ x + b) ⬝ᵥ (a *ᵥ u) := by
    rw [hslope]
    rcases h with rfl | hle
    · simp
    · have hsplit : scale d x ⬝ᵥ scale d u = scale d x ⬝ᵥ scale d y - length (scale d x) ^ 2 := by
        rw [length_sq, ← dotProduct_sub]
        congr 1
        funext i
        exact mul_sub _ _ _
      have hcs := dot_le_length (scale d x) (scale d y)
      have hmul := mul_le_mul_of_nonneg_left hle (length_nonneg (scale d x))
      have hneg : scale d x ⬝ᵥ scale d u ≤ 0 := by
        rw [hsplit]
        nlinarith
      nlinarith
  have hsquare : length (a *ᵥ y + b) ^ 2 = length (a *ᵥ x + b) ^ 2 +
      2 * ((a *ᵥ x + b) ⬝ᵥ (a *ᵥ u)) + length (a *ᵥ u) ^ 2 := by
    rw [hy, length_add_sq]
  refine le_of_sq_le_sq ?_ (length_nonneg _)
  rw [hsquare]
  nlinarith [sq_nonneg (length (a *ᵥ u))]

end Subproblem

end LeastSquares
