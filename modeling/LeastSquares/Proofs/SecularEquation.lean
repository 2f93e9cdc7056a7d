import LeastSquares.Proofs.DampedSolves
import Mathlib.Algebra.QuadraticDiscriminant
import Mathlib.Topology.Instances.Matrix
import Mathlib.Topology.Order.IntermediateValue

namespace LeastSquares

open Matrix

variable {k n : Nat} {a : Matrix (Fin k) (Fin n) ℝ} {c e u v w x y z : Fin n → ℝ} {s t : ℝ}

def shifted (a : Matrix (Fin k) (Fin n) ℝ) (t : ℝ) (x : Fin n → ℝ) : Fin n → ℝ :=
  aᵀ *ᵥ (a *ᵥ x) + t • x

section Shifted

theorem shifted_eq_mulVec (a : Matrix (Fin k) (Fin n) ℝ) (t : ℝ) (x : Fin n → ℝ) :
    shifted a t x = (aᵀ * a + t • 1) *ᵥ x := by
  rw [shifted, add_mulVec, mulVec_mulVec, smul_mulVec, one_mulVec]

theorem shifted_add : shifted a t (x + y) = shifted a t x + shifted a t y := by
  simp only [shifted_eq_mulVec, mulVec_add]

theorem shifted_sub : shifted a t (x - y) = shifted a t x - shifted a t y := by
  simp only [shifted_eq_mulVec, mulVec_sub]

theorem shifted_smul (r : ℝ) : shifted a t (r • x) = r • shifted a t x := by
  simp only [shifted_eq_mulVec, mulVec_smul]

theorem shifted_zero : shifted a t 0 = 0 := by
  rw [shifted_eq_mulVec, mulVec_zero]

theorem shifted_eq_add (a : Matrix (Fin k) (Fin n) ℝ) (s t : ℝ) (x : Fin n → ℝ) :
    shifted a s x = shifted a t x + (s - t) • x := by
  rw [shifted, shifted, sub_smul]
  abel

theorem dot_shifted : x ⬝ᵥ shifted a t y = (a *ᵥ x) ⬝ᵥ (a *ᵥ y) + t * (x ⬝ᵥ y) := by
  rw [shifted, dotProduct_add, dotProduct_mulVec, vecMul_transpose, dotProduct_smul, smul_eq_mul]

/-- The energy of a solution: what it makes of the right-hand side. -/
theorem dot_shifted_self :
    x ⬝ᵥ shifted a t x = length (a *ᵥ x) ^ 2 + t * length x ^ 2 := by
  rw [dot_shifted, length_sq, length_sq]

theorem shifted_dot_shifted :
    shifted a t x ⬝ᵥ shifted a s y =
      (aᵀ *ᵥ (a *ᵥ x)) ⬝ᵥ (aᵀ *ᵥ (a *ᵥ y)) + (t + s) * ((a *ᵥ x) ⬝ᵥ (a *ᵥ y)) +
        t * s * (x ⬝ᵥ y) := by
  have hx : (aᵀ *ᵥ (a *ᵥ x)) ⬝ᵥ y = (a *ᵥ x) ⬝ᵥ (a *ᵥ y) := by
    rw [dotProduct_comm, dotProduct_mulVec, vecMul_transpose, dotProduct_comm]
  have hshifted : shifted a t x ⬝ᵥ shifted a s y =
      (aᵀ *ᵥ (a *ᵥ x)) ⬝ᵥ shifted a s y + t * (x ⬝ᵥ shifted a s y) := by
    rw [shifted, add_dotProduct, smul_dotProduct, smul_eq_mul]
  rw [hshifted, dot_shifted (x := x), shifted, dotProduct_add, dotProduct_smul, hx, smul_eq_mul]
  ring

theorem shifted_dot_shifted_comm :
    shifted a t x ⬝ᵥ shifted a s y = shifted a t y ⬝ᵥ shifted a s x := by
  rw [shifted_dot_shifted, shifted_dot_shifted, dotProduct_comm (aᵀ *ᵥ _),
    dotProduct_comm (a *ᵥ x), dotProduct_comm x]

theorem shifted_dot_shifted_self_nonneg (ht : 0 ≤ t) (hs : 0 ≤ s) :
    0 ≤ shifted a t x ⬝ᵥ shifted a s x := by
  rw [shifted_dot_shifted, ← length_sq, ← length_sq, ← length_sq]
  positivity

/-- Two shifts together make a form that is not negative, so the Cauchy-Schwarz inequality holds. -/
theorem shifted_dot_shifted_sq_le (ht : 0 ≤ t) (hs : 0 ≤ s) :
    (shifted a t x ⬝ᵥ shifted a s y) ^ 2 ≤
      (shifted a t x ⬝ᵥ shifted a s x) * (shifted a t y ⬝ᵥ shifted a s y) := by
  have hnonneg (r : ℝ) : 0 ≤ (shifted a t x ⬝ᵥ shifted a s x) * (r * r) +
      2 * (shifted a t x ⬝ᵥ shifted a s y) * r + shifted a t y ⬝ᵥ shifted a s y := by
    have h : 0 ≤ shifted a t (r • x + y) ⬝ᵥ shifted a s (r • x + y) :=
      shifted_dot_shifted_self_nonneg ht hs
    simp only [shifted_add, shifted_smul, add_dotProduct, dotProduct_add, smul_dotProduct,
      dotProduct_smul, smul_eq_mul] at h
    rw [shifted_dot_shifted_comm (x := y) (y := x)] at h
    linarith
  have hdiscriminant := discrim_le_zero hnonneg
  unfold discrim at hdiscriminant
  linarith

end Shifted

section Solutions

/-- More damping makes a solution shorter. -/
theorem length_lt_of_shifted (hu : shifted a t u = c) (hv : shifted a s v = c) (ht : 0 ≤ t)
    (hts : t < s) (hc : c ≠ 0) : length v < length u := by
  set e := u - v with he
  have hshifted : shifted a t e = (s - t) • v := by
    rw [he, shifted_sub, hu, ← hv, shifted_eq_add a s t v, add_sub_cancel_left]
  have henergy : (s - t) * (e ⬝ᵥ v) = length (a *ᵥ e) ^ 2 + t * length e ^ 2 := by
    rw [← dot_shifted_self, hshifted, dotProduct_smul, smul_eq_mul]
  have hslope : 0 ≤ e ⬝ᵥ v := by
    refine nonneg_of_mul_nonneg_right ?_ (sub_pos.mpr hts)
    rw [henergy]
    positivity
  have hpos : 0 < length e := by
    refine length_pos.mpr fun hsame => hc ?_
    rw [hsame, shifted_zero, eq_comm, smul_eq_zero] at hshifted
    rw [← hv, hshifted.resolve_left (sub_ne_zero.mpr hts.ne'), shifted_zero]
  have hsquare : length u ^ 2 = length v ^ 2 + 2 * (v ⬝ᵥ e) + length e ^ 2 := by
    rw [← length_add_sq, he, add_sub_cancel]
  rw [dotProduct_comm] at hsquare
  refine lt_of_pow_lt_pow_left₀ 2 (length_nonneg u) ?_
  linarith [pow_pos hpos 2]

/-- The damping times the length of a solution is at most the length of the right-hand side. -/
theorem mul_length_le_of_shifted (hu : shifted a t u = c) : t * length u ≤ length c := by
  rcases (length_nonneg u).eq_or_lt with hzero | hpos
  · rw [← hzero, mul_zero]
    exact length_nonneg c
  · refine le_of_mul_le_mul_right ?_ hpos
    calc t * length u * length u
        ≤ length (a *ᵥ u) ^ 2 + t * length u ^ 2 := by
          linarith [sq_nonneg (length (a *ᵥ u))]
      _ = u ⬝ᵥ c := by rw [← dot_shifted_self, hu]
      _ ≤ length c * length u := by
          rw [mul_comm]
          exact dot_le_length u c

end Solutions

section Regular

theorem shifted_injective (regular : ∀ x, a *ᵥ x = 0 → x = 0) (ht : 0 ≤ t)
    (h : shifted a t x = shifted a t y) : x = y := by
  rw [← sub_eq_zero] at h ⊢
  rw [← shifted_sub] at h
  refine regular _ ?_
  have henergy := dot_shifted_self (a := a) (t := t) (x := x - y)
  rw [h, dotProduct_zero] at henergy
  have hzero : length (a *ᵥ (x - y)) = 0 := by
    refine pow_eq_zero_iff two_ne_zero |>.mp (le_antisymm ?_ (sq_nonneg _))
    linarith [mul_nonneg ht (sq_nonneg (length (x - y)))]
  exact length_eq_zero.mp hzero

/-- Two solutions for one right-hand side have a common preimage, with their shifts exchanged. -/
theorem shifted_exchange (regular : ∀ x, a *ᵥ x = 0 → x = 0) (ht : 0 ≤ t)
    (hu : shifted a t u = c) (hv : shifted a s v = c) (hz : shifted a t z = v) :
    shifted a s z = u := by
  refine shifted_injective regular ht ?_
  rw [shifted_eq_add a s t z, hz, shifted_add, shifted_smul, hz, ← shifted_eq_add, hu, hv]

/-- The Newton step for the reciprocal length, from the solution `u` with the damping `t` along the
unit vector `e`, does not go beyond the damping `s` of the solution `v`. -/
theorem newton_le_of_shifted (ht : 0 ≤ t) (hs : 0 ≤ s) (he : e ⬝ᵥ e = 1) (hu : u = length u • e)
    (hupos : 0 < length u) (hvpos : 0 < length v) (hw : shifted a t w = e)
    (hz : shifted a t z = v) (hz' : shifted a s z = u) :
    (length u - length v) / length v ≤ (s - t) * (w ⬝ᵥ e) := by
  have hcross : shifted a t w ⬝ᵥ shifted a s z = length u := by
    rw [hw, hz', hu, dotProduct_smul, he, smul_eq_mul, mul_one, ← hu]
  have hdirection : shifted a t w ⬝ᵥ shifted a s w = 1 + (s - t) * (w ⬝ᵥ e) := by
    rw [shifted_eq_add a s t w, hw, dotProduct_add, he, dotProduct_smul, smul_eq_mul,
      dotProduct_comm e]
  have hsolutions : shifted a t z ⬝ᵥ shifted a s z ≤ length v * length u := by
    rw [hz, hz']
    exact dot_le_length v u
  have hcauchy := shifted_dot_shifted_sq_le (a := a) (x := w) (y := z) ht hs
  have hnonneg : 0 ≤ shifted a t w ⬝ᵥ shifted a s w := shifted_dot_shifted_self_nonneg ht hs
  rw [hcross] at hcauchy
  rw [hdirection] at hcauchy hnonneg
  have hsquare : length u * length u ≤ (1 + (s - t) * (w ⬝ᵥ e)) * length v * length u :=
    calc length u * length u
        = length u ^ 2 := (pow_two _).symm
      _ ≤ (1 + (s - t) * (w ⬝ᵥ e)) * (length v * length u) :=
          hcauchy.trans (mul_le_mul_of_nonneg_left hsolutions hnonneg)
      _ = (1 + (s - t) * (w ⬝ᵥ e)) * length v * length u := (mul_assoc _ _ _).symm
  have hlength := le_of_mul_le_mul_right hsquare hupos
  rw [div_le_iff₀ hvpos]
  linarith

theorem isUnit_shift (regular : ∀ x, a *ᵥ x = 0 → x = 0) (ht : 0 ≤ t) :
    IsUnit (aᵀ * a + t • 1) := by
  refine mulVec_injective_iff_isUnit.mp fun x y h => shifted_injective regular ht ?_
  rw [shifted_eq_mulVec, shifted_eq_mulVec]
  exact h

noncomputable def dampedSolution (a : Matrix (Fin k) (Fin n) ℝ) (c : Fin n → ℝ) (t : ℝ) :
    Fin n → ℝ :=
  (aᵀ * a + t • 1)⁻¹ *ᵥ c

theorem shifted_dampedSolution (regular : ∀ x, a *ᵥ x = 0 → x = 0) (c : Fin n → ℝ) (ht : 0 ≤ t) :
    shifted a t (dampedSolution a c t) = c := by
  have hunit := (isUnit_iff_isUnit_det _).mp (isUnit_shift regular ht)
  rw [shifted_eq_mulVec, dampedSolution, mulVec_mulVec, mul_nonsing_inv _ hunit, one_mulVec]

theorem eq_dampedSolution (regular : ∀ x, a *ᵥ x = 0 → x = 0) (ht : 0 ≤ t)
    (h : shifted a t x = c) : x = dampedSolution a c t :=
  shifted_injective regular ht (h.trans (shifted_dampedSolution regular c ht).symm)

theorem length_dampedSolution_pos (regular : ∀ x, a *ᵥ x = 0 → x = 0) (hc : c ≠ 0) (ht : 0 ≤ t) :
    0 < length (dampedSolution a c t) := by
  refine length_pos.mpr fun hzero => hc ?_
  rw [← shifted_dampedSolution regular c ht, hzero, shifted_zero]

theorem continuousOn_dampedSolution (regular : ∀ x, a *ᵥ x = 0 → x = 0) (c : Fin n → ℝ) :
    ContinuousOn (dampedSolution a c) (Set.Ici 0) := by
  have hshift : Continuous fun t : ℝ => aᵀ * a + t • (1 : Matrix (Fin n) (Fin n) ℝ) := by
    fun_prop
  have hdet : ContinuousOn (fun t : ℝ => (aᵀ * a + t • (1 : Matrix (Fin n) (Fin n) ℝ)).det⁻¹)
      (Set.Ici 0) := by
    refine hshift.matrix_det.continuousOn.inv₀ fun t ht => ?_
    exact ((isUnit_iff_isUnit_det _).mp (isUnit_shift regular ht)).ne_zero
  have hinverse : ContinuousOn
      (fun t : ℝ => (aᵀ * a + t • (1 : Matrix (Fin n) (Fin n) ℝ))⁻¹) (Set.Ici 0) := by
    simp only [inv_def, Ring.inverse_eq_inv']
    exact hdet.smul hshift.matrix_adjugate.continuousOn
  have hproduct : Continuous fun b : Matrix (Fin n) (Fin n) ℝ => b *ᵥ c :=
    continuous_id.matrix_mulVec continuous_const
  exact hproduct.comp_continuousOn hinverse

theorem continuous_length : Continuous (length : (Fin n → ℝ) → ℝ) :=
  continuous_norm.comp (PiLp.continuous_toLp 2 _)

theorem strictAntiOn_length_dampedSolution (regular : ∀ x, a *ᵥ x = 0 → x = 0) (hc : c ≠ 0) :
    StrictAntiOn (fun t => length (dampedSolution a c t)) (Set.Ici 0) := by
  intro t ht s hs hts
  exact length_lt_of_shifted (shifted_dampedSolution regular c ht)
    (shifted_dampedSolution regular c hs) ht hts hc

/-- A radius below the length of the undamped solution is the length for exactly one damping. -/
theorem exists_damping_of_length (regular : ∀ x, a *ᵥ x = 0 → x = 0) {radius : ℝ}
    (hradius : 0 < radius) (hlong : radius < length (dampedSolution a c 0)) :
    ∃ root, 0 < root ∧ length (dampedSolution a c root) = radius := by
  have hbound : 0 ≤ length c / radius := div_nonneg (length_nonneg c) hradius.le
  have hshort : length (dampedSolution a c (length c / radius)) ≤ radius := by
    have h := mul_length_le_of_shifted (shifted_dampedSolution regular c hbound)
    have hc : c ≠ 0 := by
      rintro rfl
      refine hlong.not_ge ?_
      rw [dampedSolution, mulVec_zero, length_zero]
      exact hradius.le
    have hpos : 0 < length c / radius := div_pos (length_pos.mpr hc) hradius
    rwa [← le_div_iff₀' hpos, div_div_cancel₀ (length_pos.mpr hc).ne'] at h
  have hcontinuous : ContinuousOn (fun t => length (dampedSolution a c t))
      (Set.Icc 0 (length c / radius)) :=
    continuous_length.comp_continuousOn
      ((continuousOn_dampedSolution regular c).mono Set.Icc_subset_Ici_self)
  obtain ⟨root, ⟨hroot, -⟩, hlength⟩ :=
    intermediate_value_Icc' hbound hcontinuous ⟨hshort, hlong.le⟩
  refine ⟨root, lt_of_le_of_ne hroot ?_, hlength⟩
  rintro rfl
  exact hlong.ne' hlength

/-- The Newton step along the unit vector of a solution, which has a positive denominator. -/
theorem newton_le_dampedSolution (regular : ∀ x, a *ᵥ x = 0 → x = 0) (hc : c ≠ 0) (ht : 0 ≤ t)
    (hs : 0 ≤ s) (he : e = (length (dampedSolution a c t))⁻¹ • dampedSolution a c t)
    (hw : shifted a t w = e) :
    0 < w ⬝ᵥ e ∧
      (length (dampedSolution a c t) - length (dampedSolution a c s)) /
          length (dampedSolution a c s) ≤ (s - t) * (w ⬝ᵥ e) := by
  have hu := shifted_dampedSolution regular c ht
  have hv := shifted_dampedSolution regular c hs
  have hupos := length_dampedSolution_pos regular hc ht
  set u := dampedSolution a c t
  set v := dampedSolution a c s
  have hunit : e ⬝ᵥ e = 1 := by
    rw [he, smul_dotProduct, dotProduct_smul, ← length_sq, smul_eq_mul, smul_eq_mul]
    field_simp
  have hdirection : u = length u • e := by
    rw [he, smul_smul, mul_inv_cancel₀ hupos.ne', one_smul]
  constructor
  · have hne : a *ᵥ w ≠ 0 := by
      intro hzero
      rw [regular w hzero, shifted_zero] at hw
      rw [← hw, dotProduct_zero] at hunit
      exact zero_ne_one hunit
    rw [← hw, dot_shifted_self]
    exact add_pos_of_pos_of_nonneg (pow_pos (length_pos.mpr hne) 2)
      (mul_nonneg ht (sq_nonneg _))
  · have hz := shifted_dampedSolution regular v ht
    exact newton_le_of_shifted ht hs hunit hdirection hupos
      (length_dampedSolution_pos regular hc hs) hw hz (shifted_exchange regular ht hu hv hz)

end Regular

end LeastSquares
