import LeastSquares.Proofs.SearchResults
import LeastSquares.Proofs.SecularEquation
import Mathlib.Logic.Function.Iterate

namespace LeastSquares

open Matrix

variable {m n : Nat}

namespace SearchState

variable {α : Type} [Scalar α] (p : Subproblem α n) (s : SearchState α m n)

def next (s : SearchState α m n) : SearchState α m n :=
  s.corrected p (s.solve p)

def correction (s : SearchState α m n) : α :=
  let t := s.solve p
  p.newton t.excess (t.solved.factor.solveDampedTranspose t.solved.diagonal
    (p.direction s.factor.permutation t.scaled t.length))

def after (k : Nat) : SearchState α m n :=
  (next p)^[k] s

theorem after_succ (k : Nat) : s.after p (k + 1) = (s.after p k).next p :=
  Function.iterate_succ_apply' _ _ _

theorem passes_after (k : Nat) : (s.after p k).passes = s.passes + k := by
  induction k with
  | zero => rfl
  | succ k ih =>
    rw [after_succ, ← Nat.add_assoc, ← ih]
    rfl

theorem log_after (k : Nat) :
    (s.after p k).log = s.log ++
      (List.range k).map fun i => (s.after p i).record ((s.after p i).solve p) := by
  induction k with
  | zero => exact (List.append_nil _).symm
  | succ k ih =>
    rw [after_succ, List.range_succ, List.map_append, ← List.append_assoc, ← ih]
    rfl

/-- A search ends with the pass from one of these states. -/
theorem exists_run_eq (further : Nat) :
    ∃ k, run p further s = (s.after p k).outcome ((s.after p k).solve p) := by
  induction further generalizing s with
  | zero => exact ⟨0, rfl⟩
  | succ further ih =>
    unfold run
    dsimp only
    split
    · exact ⟨0, rfl⟩
    · obtain ⟨k, hk⟩ := ih (s.next p)
      exact ⟨k + 1, hk⟩

/-- A search that starts without a record logs one for every pass. -/
theorem log_run (hpasses : s.passes = 0) (hlog : s.log = []) (further : Nat) :
    0 < (run p further s).passes ∧
      (run p further s).log = (List.range (run p further s).passes).map fun k =>
        (s.after p k).record ((s.after p k).solve p) := by
  obtain ⟨k, hk⟩ := s.exists_run_eq p further
  have hcount : (run p further s).passes = k + 1 := by
    rw [hk, outcome, passes_after, hpasses, Nat.zero_add]
  rw [hcount, hk]
  refine ⟨Nat.succ_pos k, ?_⟩
  rw [outcome, log_after, hlog, List.nil_append, List.range_succ, List.map_append]
  rfl

end SearchState

section Units

variable {k : Nat} {a : Matrix (Fin k) (Fin n) ℝ} {d v x : Fin n → ℝ} {t : ℝ}

theorem scale_inv_scale (hd : ∀ i, d i ≠ 0) : scale d⁻¹ (scale d v) = v :=
  funext fun i => inv_mul_cancel_left₀ (hd i) (v i)

theorem scale_scale_inv (hd : ∀ i, d i ≠ 0) : scale d (scale d⁻¹ v) = v :=
  funext fun i => mul_inv_cancel_left₀ (hd i) (v i)

/-- The damped normal equations in the units that the lengths are measured in. -/
theorem shifted_scale (hd : ∀ i, d i ≠ 0) (ht : 0 ≤ t) :
    shifted (a * diagonal d⁻¹) t (scale d x) =
      scale d⁻¹ (normalOf a (scale d fun _ => √t) x) := by
  have hunits : normalOf (a * diagonal d⁻¹) (fun _ => √t) (scale d x) =
      scale d⁻¹ (normalOf a (scale d fun _ => √t) x) := by
    have h := normalOf_units (a := a) (c := d⁻¹) (w := scale d fun _ => √t) (x := scale d x)
    rwa [scale_inv_scale hd, scale_inv_scale hd] at h
  rw [← hunits, shifted, normalOf, Real.sq_sqrt ht]
  rfl

/-- The damped sum of squares of a step, whose right-hand side are the negative residuals. -/
theorem dampedCost_step {b : Fin k → ℝ} (ht : 0 ≤ t) :
    dampedCost a (-b) (scale d fun _ => √t) x =
      length (a *ᵥ x + b) ^ 2 + t * length (scale d x) ^ 2 := by
  rw [dampedCost, sub_neg_eq_add, length_sq (scale _ x), length_sq (scale d x), dotProduct,
    dotProduct, Finset.mul_sum]
  congr 1
  refine Finset.sum_congr rfl fun i _ => ?_
  simp only [scale]
  linear_combination (d i * x i) ^ 2 * Real.mul_self_sqrt ht

end Units

/-- What the search relies on: a factor of full rank, and units and a radius that are positive. -/
structure Subproblem.IsRegular (p : Subproblem ℝ n) (f : Triangular ℝ m n) : Prop where
  injective : Function.Injective f.permutation.get
  regular : f.IsRegular
  scaling : ∀ i, 0 < p.scaling i
  radius : 0 < p.radius

namespace Subproblem

noncomputable def scaledModel (p : Subproblem ℝ n) (f : Triangular ℝ m n) :
    Matrix (Fin n) (Fin n) ℝ :=
  f.ordered * diagonal p.scaling.get⁻¹

noncomputable def scaledSlope (p : Subproblem ℝ n) (f : Triangular ℝ m n) : Fin n → ℝ :=
  scale p.scaling.get⁻¹ (f.orderedᵀ *ᵥ p.projected.get)

/-- The scaled solution with the damping `t`. The scaled step is its negative. -/
noncomputable def path (p : Subproblem ℝ n) (f : Triangular ℝ m n) (t : ℝ) : Fin n → ℝ :=
  dampedSolution (p.scaledModel f) (p.scaledSlope f) t

noncomputable def stepAt (p : Subproblem ℝ n) (f : Triangular ℝ m n) (t : ℝ) : Fin n → ℝ :=
  -scale p.scaling.get⁻¹ (p.path f t)

structure IsRoot (p : Subproblem ℝ n) (f : Triangular ℝ m n) (root : ℝ) : Prop where
  pos : 0 < root
  length_eq : length (p.path f root) = p.radius

variable {f g : Triangular ℝ m n} {p : Subproblem ℝ n} {root t : ℝ}

theorem path_congr (hr : g.r = f.r) (hp : g.permutation = f.permutation) :
    p.path g t = p.path f t := by
  unfold path scaledModel scaledSlope Triangular.ordered
  rw [hr, hp]

namespace IsRegular

theorem congr (h : p.IsRegular f) (hr : g.r = f.r) (hp : g.permutation = f.permutation) :
    p.IsRegular g where
  injective := by
    rw [hp]
    exact h.injective
  regular := by
    unfold Triangular.IsRegular
    rw [hr]
    exact h.regular
  scaling := h.scaling
  radius := h.radius

theorem models (h : p.IsRegular f) : f.Models p.projected f.ordered p.projected.get :=
  Triangular.models_ordered h.injective _

theorem scaling_ne_zero (h : p.IsRegular f) (i : Fin n) : p.scaling.get i ≠ 0 :=
  (h.scaling i).ne'

theorem eq_zero_of_ordered (h : p.IsRegular f) (x : Fin n → ℝ) (hx : f.ordered *ᵥ x = 0) :
    x = 0 := by
  rw [f.ordered_mulVec] at hx
  exact h.models.permute_injective (f.isUpper_r.injective h.regular.ne_zero hx)

theorem eq_zero_of_scaledModel (h : p.IsRegular f) (x : Fin n → ℝ)
    (hx : p.scaledModel f *ᵥ x = 0) : x = 0 := by
  rw [Subproblem.scaledModel, mulVec_units] at hx
  exact scale_injective (fun i => inv_ne_zero (h.scaling_ne_zero i))
    ((h.eq_zero_of_ordered _ hx).trans (scale_zero _).symm)

/-- The solution with a damping is on the path. -/
theorem scale_eq_path (h : p.IsRegular f) (ht : 0 ≤ t) {x : Vec ℝ n}
    (hx : f.IsStep p.scaling p.projected t (x.map (-·))) :
    scale p.scaling.get x.get = p.path f t := by
  refine eq_dampedSolution h.eq_zero_of_scaledModel ht ?_
  have hnormal := hx.normalOf_eq h.models h.regular
  rw [Vec.get_neg, normalOf_neg, neg_inj] at hnormal
  rw [Subproblem.scaledModel, shifted_scale h.scaling_ne_zero ht, hnormal]
  rfl

theorem length_scale_stepAt (h : p.IsRegular f) (t : ℝ) :
    length (scale p.scaling.get (p.stepAt f t)) = length (p.path f t) := by
  have hscale : scale p.scaling.get (p.stepAt f t) = -p.path f t := by
    conv_rhs => rw [← scale_scale_inv h.scaling_ne_zero (v := p.path f t)]
    exact funext fun i => mul_neg _ _
  rw [hscale, length_neg]

theorem normalOf_stepAt (h : p.IsRegular f) (ht : 0 ≤ t) :
    normalOf f.ordered (scale p.scaling.get fun _ => √t) (p.stepAt f t) =
      f.orderedᵀ *ᵥ (-p.projected.get) := by
  have hsolution := shifted_dampedSolution h.eq_zero_of_scaledModel (p.scaledSlope f) ht
  change shifted _ t (p.path f t) = _ at hsolution
  rw [← scale_scale_inv h.scaling_ne_zero (v := p.path f t), Subproblem.scaledModel,
    shifted_scale h.scaling_ne_zero ht] at hsolution
  rw [stepAt, normalOf_neg, mulVec_neg]
  exact congrArg _
    (scale_injective (fun i => inv_ne_zero (h.scaling_ne_zero i)) hsolution)

/-- No other vector costs as little as the step with the same damping. -/
theorem cost_stepAt_lt (h : p.IsRegular f) (ht : 0 ≤ t) {y : Fin n → ℝ} (hne : y ≠ p.stepAt f t) :
    length (f.ordered *ᵥ p.stepAt f t + p.projected.get) ^ 2 +
        t * length (scale p.scaling.get (p.stepAt f t)) ^ 2 <
      length (f.ordered *ᵥ y + p.projected.get) ^ 2 + t * length (scale p.scaling.get y) ^ 2 := by
  have hchange : f.ordered *ᵥ (y - p.stepAt f t) ≠ 0 :=
    fun hzero => hne (sub_eq_zero.mp (h.eq_zero_of_ordered _ hzero))
  rw [← dampedCost_step ht, ← dampedCost_step ht, dampedCost_eq f.ordered _ _ (p.stepAt f t) y,
    h.normalOf_stepAt ht, sub_self, dotProduct_zero, mul_zero, add_zero]
  have hsquare := pow_pos (length_pos.mpr hchange) 2
  exact lt_add_of_pos_right _ (add_pos_of_pos_of_nonneg hsquare (sq_nonneg _))

/-- The best step for the linear model is the undamped one. -/
theorem eq_stepAt_zero (h : p.IsRegular f) {undamped : Fin n → ℝ}
    (minimal : ∀ y, length (f.ordered *ᵥ undamped + p.projected.get) ≤
      length (f.ordered *ᵥ y + p.projected.get)) : undamped = p.stepAt f 0 := by
  by_contra hne
  have hlt := h.cost_stepAt_lt le_rfl hne
  rw [zero_mul, zero_mul, add_zero, add_zero] at hlt
  exact (lt_of_pow_lt_pow_left₀ 2 (length_nonneg _) hlt).not_ge (minimal _)

section Root

variable (h : p.IsRegular f) (hroot : p.IsRoot f root)
include h hroot

theorem scaledSlope_ne_zero : p.scaledSlope f ≠ 0 := by
  intro hzero
  have hlength := hroot.length_eq
  rw [path, hzero, dampedSolution, mulVec_zero, length_zero] at hlength
  exact h.radius.ne hlength

theorem strictAntiOn_length_path : StrictAntiOn (fun t => length (p.path f t)) (Set.Ici 0) :=
  strictAntiOn_length_dampedSolution h.eq_zero_of_scaledModel (h.scaledSlope_ne_zero hroot)

theorem length_path_le_iff (ht : 0 ≤ t) : length (p.path f t) ≤ p.radius ↔ root ≤ t := by
  rw [← hroot.length_eq]
  exact (h.strictAntiOn_length_path hroot).le_iff_ge ht hroot.pos.le

theorem radius_le_length_path_iff (ht : 0 ≤ t) : p.radius ≤ length (p.path f t) ↔ t ≤ root := by
  rw [← hroot.length_eq]
  exact (h.strictAntiOn_length_path hroot).le_iff_ge hroot.pos.le ht

theorem length_path_eq_iff (ht : 0 ≤ t) : length (p.path f t) = p.radius ↔ t = root := by
  rw [le_antisymm_iff, h.length_path_le_iff hroot ht, h.radius_le_length_path_iff hroot ht,
    and_comm, ← le_antisymm_iff]

theorem root_le : root ≤ length (p.scaledSlope f) / p.radius := by
  rw [le_div_iff₀ h.radius, ← hroot.length_eq]
  exact mul_length_le_of_shifted (shifted_dampedSolution h.eq_zero_of_scaledModel _ hroot.pos.le)

/-- A Newton correction, computed with whatever triangle has the square of the damped model, does
not go beyond the root. -/
theorem newton_le {s : Matrix (Fin n) (Fin n) ℝ} {r : Fin n → ℝ} {scaled w : Vec ℝ n}
    (ht : 0 ≤ t) (hscaled : scaled.get = p.path f t)
    (hd : Damps f.r.toMatrix (f.permute (scale p.scaling.get fun _ => √t)) p.projected.get s r)
    (hw : sᵀ *ᵥ w.get = (p.direction f.permutation scaled (norm scaled)).get) :
    t + p.newton (norm scaled - p.radius) w ≤ root ∧
      (p.radius < norm scaled → 0 < p.newton (norm scaled - p.radius) w) := by
  set e : Fin n → ℝ := fun i => scaled i / norm scaled with he
  rw [p.direction_get] at hw
  obtain ⟨y, hy, hlength⟩ := h.models.exists_normalOf h.regular hd hw
  have hz : shifted (p.scaledModel f) t (scale p.scaling.get y) = e := by
    rw [Subproblem.scaledModel, shifted_scale h.scaling_ne_zero ht, hy,
      scale_inv_scale h.scaling_ne_zero]
  have hdot : y ⬝ᵥ scale p.scaling.get e = scale p.scaling.get y ⬝ᵥ e := by
    refine Finset.sum_congr rfl fun i _ => ?_
    unfold scale
    ring
  have hnorm : norm scaled = length (p.path f t) := by rw [norm_eq_length, hscaled]
  have hunit : e = (length (p.path f t))⁻¹ • p.path f t := by
    rw [← hnorm, ← hscaled]
    exact funext fun i => div_eq_inv_mul _ _
  obtain ⟨hpos, hle⟩ := newton_le_dampedSolution h.eq_zero_of_scaledModel
    (h.scaledSlope_ne_zero hroot) ht hroot.pos.le hunit hz
  have hnewton : p.newton (norm scaled - p.radius) w =
      (norm scaled - p.radius) / p.radius / (scale p.scaling.get y ⬝ᵥ e) := by
    unfold newton
    dsimp only
    rw [div_div, ← pow_two, norm_eq_length w, length_sq, hlength, hdot]
  change (length (p.path f t) - length (p.path f root)) / length (p.path f root) ≤ _ at hle
  rw [hroot.length_eq, ← hnorm, ← div_le_iff₀ hpos, ← hnewton] at hle
  refine ⟨by linarith, fun hlong => ?_⟩
  rw [hnewton]
  exact div_pos (div_pos (sub_pos.mpr hlong) h.radius) hpos

end Root

end IsRegular

end Subproblem

/-- What holds before every pass of a search: the bracket contains the root and the damping. -/
structure SearchState.Brackets (p : Subproblem ℝ n) (f : Triangular ℝ m n) (root : ℝ)
    (s : SearchState ℝ m n) : Prop where
  r_eq : s.factor.r = f.r
  permutation_eq : s.factor.permutation = f.permutation
  lower_pos : 0 < s.lower
  lower_le_root : s.lower ≤ root
  root_le_upper : root ≤ s.upper
  lower_le_damping : s.lower ≤ s.damping
  damping_le_upper : s.damping ≤ s.upper

namespace SearchState

variable {f : Triangular ℝ m n} {p : Subproblem ℝ n} {root : ℝ} {s : SearchState ℝ m n}

theorem damping_solve (hs : 0 < s.damping) : (s.solve p).damping = s.damping := by
  have hne : ¬s.damping == 0 := by simpa using hs.ne'
  exact if_neg hne

theorem lower_next (hs : 0 < s.damping) :
    (s.next p).lower = if 0 < (s.solve p).excess then max s.lower s.damping else s.lower := by
  rw [← Arith.maxNum_real, ← damping_solve hs]
  rfl

theorem upper_next (hs : 0 < s.damping) :
    (s.next p).upper = if (s.solve p).excess < 0 then min s.upper s.damping else s.upper := by
  rw [← Arith.minNum_real, ← damping_solve hs]
  rfl

theorem damping_next (hs : 0 < s.damping) :
    (s.next p).damping = max (s.next p).lower (s.damping + s.correction p) := by
  rw [← Arith.maxNum_real, ← damping_solve hs]
  rfl

theorem scaled_solve (h : p.IsRegular s.factor) (hs : 0 < s.damping) :
    (s.solve p).scaled.get = p.path s.factor s.damping := by
  have hstep : s.factor.IsStep p.scaling p.projected (s.solve p).damping
      ((s.solve p).solved.solution.map (-·)) :=
    Triangular.solveDamped_isStep h.injective _ _ _ _
  rw [damping_solve hs] at hstep
  exact (p.get_scaled _).trans (h.scale_eq_path hs.le hstep)

namespace Brackets

variable (hs : s.Brackets p f root)
include hs

theorem damping_pos : 0 < s.damping :=
  hs.lower_pos.trans_le hs.lower_le_damping

variable (h : p.IsRegular f)
include h

theorem isRegular : p.IsRegular s.factor :=
  h.congr hs.r_eq hs.permutation_eq

theorem length_solve : (s.solve p).length = length (p.path f s.damping) := by
  have hscaled := scaled_solve (hs.isRegular h) hs.damping_pos
  rw [Subproblem.path_congr hs.r_eq hs.permutation_eq] at hscaled
  rw [← hscaled]
  exact norm_eq_length _

variable (hroot : p.IsRoot f root)
include hroot

theorem excess_pos_iff : 0 < (s.solve p).excess ↔ s.damping < root := by
  change 0 < (s.solve p).length - p.radius ↔ _
  rw [sub_pos, hs.length_solve h, ← not_le, h.length_path_le_iff hroot hs.damping_pos.le, not_le]

theorem excess_neg_iff : (s.solve p).excess < 0 ↔ root < s.damping := by
  change (s.solve p).length - p.radius < 0 ↔ _
  rw [sub_neg, hs.length_solve h, ← not_le, h.radius_le_length_path_iff hroot hs.damping_pos.le,
    not_le]

/-- The Newton correction of a pass does not go beyond the root. -/
theorem add_correction_le : s.damping + s.correction p ≤ root := by
  have hregular := hs.isRegular h
  have hroot' : p.IsRoot s.factor root := by
    refine ⟨hroot.pos, ?_⟩
    rw [Subproblem.path_congr hs.r_eq hs.permutation_eq]
    exact hroot.length_eq
  obtain ⟨r, hd, -⟩ :=
    s.factor.solveDamped_solves (s.solve p).weights p.projected s.buffers.diagonal
  have hweights : (fun c => (s.solve p).weights (s.factor.permutation c)) =
      s.factor.permute (scale p.scaling.get fun _ => √s.damping) := by
    funext c
    refine (Vec.map_apply _ p.scaling _).trans ?_
    change _ * √(s.solve p).damping = _
    rw [damping_solve hs.damping_pos]
    rfl
  rw [hweights] at hd
  exact (hregular.newton_le hroot' hs.damping_pos.le (scaled_solve hregular hs.damping_pos) hd
    ((s.solve p).solved.factor.solveDampedTranspose_solves _ _
      (hregular.regular.diagonal_ne_zero _ _ _))).1

theorem correction_nonneg (hle : s.damping ≤ root) : 0 ≤ s.correction p := by
  refine Subproblem.zero_le_newton h.radius ?_ _
  rw [← not_lt, hs.excess_neg_iff h hroot, not_lt]
  exact hle

theorem lower_next_le : (s.next p).lower ≤ root := by
  rw [lower_next hs.damping_pos]
  split
  · rename_i hlong
    exact max_le hs.lower_le_root ((hs.excess_pos_iff h hroot).mp hlong).le
  · exact hs.lower_le_root

/-- A corrected damping does not exceed the root. -/
theorem damping_next_le : (s.next p).damping ≤ root := by
  rw [damping_next hs.damping_pos]
  exact max_le (hs.lower_next_le h hroot) (hs.add_correction_le h hroot)

theorem le_upper_next : root ≤ (s.next p).upper := by
  rw [upper_next hs.damping_pos]
  split
  · rename_i hshort
    exact le_min hs.root_le_upper ((hs.excess_neg_iff h hroot).mp hshort).le
  · exact hs.root_le_upper

theorem next : (s.next p).Brackets p f root := by
  have hraised : s.lower ≤ (s.next p).lower := s.lower_le_corrected p _
  have habove : (s.next p).lower ≤ (s.next p).damping := s.lower_le_damping_corrected p _
  exact {
    r_eq := (s.factor.r_solveDamped _ _ _).trans hs.r_eq
    permutation_eq := hs.permutation_eq
    lower_pos := hs.lower_pos.trans_le hraised
    lower_le_root := hs.lower_next_le h hroot
    root_le_upper := hs.le_upper_next h hroot
    lower_le_damping := habove
    damping_le_upper := (hs.damping_next_le h hroot).trans (hs.le_upper_next h hroot) }

/-- From below the root, a correction raises the damping. -/
theorem damping_le_next (hle : s.damping ≤ root) : s.damping ≤ (s.next p).damping := by
  rw [damping_next hs.damping_pos]
  exact le_max_of_le_right (le_add_of_nonneg_right (hs.correction_nonneg h hroot hle))

theorem after (k : Nat) : (s.after p k).Brackets p f root := by
  induction k with
  | zero => exact hs
  | succ k ih =>
    rw [after_succ]
    exact ih.next h hroot

theorem damping_after_le {k : Nat} (hk : 0 < k) : (s.after p k).damping ≤ root := by
  obtain ⟨j, rfl⟩ := Nat.exists_eq_succ_of_ne_zero hk.ne'
  rw [after_succ]
  exact (hs.after h hroot j).damping_next_le h hroot

theorem damping_after_le_succ {k : Nat} (hk : 0 < k) :
    (s.after p k).damping ≤ (s.after p (k + 1)).damping := by
  rw [after_succ]
  exact (hs.after h hroot k).damping_le_next h hroot (hs.damping_after_le h hroot hk)

end Brackets

end SearchState

namespace Subproblem

variable {f : Triangular ℝ m n} {p : Subproblem ℝ n} {root : ℝ}

theorem IsRegular.upperBound_eq (h : p.IsRegular f) (hroot : p.IsRoot f root) :
    p.upperBound (norm (p.scaledGradient f)) = length (p.scaledSlope f) / p.radius := by
  have hslope : norm (p.scaledGradient f) = length (p.scaledSlope f) := by
    rw [h.models.norm_scaledGradient]
    exact congrArg length (funext fun i => div_eq_inv_mul _ _)
  have hpos := hroot.pos.trans_le (h.root_le hroot)
  unfold upperBound
  dsimp only
  rw [hslope, if_neg (by simpa using hpos.ne')]

/-- The lower bound is the Newton correction of the undamped step. -/
theorem IsRegular.lowerBound_le (h : p.IsRegular f) (hroot : p.IsRoot f root) {scaled : Vec ℝ n}
    (hscaled : scaled.get = p.path f 0) (hlong : p.radius < norm scaled) :
    0 < p.lowerBound f scaled (norm scaled) (norm scaled - p.radius) ∧
      p.lowerBound f scaled (norm scaled) (norm scaled - p.radius) ≤ root := by
  have hd : Damps f.r.toMatrix (f.permute (scale p.scaling.get fun _ => √0)) p.projected.get
      f.r.toMatrix p.projected.get := by
    have hzero : f.permute (scale p.scaling.get fun _ => √0) = fun _ => 0 := by
      funext c
      simp [Triangular.permute, scale]
    rw [hzero]
    exact Damps.refl f.isUpper_r _
  obtain ⟨hle, hpos⟩ := h.newton_le hroot le_rfl hscaled hd
    (f.solveTranspose_solves _ h.regular.square_ne_zero)
  rw [zero_add] at hle
  unfold lowerBound
  rw [if_pos h.regular.le_rank]
  exact ⟨hpos hlong, hle⟩

/-- A search for a step that is too long starts with a bracket. -/
theorem IsRegular.search_eq_run (h : p.IsRegular f) (hroot : p.IsRoot f root)
    (tuning : p.tuning.error? = none)
    (hlong : (1 + p.tuning.searchTolerance) * p.radius < length (p.path f 0)) (estimate : ℝ)
    (oldStep : Vec ℝ n) (buffers : SearchBuffers ℝ n) :
    ∃ s : SearchState ℝ m n, s.Brackets p f root ∧ s.passes = 0 ∧ s.log = [] ∧
      p.search f estimate oldStep buffers =
        SearchState.run p (p.tuning.maxSearchPasses - 1) s := by
  let scaled := p.scaled (p.undamped f oldStep)
  let s := p.started f estimate scaled buffers
  have hposed : p.IsPosed f := ⟨h.injective, h.scaling, h.radius, tuning⟩
  have hscaled : scaled.get = p.path f 0 := (p.get_scaled _).trans
    (h.scale_eq_path le_rfl (Triangular.solveLeading_isStep h.injective _ _ _))
  rw [← hscaled, ← norm_eq_length] at hlong
  rcases hposed.search_cases estimate oldStep buffers with ⟨hshort, -⟩ | ⟨hradius, hsearch⟩
  · exact absurd hshort hlong.not_ge
  obtain ⟨hpos, hle⟩ := h.lowerBound_le hroot hscaled hradius
  have hupper : root ≤ s.upper := (h.root_le hroot).trans_eq (h.upperBound_eq hroot).symm
  have hclamped : Arith.minNum (Arith.maxNum estimate s.lower) s.upper =
      min (max estimate s.lower) s.upper := by
    rw [Arith.maxNum_real, Arith.minNum_real]
  have habove : s.lower ≤ min (max estimate s.lower) s.upper :=
    le_min (le_max_right _ _) (hle.trans hupper)
  have hstart : s.damping = min (max estimate s.lower) s.upper := by
    refine (if_neg ?_).trans hclamped
    change ¬(Arith.minNum (Arith.maxNum estimate s.lower) s.upper == 0) = true
    rw [hclamped]
    simpa using (hpos.trans_le habove).ne'
  refine ⟨s, ⟨rfl, rfl, hpos, hle, hupper, ?_, ?_⟩, rfl, rfl, hsearch⟩
  · rw [hstart]
    exact habove
  · rw [hstart]
    exact min_le_right _ _

/-- With a regular factor and an undamped step that is too long, there is one positive damping, the
root, whose step has the length of the radius. In every pass of the search the bracket contains the
root and the damping. From the second pass on the damping does not exceed the root, so that no step
is shorter than the radius, and the damping does not fall. -/
theorem search_brackets_root (f : Triangular ℝ m n)
    (permutation : Function.Injective f.permutation.get)
    (regular : ∀ j, Arith.epsilon < |f.r j j|) (p : Subproblem ℝ n)
    (scaling : ∀ i, 0 < p.scaling i) (radius : 0 < p.radius) (tuning : p.tuning.error? = none)
    (estimate : ℝ) (oldStep : Vec ℝ n) (buffers : SearchBuffers ℝ n)
    (undamped : Fin n → ℝ)
    (minimal : ∀ y, length (f.ordered *ᵥ undamped + p.projected.get) ≤
      length (f.ordered *ᵥ y + p.projected.get))
    (long : (1 + p.tuning.searchTolerance) * p.radius < length (scale p.scaling.get undamped)) :
    let d := p.scaling.get
    let cost (t : ℝ) (y : Fin n → ℝ) : ℝ :=
      length (f.ordered *ᵥ y + p.projected.get) ^ 2 + t * length (scale d y) ^ 2
    let out := p.search f estimate oldStep buffers
    ∃ (x : ℝ → Fin n → ℝ) (root : ℝ) (damping lower upper : ℕ → ℝ),
      (∀ t, 0 ≤ t → ∀ y, y ≠ x t → cost t (x t) < cost t y) ∧
      0 < root ∧ (∀ t, 0 ≤ t → (length (scale d (x t)) - p.radius = 0 ↔ t = root)) ∧
      0 < out.passes ∧
      out.log = ((List.range out.passes).map fun k =>
        .searchPass (k + 1) (damping k) (length (scale d (x (damping k)))) (lower k) (upper k)) ∧
      (∀ k < out.passes, 0 < lower k ∧ lower k ≤ root ∧ root ≤ upper k ∧
        lower k ≤ damping k ∧ damping k ≤ upper k) ∧
      (∀ k < out.passes, 0 < k →
        damping k ≤ root ∧ p.radius ≤ length (scale d (x (damping k)))) ∧
      ∀ k, 0 < k → k + 1 < out.passes → damping k ≤ damping (k + 1) := by
  intro d cost out
  have h : p.IsRegular f := ⟨permutation, regular, scaling, radius⟩
  have tolerance := Tuning.searchTolerance_pos tuning
  rw [h.eq_stepAt_zero minimal, h.length_scale_stepAt] at long
  obtain ⟨root, hpos, hlength⟩ := exists_damping_of_length h.eq_zero_of_scaledModel radius
    ((by linarith [mul_pos tolerance radius] : p.radius < _).trans long)
  have hroot : p.IsRoot f root := ⟨hpos, hlength⟩
  obtain ⟨s, hs, hpasses, hlog, hsearch⟩ :=
    h.search_eq_run hroot tuning long estimate oldStep buffers
  obtain ⟨hcount, hrecords⟩ := s.log_run p hpasses hlog (p.tuning.maxSearchPasses - 1)
  rw [← hsearch] at hcount hrecords
  have hbrackets := hs.after h hroot
  refine ⟨p.stepAt f, root, fun k => (s.after p k).damping, fun k => (s.after p k).lower,
    fun k => (s.after p k).upper, fun t ht y hne => h.cost_stepAt_lt ht hne, hpos, fun t ht => ?_,
    hcount, ?_, fun k _ => ?_, fun k _ hk => ?_, fun k hk _ => ?_⟩
  · rw [h.length_scale_stepAt, sub_eq_zero]
    exact h.length_path_eq_iff hroot ht
  · rw [hrecords]
    refine List.map_congr_left fun k _ => ?_
    rw [SearchState.record, SearchState.passes_after, hpasses, Nat.zero_add,
      SearchState.damping_solve (hbrackets k).damping_pos, (hbrackets k).length_solve h,
      h.length_scale_stepAt]
  · exact ⟨(hbrackets k).lower_pos, (hbrackets k).lower_le_root, (hbrackets k).root_le_upper,
      (hbrackets k).lower_le_damping, (hbrackets k).damping_le_upper⟩
  · have hle := hs.damping_after_le h hroot hk
    rw [h.length_scale_stepAt, h.radius_le_length_path_iff hroot (hbrackets k).damping_pos.le]
    exact ⟨hle, hle⟩
  · exact hs.damping_after_le_succ h hroot hk

/-- Two orthonormal columns in exchanged order, with old entries below the diagonal, and a best step
for the linear model that is more than seven times as long as the radius. -/
theorem search_brackets_root_exchanged :
    let f : Triangular ℝ 3 2 :=
      ⟨.ofFn fun i j => if j.val < i.val then 7 else if i.val = j.val then 1 else 0,
        .ofFn Fin.rev, by decide⟩
    let p : Subproblem ℝ 2 :=
      { scaling := .ofFn ![1, 2], projected := .ofFn ![3, 4], radius := 1, tuning := .standard }
    let d := p.scaling.get
    let cost (t : ℝ) (y : Fin 2 → ℝ) : ℝ :=
      length (f.ordered *ᵥ y + p.projected.get) ^ 2 + t * length (scale d y) ^ 2
    let out := p.search f 5 (.fill 2 0) ⟨.fill 2 0, .fill 2 0, .fill 2 0⟩
    (1 + p.tuning.searchTolerance) * p.radius < length (scale d ![-4, -3]) ∧
    ∃ (x : ℝ → Fin 2 → ℝ) (root : ℝ) (damping lower upper : ℕ → ℝ),
      (∀ t, 0 ≤ t → ∀ y, y ≠ x t → cost t (x t) < cost t y) ∧
      0 < root ∧ (∀ t, 0 ≤ t → (length (scale d (x t)) - p.radius = 0 ↔ t = root)) ∧
      0 < out.passes ∧
      out.log = ((List.range out.passes).map fun k =>
        .searchPass (k + 1) (damping k) (length (scale d (x (damping k)))) (lower k) (upper k)) ∧
      (∀ k < out.passes, 0 < lower k ∧ lower k ≤ root ∧ root ≤ upper k ∧
        lower k ≤ damping k ∧ damping k ≤ upper k) ∧
      (∀ k < out.passes, 0 < k →
        damping k ≤ root ∧ p.radius ≤ length (scale d (x (damping k)))) ∧
      ∀ k, 0 < k → k + 1 < out.passes → damping k ≤ damping (k + 1) := by
  intro f p d cost
  have hget : f.permutation.get = Fin.rev := funext (Vec.ofFn_apply _)
  have permutation : Function.Injective f.permutation.get := by
    rw [hget]
    exact Fin.rev_injective
  have hentry (i j : Fin 2) : f.r i j = if i = j then 1 else 0 := by
    fin_cases i <;> fin_cases j <;> simp [f, Triangular.r]
  have regular (j : Fin 2) : Arith.epsilon < |f.r j j| := by
    rw [hentry, if_pos rfl, abs_one]
    exact Arith.epsilon_lt_one
  have hscaling : p.scaling.get = ![1, 2] := funext (Vec.ofFn_apply _)
  have scaling (i : Fin 2) : 0 < p.scaling i := by
    rw [hscaling]
    fin_cases i <;> norm_num
  have hsolves : f.ordered *ᵥ ![-4, -3] + p.projected.get = 0 := by
    have hidentity : f.r.toMatrix = 1 := Matrix.ext hentry
    have hprojected : p.projected.get = ![3, 4] := funext (Vec.ofFn_apply _)
    rw [f.ordered_mulVec, hidentity, one_mulVec, hprojected]
    funext c
    change ![-4, -3] (f.permutation.get c) + _ = (0 : ℝ)
    rw [hget]
    fin_cases c <;> norm_num [Fin.rev]
  have minimal (y : Fin 2 → ℝ) : length (f.ordered *ᵥ ![-4, -3] + p.projected.get) ≤
      length (f.ordered *ᵥ y + p.projected.get) := by
    rw [hsolves, length_zero]
    exact length_nonneg _
  have long : (1 + p.tuning.searchTolerance) * p.radius < length (scale d ![-4, -3]) := by
    change (1 + 0.1) * (1 : ℝ) < length (scale p.scaling.get _)
    rw [hscaling, length_eq_sqrt, dotProduct, Fin.sum_univ_two]
    refine Real.lt_sqrt_of_sq_lt ?_
    norm_num [scale]
  exact ⟨long, search_brackets_root f permutation regular p scaling one_pos Tuning.error?_standard
    5 _ _ _ minimal long⟩

end Subproblem

end LeastSquares
