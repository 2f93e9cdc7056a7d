import LeastSquares.Arith.Expression
import LeastSquares.Proofs.BandedNorm

namespace LeastSquares

variable {α : Type}

def bandsAfter [Arith α] (xs : List α) (k : Nat) : Bands α :=
  (xs.take k).foldl (fun b x => b.add smallBound (largeBound xs.length) (Arith.abs x)) Bands.empty

/-- What is evaluated for the norm of a list: the limits of the bands, the magnitudes of the
components, what the bands hold at any time, the norm, and all that these are made of. -/
inductive IsEvaluated [Arith α] (xs : List (Expression α)) : Expression α → Prop
  | smallBound (h : xs ≠ []) : IsEvaluated xs smallBound
  | largeBound (h : xs ≠ []) : IsEvaluated xs (largeBound xs.length)
  | magnitude {x : Expression α} (h : x ∈ xs) : IsEvaluated xs (Arith.abs x)
  | large (k : Nat) : IsEvaluated xs (bandsAfter xs k).large
  | medium (k : Nat) : IsEvaluated xs (bandsAfter xs k).medium
  | small (k : Nat) : IsEvaluated xs (bandsAfter xs k).small
  | largest (k : Nat) : IsEvaluated xs (bandsAfter xs k).largest
  | largestSmall (k : Nat) : IsEvaluated xs (bandsAfter xs k).largestSmall
  | norm : IsEvaluated xs (bandedNorm xs)
  | part {e p : Expression α} (h : IsEvaluated xs e) (hp : p ∈ e.parts) : IsEvaluated xs p

section Steps

variable [Arith α]

theorem bandsAfter_succ {xs : List α} {k : Nat} (h : k < xs.length) :
    bandsAfter xs (k + 1) =
      (bandsAfter xs k).add smallBound (largeBound xs.length) (Arith.abs xs[k]) := by
  rw [bandsAfter, List.take_add_one, List.getElem?_eq_getElem h, List.foldl_append]
  rfl

theorem bandsAfter_of_length_le {xs : List α} {k : Nat} (h : xs.length ≤ k) :
    bandsAfter xs k = bandsAfter xs xs.length := by
  rw [bandsAfter, bandsAfter, List.take_of_length_le h, List.take_length]

theorem bandedNorm_eq_total {xs : List α} (h : xs ≠ []) :
    bandedNorm xs = (bandsAfter xs xs.length).total := by
  rw [bandedNorm, if_neg (by simpa using h), bandsAfter, List.take_length]

/-- A component changes the medium sum only by its square, and only if it is not small. -/
theorem Bands.medium_add (b : Bands α) (lower upper x : α) :
    (b.add lower upper x).medium = b.medium ∨
      lower < x ∧ (b.add lower upper x).medium = b.medium + x * x := by
  unfold add
  split
  · rename_i h
    exact Or.inr ⟨h.1, rfl⟩
  · left
    split
    · split
      · rfl
      · split <;> rfl
    · split <;> rfl

end Steps

namespace Bands

variable [Arith α]

def values (b : Bands (Expression α)) : Bands α :=
  ⟨b.large.value, b.medium.value, b.small.value, b.largest.value, b.largestSmall.value⟩

theorem values_add (b : Bands (Expression α)) (lower upper x : Expression α) :
    (b.add lower upper x).values = b.values.add lower.value upper.value x.value := by
  simp only [add, Expression.lt_iff, Expression.le_iff, Expression.beq_eq, apply_ite values]
  rfl

theorem values_foldl (b : Bands (Expression α)) (lower upper : Expression α)
    (xs : List (Expression α)) :
    (xs.foldl (fun b x => b.add lower upper (Arith.abs x)) b).values =
      (xs.map Expression.value).foldl (fun b x => b.add lower.value upper.value (Arith.abs x))
        b.values := by
  induction xs generalizing b with
  | nil => rfl
  | cons x xs ih =>
    rw [List.foldl_cons, ih, values_add]
    rfl

theorem value_total (b : Bands (Expression α)) : b.total.value = b.values.total := by
  simp only [total, Expression.le_iff, Expression.beq_eq, apply_ite Expression.value]
  rfl

end Bands

/-- The norm of expressions stands for the norm of their values. -/
theorem value_bandedNorm [Arith α] (xs : List (Expression α)) :
    (bandedNorm xs).value = bandedNorm (xs.map Expression.value) := by
  cases xs with
  | nil => rfl
  | cons x xs =>
    rw [bandedNorm, bandedNorm, if_neg (by simp), if_neg (by simp), Bands.value_total,
      Bands.values_foldl, List.length_map]
    rfl

theorem two_pow_le_maxFinite : (2 : ℝ) ^ 1023 ≤ Arith.maxFinite := by
  have hone : (2 : ℝ) ^ (-52 : ℤ) ≤ 1 := zpow_le_one_of_nonpos₀ one_le_two (by norm_num)
  exact le_mul_of_one_le_left (by positivity) (by linarith)

theorem two_le_maxFinite : (2 : ℝ) ≤ Arith.maxFinite :=
  (le_self_pow₀ one_le_two (by norm_num)).trans two_pow_le_maxFinite

theorem one_le_maxFinite : (1 : ℝ) ≤ Arith.maxFinite :=
  one_le_two.trans two_le_maxFinite

theorem maxFinite_nonneg : (0 : ℝ) ≤ Arith.maxFinite :=
  zero_le_one.trans one_le_maxFinite

namespace Expression

/-- Whether an expression and all that it is made of is finite, with no zero for a divisor and no
negative radicand. -/
def InRange : Expression ℝ → Prop
  | number x => |x| ≤ Arith.maxFinite
  | sum x y => x.InRange ∧ y.InRange ∧ |x.value + y.value| ≤ Arith.maxFinite
  | difference x y => x.InRange ∧ y.InRange ∧ |x.value - y.value| ≤ Arith.maxFinite
  | product x y => x.InRange ∧ y.InRange ∧ |x.value * y.value| ≤ Arith.maxFinite
  | quotient x y =>
    x.InRange ∧ y.InRange ∧ y.value ≠ 0 ∧ |x.value / y.value| ≤ Arith.maxFinite
  | negative x => x.InRange
  | magnitude x => x.InRange
  | root x => x.InRange ∧ 0 ≤ x.value

namespace InRange

variable {e x y : Expression ℝ}

theorem of_mem_parts {p : Expression ℝ} (h : e.InRange) (hp : p ∈ e.parts) : p.InRange := by
  induction e with
  | number x =>
    rw [List.mem_singleton.mp hp]
    exact h
  | sum x y hx hy | difference x y hx hy | product x y hx hy | quotient x y hx hy =>
    rcases List.mem_cons.mp hp with rfl | hp
    · exact h
    · rcases List.mem_append.mp hp with hp | hp
      · exact hx h.1 hp
      · exact hy h.2.1 hp
  | negative x hx | magnitude x hx =>
    rcases List.mem_cons.mp hp with rfl | hp
    · exact h
    · exact hx h hp
  | root x hx =>
    rcases List.mem_cons.mp hp with rfl | hp
    · exact h
    · exact hx h.1 hp

theorem sqrt_le_maxFinite {x : ℝ} (h : x ≤ Arith.maxFinite) : √x ≤ Arith.maxFinite := by
  refine Real.sqrt_le_iff.mpr ⟨maxFinite_nonneg, h.trans ?_⟩
  exact le_self_pow₀ one_le_maxFinite two_ne_zero

theorem abs_value_le (h : e.InRange) : |e.value| ≤ Arith.maxFinite := by
  induction e with
  | number x => exact h
  | sum x y | difference x y | product x y => exact h.2.2
  | quotient x y => exact h.2.2.2
  | negative x hx => exact (abs_neg x.value).trans_le (hx h)
  | magnitude x hx => exact (abs_abs x.value).trans_le (hx h)
  | root x hx =>
    change |√x.value| ≤ _
    rw [abs_of_nonneg (Real.sqrt_nonneg _)]
    exact sqrt_le_maxFinite (le_of_abs_le (hx h.1))

theorem value_le (h : e.InRange) : e.value ≤ Arith.maxFinite :=
  le_of_abs_le h.abs_value_le

/-- All that the norm evaluates is nonnegative, so only the upper limit matters. -/
theorem add (hx : x.InRange) (hy : y.InRange) (hnonneg : 0 ≤ x.value + y.value)
    (hle : x.value + y.value ≤ Arith.maxFinite) : (x + y).InRange :=
  ⟨hx, hy, (abs_of_nonneg hnonneg).trans_le hle⟩

theorem mul (hx : x.InRange) (hy : y.InRange) (hnonneg : 0 ≤ x.value * y.value)
    (hle : x.value * y.value ≤ Arith.maxFinite) : (x * y).InRange :=
  ⟨hx, hy, (abs_of_nonneg hnonneg).trans_le hle⟩

theorem div (hx : x.InRange) (hy : y.InRange) (hne : y.value ≠ 0)
    (hnonneg : 0 ≤ x.value / y.value) (hle : x.value / y.value ≤ Arith.maxFinite) :
    (x / y).InRange :=
  ⟨hx, hy, hne, (abs_of_nonneg hnonneg).trans_le hle⟩

theorem sqrt (hx : x.InRange) (hnonneg : 0 ≤ x.value) : (Arith.sqrt x).InRange :=
  ⟨hx, hnonneg⟩

theorem one : (1 : Expression ℝ).InRange :=
  (abs_one (α := ℝ)).trans_le one_le_maxFinite

theorem zero : (0 : Expression ℝ).InRange :=
  (abs_zero (α := ℝ)).trans_le maxFinite_nonneg

end InRange

/-- Whether a partial sum of squares and the scale of its band are in range and not negative. -/
structure IsScaled (sum scale : Expression ℝ) : Prop where
  sum_inRange : sum.InRange
  scale_inRange : scale.InRange
  sum_nonneg : 0 ≤ sum.value
  scale_nonneg : 0 ≤ scale.value

namespace IsScaled

variable {sum scale x : Expression ℝ}

/-- The ratio of a magnitude to one that is at least as large. -/
theorem ratio {x y : Expression ℝ} (hx : x.InRange) (hy : y.InRange) (hnonneg : 0 ≤ x.value)
    (hpos : 0 < y.value) (hle : x.value ≤ y.value) :
    (x / y).InRange ∧ 0 ≤ (x / y).value ∧ (x / y).value ≤ 1 := by
  have hratio : 0 ≤ x.value / y.value := div_nonneg hnonneg hpos.le
  have hone : x.value / y.value ≤ 1 := div_le_one_of_le₀ hle hpos.le
  exact ⟨.div hx hy hpos.ne' hratio (hone.trans one_le_maxFinite), hratio, hone⟩

/-- A larger magnitude becomes the scale. -/
theorem rescale (h : IsScaled sum scale) (hx : x.InRange) (hlt : scale.value < x.value)
    (hmax : sum.value + 1 ≤ Arith.maxFinite) :
    IsScaled (1 + sum * (scale / x) * (scale / x)) x ∧
      (1 + sum * (scale / x) * (scale / x)).value ≤ sum.value + 1 := by
  have hpos : 0 < x.value := h.scale_nonneg.trans_lt hlt
  obtain ⟨hratio, hnonneg, hone⟩ := ratio h.scale_inRange hx h.scale_nonneg hpos hlt.le
  have honce : sum.value * (scale / x).value ≤ sum.value := mul_le_of_le_one_right h.sum_nonneg hone
  have honce_nonneg : 0 ≤ sum.value * (scale / x).value := mul_nonneg h.sum_nonneg hnonneg
  have htwice : sum.value * (scale / x).value * (scale / x).value ≤ sum.value :=
    (mul_le_of_le_one_right honce_nonneg hone).trans honce
  have htwice_nonneg : 0 ≤ sum.value * (scale / x).value * (scale / x).value :=
    mul_nonneg honce_nonneg hnonneg
  have hle : 1 + sum.value * (scale / x).value * (scale / x).value ≤ sum.value + 1 := by linarith
  have hproduct : (sum * (scale / x) * (scale / x)).InRange :=
    .mul (.mul h.sum_inRange hratio honce_nonneg (honce.trans h.sum_inRange.value_le)) hratio
      htwice_nonneg (htwice.trans h.sum_inRange.value_le)
  have hsum_nonneg : 0 ≤ 1 + sum.value * (scale / x).value * (scale / x).value := by linarith
  exact ⟨⟨.add .one hproduct hsum_nonneg (hle.trans hmax), hx, hsum_nonneg, hpos.le⟩, hle⟩

/-- A magnitude within the scale is added relative to it. -/
theorem add (h : IsScaled sum scale) (hx : x.InRange) (hpos : 0 < x.value)
    (hscale : x.value ≤ scale.value) (hmax : sum.value + 1 ≤ Arith.maxFinite) :
    IsScaled (sum + x / scale * (x / scale)) scale ∧
      (sum + x / scale * (x / scale)).value ≤ sum.value + 1 := by
  obtain ⟨hratio, hnonneg, hone⟩ := ratio hx h.scale_inRange hpos.le (hpos.trans_le hscale) hscale
  have hsquare : (x / scale).value * (x / scale).value ≤ 1 := mul_le_one₀ hone hnonneg hone
  have hsquare_nonneg : 0 ≤ (x / scale).value * (x / scale).value := mul_self_nonneg _
  have hle : sum.value + (x / scale).value * (x / scale).value ≤ sum.value + 1 := by linarith
  have hproduct : (x / scale * (x / scale)).InRange :=
    .mul hratio hratio hsquare_nonneg (hsquare.trans one_le_maxFinite)
  have hsum_nonneg : 0 ≤ sum.value + (x / scale).value * (x / scale).value :=
    add_nonneg h.sum_nonneg hsquare_nonneg
  have hsum : (sum + x / scale * (x / scale)).InRange :=
    .add h.sum_inRange hproduct hsum_nonneg (hle.trans hmax)
  exact ⟨⟨hsum, h.scale_inRange, hsum_nonneg, h.scale_nonneg⟩, hle⟩

end IsScaled

end Expression

structure AreLimits (lower upper : Expression ℝ) (count : ℕ) : Prop where
  pos : 0 < lower.value
  lower_le : lower.value ≤ 1
  lower_mul_le : lower.value * count ≤ 1
  one_le : 1 ≤ upper.value
  squares_le : count * upper.value ^ 2 ≤ Arith.maxFinite
  count_le : 2 * count ≤ (Arith.maxFinite : ℝ)

/-- The limits of the bands suit every number of components that a machine word holds. -/
theorem areLimits {count : ℕ} (hcount : count ≠ 0) (hword : count < 2 ^ 64) :
    AreLimits smallBound (largeBound count) count := by
  have hone : (1 : ℝ) ≤ count := Nat.one_le_cast.mpr (Nat.one_le_iff_ne_zero.mpr hcount)
  have hle : (count : ℝ) ≤ 2 ^ 64 := by exact_mod_cast hword.le
  have hmax : (2 : ℝ) ^ 1023 ≤ Arith.maxFinite := two_pow_le_maxFinite
  have hroot : (2 : ℝ) ^ 64 ≤ √Arith.maxFinite := by
    refine Real.le_sqrt_of_sq_le (le_trans ?_ hmax)
    rw [← pow_mul]
    exact pow_le_pow_right₀ one_le_two (by norm_num)
  have hlower : (smallBound : Expression ℝ).value = 2 ^ (-511 : ℤ) := smallBound_eq
  have hupper : (largeBound count : Expression ℝ).value = √Arith.maxFinite / count := rfl
  refine ⟨smallBound_pos, ?_, ?_, ?_, ?_, ?_⟩
  · rw [hlower]
    exact zpow_le_one_of_nonpos₀ one_le_two (by norm_num)
  · rw [hlower]
    calc (2 : ℝ) ^ (-511 : ℤ) * count
      _ ≤ 2 ^ (-511 : ℤ) * 2 ^ 64 := mul_le_mul_of_nonneg_left hle (zpow_nonneg zero_le_two _)
      _ = 2 ^ (-447 : ℤ) := by
        rw [← zpow_natCast, ← zpow_add₀ two_ne_zero]
        rfl
      _ ≤ 1 := zpow_le_one_of_nonpos₀ one_le_two (by norm_num)
  · rw [hupper]
    exact (one_le_div (by linarith)).mpr (hle.trans hroot)
  · rw [hupper, div_pow, Real.sq_sqrt maxFinite_nonneg, ← mul_div_assoc, mul_comm, pow_two,
      mul_div_mul_right _ _ (by linarith)]
    exact div_le_self maxFinite_nonneg hone
  · calc 2 * (count : ℝ)
      _ ≤ 2 * 2 ^ 64 := by linarith
      _ ≤ 2 ^ 1023 := by
        rw [← pow_succ']
        exact pow_le_pow_right₀ one_le_two (by norm_num)
      _ ≤ Arith.maxFinite := hmax

namespace Bands

open Expression (IsScaled)

/-- What the bands hold after `k` components: everything is in range, and the sums of squares leave
room for the components that are still to come. -/
structure InRange (lower upper : Expression ℝ) (k : ℕ) (b : Bands (Expression ℝ)) : Prop where
  large : IsScaled b.large b.largest
  medium : b.medium.InRange
  small : IsScaled b.small b.largestSmall
  medium_nonneg : 0 ≤ b.medium.value
  large_le : b.large.value ≤ k
  small_le : b.small.value ≤ k
  squares_le : b.medium.value + b.small.value * lower.value ^ 2 ≤ k * upper.value ^ 2
  largestSmall_le : b.largestSmall.value ≤ lower.value
  le_largest : b.large.value ≠ 0 → upper.value ≤ b.largest.value

namespace InRange

variable {lower upper : Expression ℝ} {b : Bands (Expression ℝ)} {k count : ℕ}

theorem empty (h : AreLimits lower upper count) :
    (Bands.empty : Bands (Expression ℝ)).InRange lower upper 0 where
  large := ⟨.zero, .zero, le_rfl, le_rfl⟩
  medium := .zero
  small := ⟨.zero, .zero, le_rfl, le_rfl⟩
  medium_nonneg := le_rfl
  large_le := Nat.cast_nonneg _
  small_le := Nat.cast_nonneg _
  squares_le := by simp [Bands.empty]
  largestSmall_le := h.pos.le
  le_largest hne := absurd rfl hne

variable (h : b.InRange lower upper k)
include h

theorem succ : b.InRange lower upper (k + 1) := by
  have hnext : (k : ℝ) ≤ (k + 1 : ℕ) := by exact_mod_cast k.le_succ
  refine ⟨h.large, h.medium, h.small, h.medium_nonneg, h.large_le.trans hnext,
    h.small_le.trans hnext, h.squares_le.trans ?_, h.largestSmall_le, h.le_largest⟩
  exact mul_le_mul_of_nonneg_right hnext (sq_nonneg _)

theorem add_large {sum scale : Expression ℝ} (hscaled : IsScaled sum scale)
    (hsum : sum.value ≤ b.large.value + 1) (hscale : upper.value ≤ scale.value) :
    InRange lower upper (k + 1) { b with large := sum, largest := scale } := by
  obtain ⟨-, hmedium, hsmall, hnonneg, -, hle, hsquares, hlargestSmall, -⟩ := h.succ
  refine ⟨hscaled, hmedium, hsmall, hnonneg, ?_, hle, hsquares, hlargestSmall, fun _ => hscale⟩
  push_cast
  linarith [h.large_le]

theorem add_small (hlimits : lower.value ^ 2 ≤ upper.value ^ 2) {sum scale : Expression ℝ}
    (hscaled : IsScaled sum scale) (hsum : sum.value ≤ b.small.value + 1)
    (hscale : scale.value ≤ lower.value) :
    InRange lower upper (k + 1) { b with small := sum, largestSmall := scale } := by
  obtain ⟨hlarge, hmedium, -, hnonneg, hle, -, -, -, hlargest⟩ := h.succ
  have hsquare := mul_le_mul_of_nonneg_right hsum (sq_nonneg lower.value)
  refine ⟨hlarge, hmedium, hscaled, hnonneg, hle, ?_, ?_, hscale, hlargest⟩
  · push_cast
    linarith [h.small_le]
  · push_cast
    linarith [h.squares_le]

theorem add_medium (hmax : (k + 1 : ℕ) * upper.value ^ 2 ≤ Arith.maxFinite) {x : Expression ℝ}
    (hx : x.InRange) (hnonneg : 0 ≤ x.value) (hupper : x.value ≤ upper.value) :
    InRange lower upper (k + 1) { b with medium := b.medium + x * x } := by
  have hsquare : x.value * x.value ≤ upper.value ^ 2 := by
    rw [pow_two]
    exact mul_self_le_mul_self hnonneg hupper
  have hsquare_nonneg : 0 ≤ x.value * x.value := mul_self_nonneg _
  have hsmall : 0 ≤ b.small.value * lower.value ^ 2 :=
    mul_nonneg h.small.sum_nonneg (sq_nonneg _)
  have hsquares : b.medium.value + x.value * x.value + b.small.value * lower.value ^ 2 ≤
      (k + 1 : ℕ) * upper.value ^ 2 := by
    push_cast
    linarith [h.squares_le]
  have hmedium_nonneg : 0 ≤ b.medium.value + x.value * x.value :=
    add_nonneg h.medium_nonneg hsquare_nonneg
  have hmedium_le : b.medium.value + x.value * x.value ≤ Arith.maxFinite := by linarith
  have hproduct : (x * x).InRange :=
    .mul hx hx hsquare_nonneg ((le_add_of_nonneg_left h.medium_nonneg).trans hmedium_le)
  obtain ⟨hlarge, -, hscaled, -, hlarge_le, hsmall_le, -, hlargestSmall, hlargest⟩ := h.succ
  exact ⟨hlarge, .add h.medium hproduct hmedium_nonneg hmedium_le, hscaled, hmedium_nonneg,
    hlarge_le, hsmall_le, hsquares, hlargestSmall, hlargest⟩

/-- A component of any band keeps the bands in range. -/
theorem add (limits : AreLimits lower upper count) (hk : k < count) {x : Expression ℝ}
    (hx : x.InRange) (hnonneg : 0 ≤ x.value) :
    (b.add lower upper x).InRange lower upper (k + 1) := by
  have hnext : ((k + 1 : ℕ) : ℝ) ≤ count := Nat.cast_le.mpr hk
  have hroom {sum : ℝ} (hsum : sum ≤ k) : sum + 1 ≤ Arith.maxFinite := by
    push_cast at hnext
    linarith [limits.count_le, (Nat.cast_nonneg count : (0 : ℝ) ≤ count)]
  have hlimits : lower.value ^ 2 ≤ upper.value ^ 2 :=
    pow_le_pow_left₀ limits.pos.le (limits.lower_le.trans limits.one_le) 2
  unfold Bands.add
  split
  · rename_i hmedium
    have hupper : x.value < upper.value := hmedium.2
    have hmax := (mul_le_mul_of_nonneg_right hnext (sq_nonneg upper.value)).trans limits.squares_le
    exact h.add_medium hmax hx hnonneg hupper.le
  rename_i hmedium
  split
  · rename_i hlower
    have hlower : x.value ≤ lower.value := hlower
    split
    · rename_i hlarger
      obtain ⟨hscaled, hsum⟩ := h.small.rescale hx hlarger (hroom h.small_le)
      exact h.add_small hlimits hscaled hsum hlower
    rename_i hlarger
    split
    · exact h.succ
    · rename_i hzero
      rw [Expression.beq_eq] at hzero
      have hpos : 0 < x.value := hnonneg.lt_of_ne' (by simpa using hzero)
      obtain ⟨hscaled, hsum⟩ := h.small.add hx hpos (not_lt.mp hlarger) (hroom h.small_le)
      exact h.add_small hlimits hscaled hsum h.largestSmall_le
  · rename_i hlower
    have hlower : lower.value < x.value := not_le.mp hlower
    have hupper : upper.value ≤ x.value := not_lt.mp fun hlt => hmedium ⟨hlower, hlt⟩
    split
    · rename_i hlarger
      obtain ⟨hscaled, hsum⟩ := h.large.rescale hx hlarger (hroom h.large_le)
      exact h.add_large hscaled hsum hupper
    · rename_i hlarger
      have hle : x.value ≤ b.largest.value := not_lt.mp hlarger
      obtain ⟨hscaled, hsum⟩ := h.large.add hx (limits.pos.trans hlower) hle (hroom h.large_le)
      exact h.add_large hscaled hsum (hupper.trans hle)

/-- What is under the root on the scale of the large components. -/
theorem sqrt_large (limits : AreLimits lower upper count) (hk : k ≤ count)
    (hlarge : b.large.value ≠ 0) :
    (Arith.sqrt (b.large + b.medium / b.largest / b.largest)).InRange := by
  have hcount : (k : ℝ) ≤ count := Nat.cast_le.mpr hk
  have hupper : upper.value ≤ b.largest.value := h.le_largest hlarge
  have hone : 1 ≤ b.largest.value := limits.one_le.trans hupper
  have hpos : 0 < b.largest.value := one_pos.trans_le hone
  have honce_nonneg : 0 ≤ b.medium.value / b.largest.value := div_nonneg h.medium_nonneg hpos.le
  have honce : (b.medium / b.largest).InRange :=
    .div h.medium h.large.scale_inRange hpos.ne' honce_nonneg
      ((div_le_self h.medium_nonneg hone).trans h.medium.value_le)
  have htwice_nonneg : 0 ≤ b.medium.value / b.largest.value / b.largest.value :=
    div_nonneg honce_nonneg hpos.le
  have htwice_le : b.medium.value / b.largest.value / b.largest.value ≤ count := by
    have hsmall : 0 ≤ b.small.value * lower.value ^ 2 :=
      mul_nonneg h.small.sum_nonneg (sq_nonneg _)
    have hsquare : upper.value ^ 2 ≤ b.largest.value ^ 2 :=
      pow_le_pow_left₀ (zero_le_one.trans limits.one_le) hupper 2
    rw [div_div, ← pow_two, div_le_iff₀ (pow_pos hpos 2)]
    calc b.medium.value
      _ ≤ k * upper.value ^ 2 := by linarith [h.squares_le]
      _ ≤ count * b.largest.value ^ 2 :=
        mul_le_mul hcount hsquare (sq_nonneg _) (Nat.cast_nonneg _)
  have htwice : (b.medium / b.largest / b.largest).InRange :=
    .div honce h.large.scale_inRange hpos.ne' htwice_nonneg
      (htwice_le.trans (by linarith [limits.count_le, (Nat.cast_nonneg k : (0 : ℝ) ≤ k)]))
  have hsum_nonneg : 0 ≤ b.large.value + b.medium.value / b.largest.value / b.largest.value :=
    add_nonneg h.large.sum_nonneg htwice_nonneg
  have hsum_le : b.large.value + b.medium.value / b.largest.value / b.largest.value ≤
      Arith.maxFinite := by
    linarith [limits.count_le, h.large_le]
  exact .sqrt (.add h.large.sum_inRange htwice hsum_nonneg hsum_le) hsum_nonneg

/-- The small sum on its scale is a number below one. -/
theorem mul_small (limits : AreLimits lower upper count) (hk : k ≤ count) :
    (b.largestSmall * b.small).InRange ∧ 0 ≤ b.largestSmall.value * b.small.value ∧
      b.largestSmall.value * b.small.value ≤ 1 := by
  have hcount : (k : ℝ) ≤ count := Nat.cast_le.mpr hk
  have hsmall := h.small
  have hnonneg : 0 ≤ b.largestSmall.value * b.small.value :=
    mul_nonneg hsmall.scale_nonneg hsmall.sum_nonneg
  have hle : b.largestSmall.value * b.small.value ≤ 1 :=
    (mul_le_mul h.largestSmall_le (h.small_le.trans hcount) hsmall.sum_nonneg limits.pos.le).trans
      limits.lower_mul_le
  exact ⟨.mul hsmall.scale_inRange hsmall.sum_inRange hnonneg (hle.trans one_le_maxFinite),
    hnonneg, hle⟩

/-- The sum of all squares that are not large. -/
theorem squares (limits : AreLimits lower upper count) (hk : k ≤ count) :
    0 ≤ b.medium.value + b.largestSmall.value ^ 2 * b.small.value ∧
      b.medium.value + b.largestSmall.value ^ 2 * b.small.value ≤ Arith.maxFinite := by
  have hcount : (k : ℝ) ≤ count := Nat.cast_le.mpr hk
  have hsmall := h.small
  have hscale : b.largestSmall.value ^ 2 ≤ lower.value ^ 2 :=
    pow_le_pow_left₀ hsmall.scale_nonneg h.largestSmall_le 2
  have hterm := mul_le_mul_of_nonneg_left hscale hsmall.sum_nonneg
  have hmax := mul_le_mul_of_nonneg_right hcount (sq_nonneg upper.value)
  refine ⟨add_nonneg h.medium_nonneg (mul_nonneg (sq_nonneg _) hsmall.sum_nonneg), ?_⟩
  linarith [h.squares_le, limits.squares_le]

/-- The root on the scale of the medium sum. -/
theorem sqrt_medium (limits : AreLimits lower upper count) (hk : k ≤ count)
    (hpos : 0 < b.medium.value) (hle : b.largestSmall.value ≤ b.medium.value) :
    (Arith.sqrt
      (b.medium * (1 + b.largestSmall / b.medium * (b.largestSmall * b.small)))).InRange := by
  obtain ⟨hdwarf, hdwarf_nonneg, hdwarf_le⟩ := h.mul_small limits hk
  obtain ⟨hratio, hratio_nonneg, hratio_le⟩ :=
    IsScaled.ratio h.small.scale_inRange h.medium h.small.scale_nonneg hpos hle
  have hterm_nonneg := mul_nonneg hratio_nonneg hdwarf_nonneg
  have hterm_le := mul_le_one₀ hratio_le hdwarf_nonneg hdwarf_le
  have hterm : (b.largestSmall / b.medium * (b.largestSmall * b.small)).InRange :=
    .mul hratio hdwarf hterm_nonneg (hterm_le.trans one_le_maxFinite)
  have hfactor : (1 + b.largestSmall / b.medium * (b.largestSmall * b.small)).InRange :=
    .add .one hterm (add_nonneg zero_le_one hterm_nonneg)
      ((add_le_add_right hterm_le 1).trans (by linarith [two_le_maxFinite]))
  have hvalue : b.medium.value * (1 + b.largestSmall.value / b.medium.value *
      (b.largestSmall.value * b.small.value)) =
        b.medium.value + b.largestSmall.value ^ 2 * b.small.value := by
    field_simp
  obtain ⟨hnonneg, hmax⟩ := h.squares limits hk
  rw [← hvalue] at hnonneg hmax
  exact .sqrt (.mul h.medium hfactor hnonneg hmax) hnonneg

/-- The root on the scale of the small components. -/
theorem sqrt_small (limits : AreLimits lower upper count) (hk : k ≤ count)
    (hlt : b.medium.value < b.largestSmall.value) :
    (Arith.sqrt
      (b.largestSmall * (b.medium / b.largestSmall + b.largestSmall * b.small))).InRange := by
  obtain ⟨hdwarf, hdwarf_nonneg, hdwarf_le⟩ := h.mul_small limits hk
  have hpos : 0 < b.largestSmall.value := h.medium_nonneg.trans_lt hlt
  obtain ⟨hratio, hratio_nonneg, hratio_le⟩ :=
    IsScaled.ratio h.medium h.small.scale_inRange h.medium_nonneg hpos hlt.le
  have hfactor : (b.medium / b.largestSmall + b.largestSmall * b.small).InRange :=
    .add hratio hdwarf (add_nonneg hratio_nonneg hdwarf_nonneg)
      ((add_le_add hratio_le hdwarf_le).trans (by linarith [two_le_maxFinite]))
  have hvalue : b.largestSmall.value * (b.medium.value / b.largestSmall.value +
      b.largestSmall.value * b.small.value) =
        b.medium.value + b.largestSmall.value ^ 2 * b.small.value := by
    field_simp
  obtain ⟨hnonneg, hmax⟩ := h.squares limits hk
  rw [← hvalue] at hnonneg hmax
  exact .sqrt (.mul h.small.scale_inRange hfactor hnonneg hmax) hnonneg

/-- Without large components the norm is in range. -/
theorem total_of_large_eq_zero (limits : AreLimits lower upper count) (hk : k ≤ count)
    (hlarge : b.large.value = 0) : b.total.InRange := by
  unfold total
  split
  · rename_i hne
    rw [Expression.beq_eq] at hne
    simp [hlarge] at hne
  split
  · rename_i hne
    rw [Expression.beq_eq] at hne
    have hpos : 0 < b.medium.value := h.medium_nonneg.lt_of_ne' (by simpa using hne)
    split
    · rename_i hle
      exact h.sqrt_medium limits hk hpos hle
    · rename_i hlt
      exact h.sqrt_small limits hk (not_le.mp hlt)
  · have hroot : (Arith.sqrt b.small).InRange := .sqrt h.small.sum_inRange h.small.sum_nonneg
    have hroot_nonneg : 0 ≤ √b.small.value := Real.sqrt_nonneg _
    have hscale_le : b.largestSmall.value ≤ 1 := h.largestSmall_le.trans limits.lower_le
    exact .mul h.small.scale_inRange hroot (mul_nonneg h.small.scale_nonneg hroot_nonneg)
      ((mul_le_of_le_one_left hroot_nonneg hscale_le).trans hroot.value_le)

end InRange

def largeTotal [Arith α] (b : Bands α) : α :=
  b.largest * Arith.sqrt (b.large + b.medium / b.largest / b.largest)

theorem total_eq_largeTotal {b : Bands (Expression ℝ)} (h : b.large.value ≠ 0) :
    b.total = b.largeTotal := by
  rw [total, Expression.beq_eq, if_pos (by simpa using h), largeTotal]

end Bands

theorem smallBound_inRange : (smallBound : Expression ℝ).InRange := by
  have hle : (Arith.minPositive : ℝ) ≤ 1 := zpow_le_one_of_nonpos₀ one_le_two (by norm_num)
  refine ⟨?_, Arith.minPositive_pos.le⟩
  exact (abs_of_pos Arith.minPositive_pos).trans_le (hle.trans one_le_maxFinite)

theorem largeBound_inRange {count : ℕ} (hcount : count ≠ 0) (hword : count < 2 ^ 64) :
    (largeBound count : Expression ℝ).InRange := by
  have limits := areLimits hcount hword
  have hone : (1 : ℝ) ≤ count := Nat.one_le_cast.mpr (Nat.one_le_iff_ne_zero.mpr hcount)
  have hmax : (Arith.sqrt (.number Arith.maxFinite) : Expression ℝ).InRange :=
    .sqrt (abs_of_nonneg maxFinite_nonneg).le maxFinite_nonneg
  have hnumber : (Expression.number (count : ℝ)).InRange :=
    (abs_of_nonneg (zero_le_one.trans hone)).trans_le (by linarith [limits.count_le])
  have hle : √Arith.maxFinite / (count : ℝ) ≤ Arith.maxFinite :=
    (div_le_self (Real.sqrt_nonneg _) hone).trans hmax.value_le
  exact .div hmax hnumber (by positivity) (zero_le_one.trans limits.one_le) hle

section Run

variable {xs : List (Expression ℝ)} (hword : xs.length < 2 ^ 64) (hxs : ∀ x ∈ xs, x.InRange)
include hword hxs

theorem bandsAfter_inRange (hne : xs ≠ []) {k : ℕ} (hk : k ≤ xs.length) :
    (bandsAfter xs k).InRange smallBound (largeBound xs.length) k := by
  have limits := areLimits (List.length_pos_iff.mpr hne).ne' hword
  induction k with
  | zero => exact .empty limits
  | succ k ih =>
    rw [bandsAfter_succ hk]
    have hx : (Arith.abs xs[k]).InRange := hxs xs[k] (List.getElem_mem hk)
    exact (ih (Nat.le_of_succ_le hk)).add limits hk hx (abs_nonneg xs[k].value)

theorem exists_inRange (k : ℕ) :
    ∃ lower upper count, (bandsAfter xs k).InRange lower upper count := by
  rcases eq_or_ne xs [] with rfl | hne
  · rw [bandsAfter, List.take_nil]
    exact ⟨_, _, 0, .empty (areLimits one_ne_zero (by norm_num))⟩
  rcases le_total k xs.length with hk | hk
  · exact ⟨_, _, k, bandsAfter_inRange hword hxs hne hk⟩
  · rw [bandsAfter_of_length_le hk]
    exact ⟨_, _, _, bandsAfter_inRange hword hxs hne le_rfl⟩

/-- All that is evaluated is in range, but for the norm if it is the product of a large scale. -/
theorem IsEvaluated.inRange {e : Expression ℝ} (h : IsEvaluated xs e) :
    e.InRange ∨ e = bandedNorm xs ∧ e = (bandsAfter xs xs.length).largeTotal ∧
      ∃ x y, e = .product x y ∧ x.InRange ∧ y.InRange := by
  induction h with
  | smallBound => exact Or.inl smallBound_inRange
  | largeBound hne => exact Or.inl (largeBound_inRange (List.length_pos_iff.mpr hne).ne' hword)
  | @magnitude x hx => exact Or.inl (hxs x hx)
  | large k =>
    obtain ⟨_, _, _, hk⟩ := exists_inRange hword hxs k
    exact Or.inl hk.large.sum_inRange
  | medium k =>
    obtain ⟨_, _, _, hk⟩ := exists_inRange hword hxs k
    exact Or.inl hk.medium
  | small k =>
    obtain ⟨_, _, _, hk⟩ := exists_inRange hword hxs k
    exact Or.inl hk.small.sum_inRange
  | largest k =>
    obtain ⟨_, _, _, hk⟩ := exists_inRange hword hxs k
    exact Or.inl hk.large.scale_inRange
  | largestSmall k =>
    obtain ⟨_, _, _, hk⟩ := exists_inRange hword hxs k
    exact Or.inl hk.small.scale_inRange
  | norm =>
    rcases eq_or_ne xs [] with rfl | hne
    · exact Or.inl .zero
    have hall := bandsAfter_inRange hword hxs hne le_rfl
    have limits := areLimits (List.length_pos_iff.mpr hne).ne' hword
    rw [bandedNorm_eq_total hne]
    by_cases hlarge : (bandsAfter xs xs.length).large.value = 0
    · exact Or.inl (hall.total_of_large_eq_zero limits le_rfl hlarge)
    · rw [Bands.total_eq_largeTotal hlarge]
      exact Or.inr ⟨rfl, rfl, _, _, rfl, hall.large.scale_inRange,
        hall.sqrt_large limits le_rfl hlarge⟩
  | part he hp ih =>
    rcases ih with ih | ⟨hnorm, htotal, x, y, rfl, hx, hy⟩
    · exact Or.inl (ih.of_mem_parts hp)
    rcases List.mem_cons.mp hp with rfl | hp
    · exact Or.inr ⟨hnorm, htotal, x, y, rfl, hx, hy⟩
    rcases List.mem_append.mp hp with hp | hp
    · exact Or.inl (hx.of_mem_parts hp)
    · exact Or.inl (hy.of_mem_parts hp)

end Run

/-- The norm neither overflows nor underflows on the way, for any number of components that a
machine word holds. Run on expressions it gives the norm, and every value that it goes through is at
most the largest finite number. Only the product that brings the norm back to the scale of the large
components may be larger, and only if the Euclidean norm is. No divisor is zero and no radicand is
negative, and the squares that go into the medium sum are larger than the smallest number of full
precision. -/
theorem bandedNorm_evaluates_in_range (xs : List ℝ) (word : xs.length < 2 ^ 64)
    (finite : ∀ x ∈ xs, |x| ≤ Arith.maxFinite) :
    let given := xs.map Expression.number
    (bandedNorm given).value = bandedNorm xs ∧
    (∀ e, IsEvaluated given e → |e.value| ≤ Arith.maxFinite ∨
      e = bandedNorm given ∧ e = (bandsAfter given given.length).largeTotal ∧
        Arith.maxFinite < √(sumSq xs)) ∧
    (∀ x y, IsEvaluated given (.quotient x y) → y.value ≠ 0) ∧
    (∀ x, IsEvaluated given (.root x) → 0 ≤ x.value) ∧
    ∀ k (hk : k < given.length),
      let x := Arith.abs given[k]
      (bandsAfter given (k + 1)).medium = (bandsAfter given k).medium ∨
        (bandsAfter given (k + 1)).medium = (bandsAfter given k).medium + x * x ∧
          Arith.minPositive < (x * x).value := by
  intro given
  have hword : given.length < 2 ^ 64 := by rwa [List.length_map]
  have hgiven : ∀ x ∈ given, x.InRange := by
    intro x hx
    obtain ⟨y, hy, rfl⟩ := List.mem_map.mp hx
    exact finite y hy
  have hvalue : (bandedNorm given).value = bandedNorm xs := by
    rw [value_bandedNorm, List.map_map, show Expression.value ∘ Expression.number = id from rfl,
      List.map_id]
  refine ⟨hvalue, ?_, ?_, ?_, ?_⟩
  · intro e he
    refine or_iff_not_imp_left.mpr fun hlarge => ?_
    obtain hrange | ⟨hnorm, htotal, -⟩ := he.inRange hword hgiven
    · exact absurd hrange.abs_value_le hlarge
    refine ⟨hnorm, htotal, ?_⟩
    have hbanded : Arith.maxFinite < bandedNorm xs := by
      rw [not_le, hnorm, hvalue, abs_of_nonneg (bandedNorm_nonneg xs)] at hlarge
      exact hlarge
    have hle : bandedNorm xs ≤ √(sumSq xs) := by
      refine Real.le_sqrt_of_sq_le ?_
      rw [bandedNorm_sq]
      exact (sumSq_counted xs).1
    exact hbanded.trans_le hle
  · intro x y he
    obtain hrange | ⟨-, -, x', y', hproduct, -⟩ := he.inRange hword hgiven
    · exact hrange.2.2.1
    · exact nomatch hproduct
  · intro x he
    obtain hrange | ⟨-, -, x', y', hproduct, -⟩ := he.inRange hword hgiven
    · exact hrange.2
    · exact nomatch hproduct
  · intro k hk x
    rw [bandsAfter_succ hk]
    refine (Bands.medium_add _ _ _ x).imp_right fun ⟨hlower, hmedium⟩ => ⟨hmedium, ?_⟩
    have hroot : √(Arith.minPositive : ℝ) < x.value := hlower
    exact (Real.lt_sq_of_sqrt_lt hroot).trans_eq (pow_two _)

/-- Two of the largest numbers and a tiny one between them, whose norm is no number any more: it
leaves the range in its last product only. -/
theorem bandedNorm_of_largest_numbers :
    let xs : List ℝ := [Arith.maxFinite, 2 ^ (-600 : ℤ), -Arith.maxFinite]
    let given := xs.map Expression.number
    xs.length < 2 ^ 64 ∧ (∀ x ∈ xs, |x| ≤ Arith.maxFinite) ∧ Arith.maxFinite < bandedNorm xs ∧
      bandedNorm given = (bandsAfter given given.length).largeTotal ∧
      Arith.maxFinite < √(sumSq xs) := by
  intro xs given
  have hword : xs.length < 2 ^ 64 := by norm_num [xs]
  have htiny : (0 : ℝ) < 2 ^ (-600 : ℤ) := zpow_pos two_pos _
  have htiny_le : (2 : ℝ) ^ (-600 : ℤ) ≤ 1 := zpow_le_one_of_nonpos₀ one_le_two (by norm_num)
  have habs : |(Arith.maxFinite : ℝ)| = Arith.maxFinite := abs_of_nonneg maxFinite_nonneg
  have finite : ∀ x ∈ xs, |x| ≤ Arith.maxFinite := by
    simp only [xs, List.forall_mem_cons, abs_neg, habs, abs_of_pos htiny]
    exact ⟨le_rfl, htiny_le.trans one_le_maxFinite, le_rfl, by simp⟩
  have hoverflow : Arith.maxFinite < bandedNorm xs := by
    have hsquares :
        sumSq xs = Arith.maxFinite ^ 2 + (2 ^ (-600 : ℤ)) ^ 2 + Arith.maxFinite ^ 2 := by
      simp only [xs, sumSq, List.map_cons, List.map_nil, List.sum_cons, List.sum_nil]
      ring
    have hlimit : (smallBound : ℝ) ^ 2 ≤ 1 := by
      rw [smallBound_eq]
      exact pow_le_one₀ (by positivity) (zpow_le_one_of_nonpos₀ one_le_two (by norm_num))
    have hcounted := (sumSq_counted xs).2
    rw [← bandedNorm_sq, hsquares] at hcounted
    have hlength : (xs.length : ℝ) = 3 := by norm_num [xs]
    have htwo := two_le_maxFinite
    refine lt_of_pow_lt_pow_left₀ 2 (bandedNorm_nonneg xs) ?_
    nlinarith [sq_nonneg ((2 : ℝ) ^ (-600 : ℤ))]
  obtain ⟨hvalue, hrange, -⟩ := bandedNorm_evaluates_in_range xs hword finite
  have hnorm := hrange _ .norm
  rw [hvalue, abs_of_nonneg (bandedNorm_nonneg xs)] at hnorm
  obtain ⟨-, htotal, hlarge⟩ := hnorm.resolve_left (not_le.mpr hoverflow)
  exact ⟨hword, finite, hoverflow, htotal, hlarge⟩

end LeastSquares
