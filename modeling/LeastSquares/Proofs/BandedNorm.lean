import LeastSquares.Proofs.Real

namespace LeastSquares

def sumSq (xs : List ℝ) : ℝ :=
  (xs.map (· ^ 2)).sum

theorem sumSq_cons (x : ℝ) (xs : List ℝ) : sumSq (x :: xs) = x ^ 2 + sumSq xs :=
  List.sum_cons

theorem sumSq_nonneg (xs : List ℝ) : 0 ≤ sumSq xs :=
  List.sum_nonneg (by simp [sq_nonneg])

theorem sumSq_eq_zero_iff {xs : List ℝ} : sumSq xs = 0 ↔ ∀ x ∈ xs, x = 0 := by
  induction xs with
  | nil => exact iff_of_true rfl (by simp)
  | cons x xs ih =>
    rw [sumSq_cons, add_eq_zero_iff_of_nonneg (sq_nonneg x) (sumSq_nonneg xs), ih,
      sq_eq_zero_iff, List.forall_mem_cons]

theorem sumSq_perm {xs ys : List ℝ} (h : xs.Perm ys) : sumSq xs = sumSq ys :=
  (h.map (· ^ 2)).sum_eq

theorem sumSq_filter_add (p : ℝ → Bool) (xs : List ℝ) :
    sumSq (xs.filter p) + sumSq (xs.filter (!p ·)) = sumSq xs := by
  rw [sumSq, sumSq, ← List.sum_append, ← List.map_append]
  exact sumSq_perm (List.filter_append_perm p xs)

theorem sumSq_le_of_abs_le {bound : ℝ} {xs : List ℝ} (h : ∀ x ∈ xs, |x| ≤ bound) :
    sumSq xs ≤ xs.length * bound ^ 2 := by
  have hsquares : ∀ y ∈ xs.map (· ^ 2), y ≤ bound ^ 2 := by
    intro y hy
    obtain ⟨x, hx, rfl⟩ := List.mem_map.mp hy
    exact sq_le_sq' (abs_le.mp (h x hx)).1 (abs_le.mp (h x hx)).2
  have hsum := List.sum_le_card_nsmul _ _ hsquares
  rwa [List.length_map, nsmul_eq_mul] at hsum

/-- Whether `sum` times the square of `scale` is a total of squares. There is no scale until
something was added. -/
structure IsRelativeSum (sum scale total : ℝ) : Prop where
  total_eq : sum * scale ^ 2 = total
  sum_nonneg : 0 ≤ sum
  scale_nonneg : 0 ≤ scale
  scale_pos : sum ≠ 0 → 0 < scale

namespace IsRelativeSum

variable {sum scale total x : ℝ}

theorem zero : IsRelativeSum 0 0 0 :=
  ⟨by ring, le_rfl, le_rfl, fun h => absurd rfl h⟩

/-- A larger magnitude becomes the scale. -/
theorem rescale (h : IsRelativeSum sum scale total) (hx : scale < x) :
    IsRelativeSum (1 + sum * (scale / x) * (scale / x)) x (total + x ^ 2) := by
  have hpos : 0 < x := h.scale_nonneg.trans_lt hx
  have hne : x ≠ 0 := hpos.ne'
  have hratio : 0 ≤ scale / x := div_nonneg h.scale_nonneg hpos.le
  refine ⟨?_, ?_, hpos.le, fun _ => hpos⟩
  · rw [← h.total_eq]
    field_simp
    ring
  · exact add_nonneg zero_le_one (mul_nonneg (mul_nonneg h.sum_nonneg hratio) hratio)

/-- A magnitude within the scale is added relative to it. -/
theorem add (h : IsRelativeSum sum scale total) (hx : 0 < x) (hscale : x ≤ scale) :
    IsRelativeSum (sum + x / scale * (x / scale)) scale (total + x ^ 2) := by
  have hpos : 0 < scale := hx.trans_le hscale
  have hne : scale ≠ 0 := hpos.ne'
  refine ⟨?_, ?_, h.scale_nonneg, fun _ => hpos⟩
  · rw [← h.total_eq]
    field_simp
  · exact add_nonneg h.sum_nonneg (mul_self_nonneg _)

theorem total_eq_zero_iff (h : IsRelativeSum sum scale total) : total = 0 ↔ sum = 0 := by
  rw [← h.total_eq]
  constructor
  · intro hzero
    by_contra hne
    exact mul_ne_zero hne (pow_ne_zero 2 (h.scale_pos hne).ne') hzero
  · intro hzero
    rw [hzero, zero_mul]

end IsRelativeSum

inductive Band
  | large
  | medium
  | small
deriving DecidableEq

namespace Band

variable {lower upper x : ℝ}

noncomputable def of (lower upper x : ℝ) : Band :=
  if lower < x ∧ x < upper then .medium
  else if x ≤ lower then .small
  else .large

theorem of_eq_small_iff : of lower upper x = .small ↔ x ≤ lower := by
  unfold of
  split
  · rename_i h
    exact iff_of_false nofun (not_le.mpr h.1)
  · split
    · rename_i h
      exact iff_of_true rfl h
    · rename_i h
      exact iff_of_false nofun h

theorem of_eq_large_iff : of lower upper x = .large ↔ lower < x ∧ upper ≤ x := by
  unfold of
  split
  · rename_i h
    exact iff_of_false nofun fun hlarge => not_le.mpr h.2 hlarge.2
  · rename_i hmedium
    split
    · rename_i h
      exact iff_of_false nofun fun hlarge => not_lt.mpr h hlarge.1
    · rename_i h
      have hlower := not_le.mp h
      exact iff_of_true rfl ⟨hlower, not_lt.mp fun hupper => hmedium ⟨hlower, hupper⟩⟩

noncomputable def members (band : Band) (lower upper : ℝ) (xs : List ℝ) : List ℝ :=
  xs.filter fun x => of lower upper |x| = band

theorem sumSq_members_cons (band : Band) (lower upper x : ℝ) (xs : List ℝ) :
    sumSq (band.members lower upper (x :: xs)) =
      (if of lower upper |x| = band then x ^ 2 else 0) + sumSq (band.members lower upper xs) := by
  unfold members
  rw [List.filter_cons]
  split <;> rename_i h <;> rw [decide_eq_true_iff] at h
  · rw [sumSq_cons, if_pos h]
  · rw [if_neg h, zero_add]

theorem sumSq_eq_members (lower upper : ℝ) (xs : List ℝ) :
    sumSq xs = sumSq (large.members lower upper xs) + sumSq (medium.members lower upper xs) +
      sumSq (small.members lower upper xs) := by
  induction xs with
  | nil => simp [members, sumSq]
  | cons x xs ih =>
    rw [sumSq_cons, ih, sumSq_members_cons, sumSq_members_cons, sumSq_members_cons]
    cases of lower upper |x| <;> simp <;> ring

theorem sumSq_large_eq_zero_iff (hlower : 0 ≤ lower) (upper : ℝ) (xs : List ℝ) :
    sumSq (large.members lower upper xs) = 0 ↔ ¬∃ x ∈ xs, lower < |x| ∧ upper ≤ |x| := by
  rw [sumSq_eq_zero_iff]
  constructor
  · rintro h ⟨x, hx, hlarge⟩
    have hof : of lower upper |x| = large := of_eq_large_iff.mpr hlarge
    have hzero : x = 0 := h x (List.mem_filter.mpr ⟨hx, decide_eq_true hof⟩)
    rw [hzero, abs_zero] at hlarge
    exact not_lt.mpr hlower hlarge.1
  · intro h x hx
    obtain ⟨hx, hlarge⟩ := List.mem_filter.mp hx
    exact absurd ⟨x, hx, of_eq_large_iff.mp (of_decide_eq_true hlarge)⟩ h

/-- What is not small is large or medium. -/
theorem sumSq_filter_not_small (lower upper : ℝ) (xs : List ℝ) :
    sumSq (xs.filter fun x => lower < |x|) + sumSq (small.members lower upper xs) = sumSq xs := by
  have hsmall : small.members lower upper xs = xs.filter fun x => !decide (lower < |x|) := by
    unfold members
    refine List.filter_congr fun x _ => ?_
    rw [← decide_not]
    exact decide_eq_decide.mpr (of_eq_small_iff.trans not_lt.symm)
  rw [hsmall]
  exact sumSq_filter_add _ xs

end Band

namespace Bands

variable {lower upper : ℝ} {b : Bands ℝ} {total : Band → ℝ}

/-- Whether partial sums hold the totals of the squares of their bands. -/
structure Holds (b : Bands ℝ) (total : Band → ℝ) : Prop where
  large : IsRelativeSum b.large b.largest (total .large)
  medium : b.medium = total .medium
  small : IsRelativeSum b.small b.largestSmall (total .small)

/-- A component is added to its own band only. -/
theorem Holds.add (h : b.Holds total) (hlower : 0 < lower) (upper : ℝ) {x : ℝ} (hx : 0 ≤ x) :
    (b.add lower upper x).Holds fun band =>
      total band + if Band.of lower upper x = band then x ^ 2 else 0 := by
  obtain ⟨large, medium, small⟩ := h
  unfold Bands.add Band.of
  split
  · exact ⟨by simpa using large, by simp [medium, pow_two], by simpa using small⟩
  split
  · have keeps (b' : Bands ℝ) (hlarge : b'.large = b.large) (hlargest : b'.largest = b.largest)
        (hmedium : b'.medium = b.medium)
        (hsmall : IsRelativeSum b'.small b'.largestSmall (total .small + x ^ 2)) :
        b'.Holds fun band => total band + if Band.small = band then x ^ 2 else 0 := by
      refine ⟨?_, ?_, ?_⟩
      · simpa [hlarge, hlargest] using large
      · simpa [hmedium] using medium
      · simpa using hsmall
    split
    · rename_i hlargest
      exact keeps _ rfl rfl rfl (small.rescale hlargest)
    split
    · rename_i hzero
      refine keeps _ rfl rfl rfl ?_
      simpa [beq_iff_eq.mp hzero] using small
    · rename_i hlargest hzero
      have hpos : 0 < x := hx.lt_of_ne' fun h => hzero (beq_iff_eq.mpr h)
      exact keeps _ rfl rfl rfl (small.add hpos (not_lt.mp hlargest))
  · rename_i hlower'
    have hpos : 0 < x := hlower.trans (not_le.mp hlower')
    split
    · rename_i hlargest
      exact ⟨by simpa using large.rescale hlargest, by simpa using medium, by simpa using small⟩
    · rename_i hlargest
      exact ⟨by simpa using large.add hpos (not_lt.mp hlargest), by simpa using medium,
        by simpa using small⟩

theorem Holds.foldl (h : b.Holds total) (hlower : 0 < lower) (upper : ℝ) (xs : List ℝ) :
    (xs.foldl (fun b x => b.add lower upper (Arith.abs x)) b).Holds fun band =>
      total band + sumSq (band.members lower upper xs) := by
  induction xs generalizing b total with
  | nil => simpa [Band.members, sumSq] using h
  | cons x xs ih =>
    have hrest := ih (h.add hlower upper (abs_nonneg x))
    simp only [sq_abs, add_assoc, ← Band.sumSq_members_cons] at hrest
    exact hrest

/-- The square of what the bands add up to. Beside large components the small ones do not count. -/
theorem Holds.total_sq (h : b.Holds total) (hmedium : 0 ≤ total .medium) :
    b.total ^ 2 =
      if total .large = 0 then total .medium + total .small
      else total .large + total .medium := by
  obtain ⟨large, medium, small⟩ := h
  rw [← medium] at hmedium ⊢
  unfold Bands.total
  split
  · rename_i hlarge
    have hne : b.large ≠ 0 := by simpa using hlarge
    have hpos : 0 < b.largest := large.scale_pos hne
    have hroot : 0 ≤ b.large + b.medium / b.largest / b.largest :=
      add_nonneg large.sum_nonneg (div_nonneg (div_nonneg hmedium hpos.le) hpos.le)
    rw [if_neg (large.total_eq_zero_iff.not.mpr hne), mul_pow, Arith.sqrt_real,
      Real.sq_sqrt hroot, ← large.total_eq]
    field_simp
  rename_i hlarge
  have hzero : b.large = 0 := by simpa using hlarge
  rw [if_pos (large.total_eq_zero_iff.mpr hzero), ← small.total_eq]
  have hsmall : 0 ≤ b.small * b.largestSmall ^ 2 := mul_nonneg small.sum_nonneg (sq_nonneg _)
  split
  · rename_i hmedium'
    have hpos : 0 < b.medium := hmedium.lt_of_ne' (by simpa using hmedium')
    split
    · have hroot : b.medium * (1 + b.largestSmall / b.medium * (b.largestSmall * b.small)) =
          b.medium + b.small * b.largestSmall ^ 2 := by
        field_simp
      rw [hroot, Arith.sqrt_real, Real.sq_sqrt (add_nonneg hmedium hsmall)]
    · rename_i hlargest
      have hscale : b.largestSmall ≠ 0 := (hpos.trans (not_le.mp hlargest)).ne'
      have hroot : b.largestSmall * (b.medium / b.largestSmall + b.largestSmall * b.small) =
          b.medium + b.small * b.largestSmall ^ 2 := by
        field_simp
      rw [hroot, Arith.sqrt_real, Real.sq_sqrt (add_nonneg hmedium hsmall)]
  · rename_i hmedium'
    have hzero : b.medium = 0 := by simpa using hmedium'
    rw [hzero, zero_add, mul_pow, Arith.sqrt_real, Real.sq_sqrt small.sum_nonneg, mul_comm]

end Bands

theorem smallBound_pos : (0 : ℝ) < smallBound :=
  Real.sqrt_pos.mpr Arith.minPositive_pos

/-- The components that the norm of a list counts: all of them, or only those that are not small if
there are large ones. -/
noncomputable def counted (xs : List ℝ) : List ℝ :=
  if ∃ x ∈ xs, smallBound < |x| ∧ largeBound xs.length ≤ |x| then
    xs.filter fun x => smallBound < |x|
  else xs

/-- The norm is the Euclidean norm of the components that it counts. -/
theorem bandedNorm_sq (xs : List ℝ) : bandedNorm xs ^ 2 = sumSq (counted xs) := by
  unfold bandedNorm
  split
  · rename_i hempty
    obtain rfl := List.isEmpty_iff.mp hempty
    simp [counted, sumSq]
  let upper : ℝ := largeBound xs.length
  have hempty : (Bands.empty : Bands ℝ).Holds fun _ => 0 := ⟨.zero, rfl, .zero⟩
  have hholds := hempty.foldl smallBound_pos upper xs
  simp only [zero_add] at hholds
  have hlarge := Band.sumSq_large_eq_zero_iff smallBound_pos.le upper xs
  have hall := Band.sumSq_eq_members smallBound upper xs
  have hrest := Band.sumSq_filter_not_small smallBound upper xs
  rw [hholds.total_sq (sumSq_nonneg _)]
  unfold counted
  split
  · rename_i hnone
    rw [if_neg (hlarge.mp hnone)]
    linarith
  · rename_i hsome
    rw [if_pos (not_not.mp fun h => hsome (hlarge.mpr h))]
    linarith

theorem counted_perm {xs ys : List ℝ} (h : xs.Perm ys) : (counted xs).Perm (counted ys) := by
  have hlarge : (∃ x ∈ xs, smallBound < |x| ∧ largeBound xs.length ≤ |x|) ↔
      ∃ y ∈ ys, smallBound < |y| ∧ largeBound ys.length ≤ |y| := by
    simp only [h.mem_iff, h.length_eq]
  unfold counted
  simp only [hlarge]
  split
  · exact h.filter _
  · exact h

/-- The components that are not counted have small squares. -/
theorem sumSq_counted (xs : List ℝ) :
    sumSq (counted xs) ≤ sumSq xs ∧
      sumSq xs ≤ sumSq (counted xs) + xs.length * smallBound ^ 2 := by
  have hbound : 0 ≤ (xs.length : ℝ) * smallBound ^ 2 :=
    mul_nonneg (Nat.cast_nonneg _) (sq_nonneg _)
  unfold counted
  split
  · let small := Band.small.members smallBound (largeBound xs.length) xs
    have hrest := Band.sumSq_filter_not_small smallBound (largeBound xs.length) xs
    have hnonneg : 0 ≤ sumSq small := sumSq_nonneg _
    have hsmall : sumSq small ≤ small.length * smallBound ^ 2 := by
      refine sumSq_le_of_abs_le fun x hx => ?_
      exact Band.of_eq_small_iff.mp (of_decide_eq_true (List.mem_filter.mp hx).2)
    have hlength : (small.length : ℝ) * smallBound ^ 2 ≤ xs.length * smallBound ^ 2 :=
      mul_le_mul_of_nonneg_right (Nat.cast_le.mpr (List.length_filter_le _ _)) (sq_nonneg _)
    constructor <;> linarith
  · constructor <;> linarith

theorem sumSq_counted_eq_zero_iff {xs : List ℝ} :
    sumSq (counted xs) = 0 ↔ ∀ x ∈ xs, x = 0 := by
  rw [sumSq_eq_zero_iff]
  unfold counted
  split
  · rename_i hlarge
    obtain ⟨x, hx, hbound, -⟩ := hlarge
    have hne : x ≠ 0 := abs_pos.mp (smallBound_pos.trans hbound)
    refine iff_of_false (fun h => hne (h x ?_)) fun h => hne (h x hx)
    exact List.mem_filter.mpr ⟨hx, decide_eq_true hbound⟩
  · exact Iff.rfl

/-- The computed norm is the Euclidean norm, but small components do not count beside large ones. So
its square is too small by at most the square of the bound for each component, the order of the
components does not matter, and only zeros have the norm zero. -/
theorem bandedNorm_isEuclidean_of_counted (xs : List ℝ) :
    (0 ≤ bandedNorm xs ∧ bandedNorm xs ^ 2 = sumSq (counted xs)) ∧
    (0 ≤ sumSq xs - bandedNorm xs ^ 2 ∧
      sumSq xs - bandedNorm xs ^ 2 ≤ xs.length * smallBound ^ 2) ∧
    (∀ ys, xs.Perm ys → bandedNorm ys = bandedNorm xs) ∧
    (bandedNorm xs = 0 ↔ ∀ x ∈ xs, x = 0) := by
  obtain ⟨hle, hge⟩ := sumSq_counted xs
  rw [← bandedNorm_sq] at hle hge
  refine ⟨⟨bandedNorm_nonneg xs, bandedNorm_sq xs⟩, ⟨by linarith, by linarith⟩, ?_, ?_⟩
  · intro ys h
    have hsq : bandedNorm ys ^ 2 = bandedNorm xs ^ 2 := by
      rw [bandedNorm_sq, bandedNorm_sq, sumSq_perm (counted_perm h)]
    exact (sq_eq_sq₀ (bandedNorm_nonneg ys) (bandedNorm_nonneg xs)).mp hsq
  · rw [← sumSq_counted_eq_zero_iff, ← bandedNorm_sq, sq_eq_zero_iff]

theorem smallBound_eq : (smallBound : ℝ) = 2 ^ (-511 : ℤ) := by
  have hsq : (Arith.minPositive : ℝ) = (2 ^ (-511 : ℤ)) ^ 2 := by
    rw [← zpow_natCast, ← zpow_mul]
    rfl
  rw [smallBound, Arith.sqrt_real, hsq, Real.sqrt_sq (zpow_nonneg zero_le_two _)]

theorem largeBound_le (count : Nat) : (largeBound count : ℝ) ≤ 2 ^ 512 := by
  have hmax : (Arith.maxFinite : ℝ) ≤ (2 ^ 512) ^ 2 :=
    calc (Arith.maxFinite : ℝ)
      _ = (2 - 2 ^ (-52 : ℤ)) * 2 ^ 1023 := rfl
      _ ≤ 2 * 2 ^ 1023 :=
        mul_le_mul_of_nonneg_right (sub_le_self _ (zpow_nonneg zero_le_two _))
          (pow_nonneg zero_le_two _)
      _ = (2 ^ 512) ^ 2 := by rw [← pow_succ', ← pow_mul]
  have hroot : √(Arith.maxFinite : ℝ) ≤ 2 ^ 512 := Real.sqrt_le_iff.mpr ⟨by positivity, hmax⟩
  rcases count.eq_zero_or_pos with rfl | hcount
  · simp [largeBound]
  · exact (div_le_self (Real.sqrt_nonneg _) (Nat.one_le_cast.mpr hcount)).trans hroot

/-- Beside a component that is large a tiny one does not count, wherever it stands. -/
theorem bandedNorm_of_three_bands :
    let xs : List ℝ := [2 ^ (-600 : ℤ), 3, 2 ^ 600]
    let ys : List ℝ := [3, 2 ^ 600, 2 ^ (-600 : ℤ)]
    bandedNorm xs ^ 2 = 3 ^ 2 + (2 ^ 600) ^ 2 ∧ xs.Perm ys ∧ bandedNorm ys = bandedNorm xs := by
  intro xs ys
  have hperm : xs.Perm ys := (List.Perm.swap _ _ _).trans ((List.Perm.swap _ _ _).cons _)
  obtain ⟨⟨-, hsq⟩, -, hinvariant, -⟩ := bandedNorm_isEuclidean_of_counted xs
  have htiny : ¬(smallBound : ℝ) < |2 ^ (-600 : ℤ)| := by
    rw [smallBound_eq, abs_of_pos (zpow_pos two_pos _), not_lt]
    exact zpow_le_zpow_right₀ one_le_two (by norm_num)
  have hsmall {x : ℝ} (hx : 1 ≤ x) : smallBound < |x| := by
    rw [smallBound_eq, abs_of_pos (one_pos.trans_le hx)]
    exact (zpow_lt_one_of_neg₀ one_lt_two (by norm_num)).trans_le hx
  have hlarge : ∃ x ∈ xs, smallBound < |x| ∧ largeBound xs.length ≤ |x| := by
    refine ⟨2 ^ 600, by simp [xs], hsmall (one_le_pow₀ one_le_two), ?_⟩
    rw [abs_of_pos (by positivity)]
    exact (largeBound_le _).trans (pow_le_pow_right₀ one_le_two (by norm_num))
  have hcounted : counted xs = [3, 2 ^ 600] := by
    rw [counted, if_pos hlarge]
    simp only [xs, List.filter_cons, List.filter_nil, decide_eq_true_eq, if_neg htiny,
      if_pos (hsmall (x := 3) (by norm_num)), if_pos (hsmall (one_le_pow₀ one_le_two))]
  refine ⟨?_, hperm, hinvariant ys hperm⟩
  rw [hsq, hcounted]
  simp [sumSq]

end LeastSquares
