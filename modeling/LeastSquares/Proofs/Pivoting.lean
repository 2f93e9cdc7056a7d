import LeastSquares.Proofs.Reflections
import LeastSquares.Proofs.Substitution

namespace LeastSquares

variable {m n : Nat}

/-- A reflection keeps the squared length from an index on if its axis begins there. -/
theorem Reflects.sumFrom_sq {lead : ℝ} {w : Fin m → ℝ} (h : Reflects lead w) {j : Nat}
    (hw : ∀ i : Fin m, i < j → w i = 0) (v : Fin m → ℝ) :
    sumFrom j (fun i => reflection lead w v i ^ 2) = sumFrom j fun i => v i ^ 2 := by
  have hkept : ∀ i : Fin m, i < j → reflection lead w v i = v i := by
    intro i hi
    simp [reflection, hw i hi]
  have htotal : ∑ i, (reflection lead w v i ^ 2 - v i ^ 2) = 0 := by
    rw [Finset.sum_sub_distrib, sub_eq_zero]
    simpa only [dotProduct, ← pow_two] using h.dot v v
  rw [← sub_eq_zero, ← htotal, sumFrom, sumFrom, ← Finset.sum_sub_distrib]
  apply Finset.sum_congr rfl
  intro i _
  split
  · rfl
  · rename_i hi
    rw [hkept i (not_le.mp hi), sub_self, sub_self]

theorem sq_le_sumFrom {j : Nat} {i : Fin m} (hi : j ≤ i) (v : Fin m → ℝ) :
    v i ^ 2 ≤ sumFrom j fun i => v i ^ 2 := by
  have hterm : v i ^ 2 = if j ≤ i.val then v i ^ 2 else 0 := (if_pos hi).symm
  rw [hterm]
  refine Finset.single_le_sum (f := fun i : Fin m => if j ≤ i.val then v i ^ 2 else 0) ?_
    (Finset.mem_univ i)
  intro k _
  split
  · exact sq_nonneg _
  · exact le_rfl

/-- In exact arithmetic the updated norm is the norm that would be computed from the entries. -/
theorem downdate_fst {remaining reference component exact : ℝ} (hremaining : 0 ≤ remaining)
    (hexact : 0 ≤ exact) (h : exact ^ 2 = remaining ^ 2 - component ^ 2) :
    (downdate remaining reference component fun _ => exact).1 = exact := by
  unfold downdate
  split
  · rename_i hzero
    rw [beq_iff_eq] at hzero
    rw [hzero] at h ⊢
    nlinarith [sq_nonneg component, sq_nonneg exact]
  · rename_i hzero
    rw [beq_iff_eq] at hzero
    dsimp only
    split
    · rfl
    · have hshare : 1 - component / remaining * (component / remaining) =
          (exact / remaining) ^ 2 := by
        rw [div_pow, h]
        field_simp
      change remaining * Arith.sqrt (Arith.maxNum _ 0) = exact
      rw [hshare, Arith.maxNum_real, max_eq_left (sq_nonneg _), Arith.sqrt_real,
        Real.sqrt_sq (div_nonneg hexact hremaining), mul_div_cancel₀ _ hzero]

namespace Reduction

variable {a : Mat ℝ m n} {s : Reduction ℝ m n} {k : Nat}

theorem remaining_le_largestColumn (s : Reduction ℝ m n) {j c : Fin n} (h : j ≤ c) :
    s.remaining c ≤ s.remaining (s.largestColumn j) := by
  have hfold : ∀ (xs : List (Fin n)) (start : Fin n),
      let best := xs.foldl
        (fun best k => if s.remaining best < s.remaining k then k else best) start
      s.remaining start ≤ s.remaining best ∧ ∀ x ∈ xs, s.remaining x ≤ s.remaining best := by
    intro xs
    induction xs with
    | nil => exact fun start => ⟨le_rfl, fun _ hx => nomatch hx⟩
    | cons y ys ih =>
      intro start
      obtain ⟨hstart, hlist⟩ := ih (if s.remaining start < s.remaining y then y else start)
      have hboth : s.remaining start ≤
            s.remaining (if s.remaining start < s.remaining y then y else start) ∧
          s.remaining y ≤
            s.remaining (if s.remaining start < s.remaining y then y else start) := by
        split
        · rename_i hlt
          exact ⟨hlt.le, le_rfl⟩
        · rename_i hlt
          exact ⟨le_rfl, not_lt.mp hlt⟩
      refine ⟨hboth.1.trans hstart, ?_⟩
      intro x hx
      rcases List.mem_cons.mp hx with rfl | hx
      · exact hboth.2.trans hstart
      · exact hlist x hx
  exact (hfold _ j).2 c (mem_indicesFrom.mpr h)

/-- What the first `k` reflections make of column `c` in the order of the exchanges. -/
noncomputable def image (s : Reduction ℝ m n) (a : Mat ℝ m n) (k : Nat) (c : Fin n) : Fin m → ℝ :=
  s.reflected k (a.col (s.permutation c)).get

theorem image_eq (h : Reduced a k s) (c : Fin n) (i : Fin m) :
    s.image a k c i = if i.val ≤ c ∨ k ≤ c then s.packed i c else 0 :=
  h.column c i

/-- The columns that are not reduced yet are stored as they are. -/
theorem sumFrom_image (h : Reduced a k s) {c : Fin n} (hc : k ≤ c) :
    sumFrom k (fun i => s.image a k c i ^ 2) = tailNorm (s.packed.col c) k ^ 2 := by
  rw [tailNorm_sq]
  refine sumFrom_congr ?_
  intro i _
  rw [image_eq h, if_pos (Or.inr hc)]
  rfl

theorem image_exchange {j c : Fin n} (hj : k ≤ j) (hc : k ≤ c) (l : Fin n) :
    (s.exchange j c).image a k l = s.image a k (Equiv.swap j c l) := by
  rw [image, image, reflected_exchange hj hc, permutation_exchange, Vec.swap_eq, swap_eq_ite]

theorem reflected_reduceColumn (pivoting : Bool) (j : Fin (min m n)) (b : Fin m → ℝ) :
    (s.reduceColumn pivoting j).reflected j b = s.reflected j b := by
  unfold Reduction.reduceColumn
  dsimp only
  split
  · exact reflected_finishColumn j _ b
  · rw [reflected_finishColumn]
    exact reflected_reflectColumns pivoting j _ b

/-- Reducing a column keeps the squared length of every column from any earlier row on. -/
theorem sumFrom_image_reduceColumn {j : Fin (min m n)} (h : Reduced a j s) (pivoting : Bool)
    {l : Nat} (hl : l ≤ j) (c : Fin n) :
    sumFrom l (fun i => (s.reduceColumn pivoting j).image a (j + 1) c i ^ 2) =
      sumFrom l fun i => s.image a j c i ^ 2 := by
  have hreflects := (h.reduceColumn pivoting).reflects j (Nat.lt_succ_self j)
  simp only [image]
  rw [reflected_succ, reflected_reduceColumn, permutation_reduceColumn]
  refine hreflects.sumFrom_sq (fun i hi => ?_) _
  exact if_pos (hi.trans_le hl)

/-- What `k` finished columns mean with pivoting: the remaining norms are exact, and no column is
longer than a finished one from the row of its diagonal element on. -/
structure Pivoted (a : Mat ℝ m n) (k : Nat) (s : Reduction ℝ m n) : Prop extends Reduced a k s where
  remaining : ∀ c : Fin n, k ≤ c → s.remaining c = tailNorm (s.packed.col c) k
  dominated : ∀ (j : Fin (min m n)) (c : Fin n), j.val < k → pivotColumn j ≤ c →
    sumFrom j (fun i => s.image a k c i ^ 2) ≤
      sumFrom j fun i => s.image a k (pivotColumn j) i ^ 2

structure Led (a : Mat ℝ m n) (j : Fin (min m n)) (s : Reduction ℝ m n) : Prop
    extends Reduced a j s where
  remaining : ∀ c, pivotColumn j < c → s.remaining c = tailNorm (s.packed.col c) j
  longest : ∀ c, pivotColumn j ≤ c →
    tailNorm (s.packed.col c) j ≤ tailNorm (s.packed.col (pivotColumn j)) j
  dominated : ∀ (i : Fin (min m n)) (c : Fin n), i < j → pivotColumn i ≤ c →
    sumFrom i (fun r => s.image a j c r ^ 2) ≤ sumFrom i fun r => s.image a j (pivotColumn i) r ^ 2

theorem Pivoted.start (a : Mat ℝ m n) : Pivoted a 0 (Reduction.start a) where
  toReduced := Reduced.start a
  remaining c _ := by
    have hall : tailNorm (a.col c) 0 = norm (a.col c) := by
      unfold tailNorm norm indicesFrom Vec.toList
      simp
    exact (Vec.ofFn_apply _ c).trans hall.symm
  dominated j _ hj := absurd hj (Nat.not_lt_zero j)

/-- Exchanging a longest column to the front keeps the norms of the columns behind it. -/
theorem Pivoted.exchange {j : Fin (min m n)} (h : Pivoted a j s) :
    Led a j (s.exchange (pivotColumn j) (s.largestColumn (pivotColumn j))) := by
  set k := s.largestColumn (pivotColumn j) with hk
  have hle : pivotColumn j ≤ k := le_largestColumn s _
  refine ⟨h.toReduced.exchange le_rfl hle, ?_, ?_, ?_⟩
  · intro c hc
    have hremaining : (s.exchange (pivotColumn j) k).remaining c =
        s.remaining (Equiv.swap (pivotColumn j) k c) := by
      unfold Reduction.exchange
      rw [swap_eq_ite]
      split
      · rename_i hkj
        rw [if_neg (hkj ▸ hc.ne), if_neg hc.ne]
      · rw [if_neg hc.ne]
        refine (Vec.set_apply _ _ _ _).trans ?_
        split <;> rfl
    rw [hremaining, col_exchange]
    exact h.remaining _ (le_swap le_rfl hle hc.le)
  · intro c hc
    rw [col_exchange, col_exchange, Equiv.swap_apply_left,
      ← h.remaining _ (le_swap le_rfl hle hc), ← h.remaining k hle]
    exact s.remaining_le_largestColumn (le_swap le_rfl hle hc)
  · intro i c hi hc
    have hij : pivotColumn i < pivotColumn j := hi
    have hj : j.val ≤ pivotColumn j := le_rfl
    rw [image_exchange hj hle, image_exchange hj hle,
      Equiv.swap_apply_of_ne_of_ne hij.ne (hij.trans_le hle).ne]
    exact h.dominated i _ hi (le_swap hij.le (hij.le.trans hle) hc)

theorem col_finishColumn {j : Fin (min m n)} {c : Fin n} (hc : pivotColumn j < c)
    (s : Reduction ℝ m n) (size : ℝ) : (s.finishColumn j size).packed.col c = s.packed.col c := by
  ext i
  refine (Mat.set_apply _ _ _ _ _ _).trans (if_neg ?_)
  rintro ⟨-, he⟩
  exact hc.ne he

theorem remaining_finishColumn {j : Fin (min m n)} {c : Fin n} (hc : pivotColumn j < c)
    (s : Reduction ℝ m n) (size : ℝ) : (s.finishColumn j size).remaining c = s.remaining c :=
  (Vec.set_apply _ _ _ _).trans (if_neg hc.ne)

/-- Unless nothing is left of the column, the norms of the columns behind it are updated. -/
theorem remaining_reduceColumn (s : Reduction ℝ m n) {j : Fin (min m n)} {c : Fin n}
    (hc : pivotColumn j < c) :
    (s.reduceColumn true j).remaining c =
      if tailNorm (s.packed.col (pivotColumn j)) j = 0 then s.remaining c
      else (downdate (s.remaining c) (s.reference c)
        ((s.reduceColumn true j).packed (pivotRow j) c)
        fun _ => tailNorm ((s.reduceColumn true j).packed.col c) (j + 1)).1 := by
  rw [← Mat.col_apply]
  unfold Reduction.reduceColumn
  dsimp only
  split
  · rename_i hzero
    rw [beq_iff_eq] at hzero
    rw [remaining_finishColumn hc, if_pos hzero]
  · rename_i hzero
    rw [beq_iff_eq] at hzero
    rw [remaining_finishColumn hc, if_neg hzero, col_finishColumn hc]
    refine (Vec.map_apply _ _ _).trans ?_
    rw [Vec.ofFn_apply, if_pos ⟨rfl, hc⟩]
    rfl

/-- Reducing a longest column keeps the remaining norms exact. -/
theorem Led.reduceColumn {j : Fin (min m n)} (h : Led a j s) :
    Pivoted a (j + 1) (s.reduceColumn true j) := by
  have hreduced := h.toReduced.reduceColumn true
  have hsum (c : Fin n) (hc : pivotColumn j ≤ c) :
      sumFrom j (fun i => (s.reduceColumn true j).image a (j + 1) c i ^ 2) =
        tailNorm (s.packed.col c) j ^ 2 := by
    rw [sumFrom_image_reduceColumn h.toReduced true le_rfl, sumFrom_image h.toReduced hc]
  refine ⟨hreduced, ?_, ?_⟩
  · intro c hc
    have hlt : pivotColumn j < c := hc
    have hnext : tailNorm ((s.reduceColumn true j).packed.col c) (j + 1) ^ 2 =
        tailNorm (s.packed.col c) j ^ 2 -
          (s.reduceColumn true j).packed (pivotRow j) c ^ 2 := by
      rw [← sumFrom_image hreduced hc, ← hsum c hlt.le, eq_sub_iff_add_eq']
      refine Eq.trans ?_ (sumFrom_succ (pivotRow j) _).symm
      congr 1
      rw [image_eq hreduced, if_pos (Or.inr hc)]
    rw [remaining_reduceColumn s hlt]
    split
    · rename_i hzero
      have hnone : tailNorm (s.packed.col c) j = 0 :=
        le_antisymm ((h.longest c hlt.le).trans_eq hzero) (RealNorm.nonneg _)
      rw [h.remaining c hlt, hnone]
      rw [hnone] at hnext
      nlinarith [sq_nonneg ((s.reduceColumn true j).packed (pivotRow j) c),
        sq_nonneg (tailNorm ((s.reduceColumn true j).packed.col c) (j + 1))]
    · refine downdate_fst ?_ (RealNorm.nonneg _) ?_
      · rw [h.remaining c hlt]
        exact RealNorm.nonneg _
      · rw [h.remaining c hlt]
        exact hnext
  · intro i c hi hc
    rcases Nat.lt_succ_iff_lt_or_eq.mp hi with hi | hi
    · rw [sumFrom_image_reduceColumn h.toReduced true hi.le,
        sumFrom_image_reduceColumn h.toReduced true hi.le]
      exact h.dominated i c hi hc
    · obtain rfl := Fin.ext hi
      rw [hsum c hc, hsum _ le_rfl]
      exact pow_le_pow_left₀ (RealNorm.nonneg _) (h.longest c hc) 2

theorem Pivoted.step {j : Fin (min m n)} (h : Pivoted a j s) : Pivoted a (j + 1) (s.step true j) :=
  h.exchange.reduceColumn

end Reduction

namespace QR

theorem pivoted_factorize (a : Mat ℝ m n) :
    ∃ s : Reduction ℝ m n, Reduction.Pivoted a (min m n) s ∧
      (factorize true a).packed = s.packed :=
  ⟨_, foldl_finRange_invariant (Reduction.step true) (Reduction.Pivoted a)
    (Reduction.Pivoted.start a) (fun _ _ h => h.step), rfl⟩

/-- From the row of a diagonal element of `R` on, no column is longer than that element. -/
theorem sumFrom_le_diagonal (a : Mat ℝ m n) (j : Fin (min m n)) {c : Fin n}
    (hc : pivotColumn j ≤ c) :
    (sumFrom j fun i : Fin m => (if i.val ≤ c then (factorize true a).packed i c else 0) ^ 2) ≤
      (factorize true a).packed (pivotRow j) (pivotColumn j) ^ 2 := by
  obtain ⟨s, hs, hp⟩ := pivoted_factorize a
  have himage (c : Fin n) (i : Fin m) : s.image a (min m n) c i =
      if i.val ≤ c then (factorize true a).packed i c else 0 := by
    have hiff : i.val ≤ c ∨ min m n ≤ c ↔ i.val ≤ c := by omega
    rw [Reduction.image_eq hs.toReduced, hp]
    simp only [hiff]
  have hle := hs.dominated j c j.isLt hc
  simp only [himage] at hle
  refine hle.trans_eq ?_
  have hdiagonal : (pivotRow j).val ≤ pivotColumn j := le_rfl
  refine (sumFrom_succ (pivotRow j) _).trans ?_
  rw [if_pos hdiagonal, sumFrom_eq_zero, add_zero]
  intro i hi
  have hbelow : ¬i.val ≤ pivotColumn j := Nat.not_le.mpr hi
  rw [if_neg hbelow, zero_pow two_ne_zero]

end QR

/-- Whether a zero on the diagonal of `R` is followed by zeros only. -/
def Triangular.RevealsRank (f : Triangular ℝ m n) : Prop :=
  ∀ j, f.r j j = 0 → ∀ i c, j ≤ i → f.r i c = 0

/-- With pivoting, a zero on the diagonal of `R` is followed by zeros only. -/
theorem QR.revealsRank_factorize (a : Mat ℝ m n) (h : n ≤ m) :
    ((factorize true a).triangular h).RevealsRank := by
  intro j hj i c hi
  by_cases hic : i ≤ c
  · have hdiagonal := ((factorize true a).triangular h).r_apply (le_refl j)
    have hentry := ((factorize true a).triangular h).r_apply hic
    rw [Mat.toMatrix_apply, hj, Triangular.square_apply] at hdiagonal
    rw [Mat.toMatrix_apply, Triangular.square_apply] at hentry
    let k : Fin (min m n) := ⟨j, by omega⟩
    have hzero : (factorize true a).packed (pivotRow k) (pivotColumn k) = 0 := hdiagonal.symm
    have hterm := sq_le_sumFrom (i := i.castLE h) (j := j) hi fun i : Fin m =>
      if i.val ≤ c then (factorize true a).packed i c else 0
    have hsum := hterm.trans (sumFrom_le_diagonal a k (c := c) (hi.trans hic))
    have hic' : (i.castLE h).val ≤ c := hic
    rw [hzero, zero_pow two_ne_zero, if_pos hic'] at hsum
    rw [hentry]
    exact pow_eq_zero_iff two_ne_zero |>.mp (le_antisymm hsum (sq_nonneg _))
  · exact ((factorize true a).triangular h).isUpper_r i c (not_le.mp hic)

end LeastSquares
