import LeastSquares.DampingSearch
import LeastSquares.Proofs.Loops
import LeastSquares.Proofs.Real

namespace LeastSquares

variable {m n : Nat}

def Mat.toMatrix (a : Mat ℝ m n) : Matrix (Fin m) (Fin n) ℝ :=
  Matrix.of a.get

@[simp] theorem Mat.toMatrix_apply (a : Mat ℝ m n) (i : Fin m) (j : Fin n) :
    a.toMatrix i j = a i j :=
  rfl

def sumFrom (k : Nat) (g : Fin n → ℝ) : ℝ :=
  ∑ i, if k ≤ i.val then g i else 0

theorem sumFrom_succ (j : Fin n) (g : Fin n → ℝ) : sumFrom j g = g j + sumFrom (j + 1) g := by
  have hmem := Finset.mem_univ j
  unfold sumFrom
  rw [← Finset.add_sum_erase _ _ hmem,
    ← Finset.add_sum_erase _ (fun i : Fin n => if j.val + 1 ≤ i then g i else 0) hmem,
    if_pos le_rfl, if_neg (Nat.not_succ_le_self j), zero_add]
  congr 1
  apply Finset.sum_congr rfl
  intro i hi
  have hne : i.val ≠ j := fun he => Finset.ne_of_mem_erase hi (Fin.ext he)
  have hiff : j.val ≤ i ↔ j.val + 1 ≤ i := by omega
  simp only [hiff]

theorem sumFrom_congr {k : Nat} {g g' : Fin n → ℝ} (h : ∀ i : Fin n, k ≤ i → g i = g' i) :
    sumFrom k g = sumFrom k g' := by
  apply Finset.sum_congr rfl
  intro i _
  split
  · rename_i hi
    exact h i hi
  · rfl

theorem sumFrom_eq_zero {k : Nat} {g : Fin n → ℝ} (h : ∀ i : Fin n, k ≤ i → g i = 0) :
    sumFrom k g = 0 := by
  apply Finset.sum_eq_zero
  intro i _
  split
  · rename_i hi
    exact h i hi
  · rfl

def IsUpper (t : Matrix (Fin n) (Fin n) ℝ) : Prop :=
  ∀ i j, j < i → t i j = 0

theorem IsUpper.mulVec_apply {t : Matrix (Fin n) (Fin n) ℝ} (h : IsUpper t) (z : Fin n → ℝ)
    (i : Fin n) : t.mulVec z i = sumFrom i fun j => t i j * z j := by
  simp only [Matrix.mulVec, dotProduct, sumFrom]
  apply Finset.sum_congr rfl
  intro j _
  split
  · rfl
  · rename_i hj
    rw [h i j (not_le.mp hj), zero_mul]

/-- What solving the leading block of size `rank` means: the remaining components are zero. -/
structure SolvesLeading (t : Matrix (Fin n) (Fin n) ℝ) (rank : Nat) (b z : Fin n → ℝ) : Prop where
  zero : ∀ i : Fin n, rank ≤ i → z i = 0
  solves : ∀ i : Fin n, i < rank → t.mulVec z i = b i

section SolvesLeading

variable {t : Matrix (Fin n) (Fin n) ℝ} {rank : Nat} {b z : Fin n → ℝ}

/-- Behind the leading block the product vanishes, so the right-hand side looks like a product. -/
theorem SolvesLeading.dot (h : SolvesLeading t rank b z) (ht : IsUpper t) :
    t.mulVec z ⬝ᵥ b = t.mulVec z ⬝ᵥ t.mulVec z := by
  apply Finset.sum_congr rfl
  intro i _
  by_cases hi : i.val < rank
  · rw [h.solves i hi]
  · have hzero : t.mulVec z i = 0 := by
      rw [ht.mulVec_apply]
      refine sumFrom_eq_zero ?_
      intro j hj
      rw [h.zero j ((not_lt.mp hi).trans hj), mul_zero]
    rw [hzero, zero_mul, zero_mul]

theorem SolvesLeading.mulVec_eq (h : SolvesLeading t rank b z) (hr : n ≤ rank) :
    t.mulVec z = b :=
  funext fun i => h.solves i (i.isLt.trans_le hr)

end SolvesLeading

section IsUpper

variable {t : Matrix (Fin n) (Fin n) ℝ} {rank : Nat}

/-- A vector that is orthogonal to the leading columns of a regular triangle has no leading part. -/
theorem IsUpper.eq_zero_of_dot (ht : IsUpper t) (hd : ∀ j : Fin n, j < rank → t j j ≠ 0)
    {r : Fin n → ℝ} (h : ∀ c : Fin n, c < rank → t.col c ⬝ᵥ r = 0) (i : Fin n) (hi : i < rank) :
    r i = 0 := by
  induction i using WellFoundedLT.induction with
  | ind i ih =>
    have hterm : t.col i ⬝ᵥ r = t i i * r i := by
      refine Finset.sum_eq_single i (fun j _ hne => ?_) fun hmem => absurd (Finset.mem_univ i) hmem
      rcases lt_or_gt_of_ne hne with hlt | hgt
      · rw [ih j hlt ((Fin.lt_def.mp hlt).trans hi), mul_zero]
      · rw [Matrix.col_apply, ht j i hgt, zero_mul]
    rw [h i hi, eq_comm] at hterm
    exact (mul_eq_zero.mp hterm).resolve_left (hd i hi)

/-- The leading block of a regular triangle has only the trivial solution for zero. -/
theorem SolvesLeading.eq_zero {b z : Fin n → ℝ} (hz : SolvesLeading t rank b z) (ht : IsUpper t)
    (hd : ∀ j : Fin n, j < rank → t j j ≠ 0) (hb : ∀ i : Fin n, i < rank → b i = 0) : z = 0 := by
  funext i
  induction i using WellFoundedGT.induction with
  | ind i ih =>
    by_cases hi : i.val < rank
    · have hterm : t.mulVec z i = t i i * z i := by
        refine Finset.sum_eq_single i (fun j _ hne => ?_) fun hmem =>
          absurd (Finset.mem_univ i) hmem
        change t i j * z j = 0
        rcases lt_or_gt_of_ne hne with hlt | hgt
        · rw [ht i j hlt, zero_mul]
        · rw [ih j hgt, Pi.zero_apply, mul_zero]
      rw [hz.solves i hi, hb i hi, eq_comm] at hterm
      exact (mul_eq_zero.mp hterm).resolve_left (hd i hi)
    · exact hz.zero i (not_lt.mp hi)

end IsUpper

def upperOf (diagonal : Vec ℝ n) (lower : Mat ℝ n n) : Matrix (Fin n) (Fin n) ℝ :=
  Matrix.of fun i j => if i = j then diagonal i else if i < j then lower j i else 0

theorem isUpper_upperOf (diagonal : Vec ℝ n) (lower : Mat ℝ n n) :
    IsUpper (upperOf diagonal lower) := by
  intro i j hj
  change (if i = j then _ else if i < j then _ else (0 : ℝ)) = 0
  rw [if_neg hj.ne', if_neg hj.not_gt]

theorem upperOf_mulVec (diagonal : Vec ℝ n) (lower : Mat ℝ n n) (z : Fin n → ℝ) (i : Fin n) :
    (upperOf diagonal lower).mulVec z i =
      diagonal i * z i + sumFrom (i + 1) fun j => lower j i * z j := by
  rw [(isUpper_upperOf diagonal lower).mulVec_apply, sumFrom_succ]
  congr 1
  · change (if i = i then _ else _) * _ = _
    rw [if_pos rfl]
  · refine sumFrom_congr ?_
    intro j hj
    have hlt : i < j := hj
    change (if i = j then _ else if i < j then _ else _) * _ = _
    rw [if_neg hlt.ne, if_pos hlt]

/-- The row-oriented loop solves the leading block. The components from its index on are final,
those before it still hold the right-hand side. -/
theorem solveDampedTriangle_solves {diagonal b : Vec ℝ n} {rank : Nat} (lower : Mat ℝ n n)
    (hr : rank ≤ n) (hd : ∀ j : Fin n, j < rank → diagonal j ≠ 0) :
    SolvesLeading (upperOf diagonal lower) rank b.get
      (solveDampedTriangle lower diagonal b rank).get := by
  let P (k : Nat) (z : Vec ℝ n) : Prop :=
    (∀ i : Fin n, rank ≤ i → z i = 0) ∧ (∀ i : Fin n, i < k → i < rank → z i = b i) ∧
      ∀ i : Fin n, k ≤ i → i < rank →
        diagonal i * z i + sumFrom (i + 1) (fun j => lower j i * z j) = b i
  have h : P 0 (solveDampedTriangle lower diagonal b rank) := by
    refine foldl_reverse_indicesBelow_invariant _ P hr ⟨?_, ?_, ?_⟩ ?_
    · intro i hi
      rw [Vec.ofFn_apply, if_neg (not_lt.mpr hi)]
    · intro i hi _
      rw [Vec.ofFn_apply, if_pos hi]
    · intro i hi hi'
      exact absurd hi (not_le.mpr hi')
    · rintro j z hj ⟨hzero, hbelow, hdone⟩
      have hsum : Arith.sum (((indicesFrom n (j + 1)).filter (·.val < rank)).map
          fun i => lower i j * z i) = sumFrom (j + 1) fun i => lower i j * z i := by
        rw [Arith.sum_real, indicesFrom, List.filter_filter, sum_map_filter_finRange]
        apply Finset.sum_congr rfl
        intro i _
        by_cases hi : rank ≤ i
        · simp only [hzero i hi, mul_zero, ite_self]
        · have hlt : i.val < rank := not_le.mp hi
          simp [hlt]
      have hset : ∀ i : Fin n, i ≠ j → ∀ x, z.set j x i = z i := by
        intro i hi x
        rw [Vec.set_apply, if_neg (Ne.symm hi)]
      have hafter : ∀ i : Fin n, j ≤ i → ∀ x, sumFrom (i + 1) (fun k => lower k i * z.set j x k) =
          sumFrom (i + 1) fun k => lower k i * z k := by
        intro i hi x
        refine sumFrom_congr ?_
        intro k hk
        rw [hset k (Fin.ne_of_gt (lt_of_le_of_lt hi hk)) x]
      refine ⟨fun i hi => ?_, fun i hi hi' => ?_, fun i hi hi' => ?_⟩
      · rw [hset i (Fin.ne_of_gt (Nat.lt_of_lt_of_le hj hi))]
        exact hzero i hi
      · rw [hset i (Fin.ne_of_lt hi)]
        exact hbelow i (Nat.lt_succ_of_lt hi) hi'
      · rw [hafter i hi]
        rcases eq_or_ne i j with rfl | hne
        · rw [Vec.set_apply, if_pos rfl, hsum, mul_div_cancel₀ _ (hd i hj), sub_add_cancel]
          exact hbelow i (Nat.lt_succ_self i) hj
        · rw [hset i hne]
          exact hdone i (Nat.succ_le_of_lt (lt_of_le_of_ne hi fun he => hne (Fin.ext he.symm))) hi'
  exact ⟨h.1, fun i hi => (upperOf_mulVec _ _ _ i).trans (h.2.2 i (Nat.zero_le i) hi)⟩

namespace Triangular

theorem isUpper_r (f : Triangular ℝ m n) : IsUpper f.r.toMatrix := by
  intro i j hj
  change (Mat.ofFn _ : Mat ℝ n n) i j = 0
  rw [Mat.ofFn_apply, if_neg (not_le.mpr hj)]

theorem r_apply (f : Triangular ℝ m n) {i j : Fin n} (h : i ≤ j) :
    f.r.toMatrix i j = f.square i j := by
  change (Mat.ofFn _ : Mat ℝ n n) i j = _
  rw [Mat.ofFn_apply, if_pos h]

theorem ne_zero_of_lt_rank {f : Triangular ℝ m n} {j : Fin n} (h : j < f.rank) :
    f.square j j ≠ 0 := by
  have hn := not_of_lt_firstIndex h
  intro hz
  rw [negligible, hz] at hn
  simp [Arith.epsilon_pos.le] at hn

/-- The column-oriented loop solves the leading block of `R`. The components before its index lack
the terms of the finished ones to be right-hand sides. -/
theorem solveLeading_solves (f : Triangular ℝ m n) (b : Vec ℝ n) :
    SolvesLeading f.r.toMatrix f.rank b.get (f.solveLeading b).get := by
  let P (k : Nat) (z : Vec ℝ n) : Prop :=
    (∀ i : Fin n, f.rank ≤ i → z i = 0) ∧
      (∀ i : Fin n, i < k → i < f.rank → z i + sumFrom k (fun l => f.square i l * z l) = b i) ∧
      ∀ i : Fin n, k ≤ i → i < f.rank → sumFrom i (fun l => f.square i l * z l) = b i
  have h : P 0 (f.solveLeading b) := by
    refine foldl_reverse_indicesBelow_invariant _ P (firstIndex_le _) ⟨?_, ?_, ?_⟩ ?_
    · intro i hi
      rw [Vec.ofFn_apply, if_neg (not_lt.mpr hi)]
    · intro i hi _
      rw [Vec.ofFn_apply, if_pos hi, sumFrom_eq_zero, add_zero]
      intro l hl
      rw [Vec.ofFn_apply, if_neg (not_lt.mpr hl), mul_zero]
    · intro i hi hi'
      exact absurd hi (not_le.mpr hi')
    · rintro j z hj ⟨hzero, hbelow, hdone⟩
      set t := z j / f.square j j with ht
      set z' : Vec ℝ n := .ofFn fun i =>
        if i < j then z i - f.square i j * t else if i = j then t else z i with hz'
      have hlt : ∀ i : Fin n, i < j → z' i = z i - f.square i j * t := fun i hi => by
        rw [hz', Vec.ofFn_apply, if_pos hi]
      have heq : z' j = t := by
        rw [hz', Vec.ofFn_apply, if_neg (lt_irrefl j), if_pos rfl]
      have hgt : ∀ i : Fin n, j < i → z' i = z i := fun i hi => by
        rw [hz', Vec.ofFn_apply, if_neg hi.not_gt, if_neg hi.ne']
      have hafter : ∀ (i : Fin n) (k : Nat), j < k →
          sumFrom k (fun l => f.square i l * z' l) = sumFrom k fun l => f.square i l * z l :=
        fun i k hk => sumFrom_congr fun l hl => by rw [hgt l (Nat.lt_of_lt_of_le hk hl)]
      refine ⟨fun i hi => ?_, fun i hi hi' => ?_, fun i hi hi' => ?_⟩
      · rw [hgt i (Nat.lt_of_lt_of_le hj hi)]
        exact hzero i hi
      · rw [sumFrom_succ, heq, hlt i hi, hafter i _ (Nat.lt_succ_self j),
          add_comm (f.square i j * t), sub_add_add_cancel]
        exact hbelow i (Nat.lt_succ_of_lt hi) hi'
      · rcases eq_or_ne i j with rfl | hne
        · rw [sumFrom_succ, heq, ht, mul_div_cancel₀ _ (ne_zero_of_lt_rank hj),
            hafter i _ (Nat.lt_succ_self i)]
          exact hbelow i (Nat.lt_succ_self i) hj
        · have hij : j < i := lt_of_le_of_ne hi fun he => hne he.symm
          rw [hafter i i hij]
          exact hdone i hij hi'
  refine ⟨h.1, fun i hi => ?_⟩
  rw [f.isUpper_r.mulVec_apply]
  refine (sumFrom_congr fun l hl => ?_).trans (h.2.2 i (Nat.zero_le i) hi)
  rw [f.r_apply hl]

end Triangular

end LeastSquares
