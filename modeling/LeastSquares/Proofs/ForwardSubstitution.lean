import LeastSquares.Proofs.Substitution

namespace LeastSquares

open Matrix

variable {m n : Nat}

def sumBelow (k : Nat) (g : Fin n → ℝ) : ℝ :=
  ∑ i, if i.val < k then g i else 0

theorem sumBelow_zero (g : Fin n → ℝ) : sumBelow 0 g = 0 := by
  simp [sumBelow]

theorem sumBelow_succ (j : Fin n) (g : Fin n → ℝ) :
    sumBelow (j + 1) g = sumBelow j g + g j := by
  have hsplit : ∀ i : Fin n, (if i.val < j + 1 then g i else 0) =
      (if i.val < j then g i else 0) + if i = j then g i else 0 := by
    intro i
    by_cases hi : i = j
    · subst hi
      simp
    · have hne : i.val ≠ j := fun he => hi (Fin.ext he)
      have hiff : i.val < j + 1 ↔ i.val < j := by omega
      simp only [hiff, if_neg hi, add_zero]
  simp only [sumBelow, hsplit, Finset.sum_add_distrib, Finset.sum_ite_eq', Finset.mem_univ, if_true]

theorem sumBelow_congr {k : Nat} {g g' : Fin n → ℝ} (h : ∀ i : Fin n, i < k → g i = g' i) :
    sumBelow k g = sumBelow k g' := by
  apply Finset.sum_congr rfl
  intro i _
  split
  · rename_i hi
    exact h i hi
  · rfl

/-- A row of the transpose of an upper triangle ends with its diagonal element. -/
theorem IsUpper.transpose_mulVec_apply {t : Matrix (Fin n) (Fin n) ℝ} (h : IsUpper t)
    (z : Fin n → ℝ) (i : Fin n) :
    (tᵀ *ᵥ z) i = sumBelow i (fun l => t l i * z l) + t i i * z i := by
  rw [← sumBelow_succ i fun l => t l i * z l]
  simp only [mulVec, dotProduct, sumBelow, transpose_apply]
  apply Finset.sum_congr rfl
  intro l _
  split
  · rfl
  · rename_i hl
    have hlt : i < l := not_le.mp fun hle => hl (Nat.lt_succ_of_le hle)
    rw [h l i hlt, zero_mul]

namespace Triangular

/-- The row-oriented loop solves with the transpose of `R`. The components before its index are
final, the others still hold the right-hand side. -/
theorem solveTranspose_solves (f : Triangular ℝ m n) (b : Vec ℝ n)
    (regular : ∀ j, f.square j j ≠ 0) : f.r.toMatrixᵀ *ᵥ (f.solveTranspose b).get = b.get := by
  let P (k : Nat) (z : Vec ℝ n) : Prop :=
    (∀ i : Fin n, i < k →
      sumBelow i (fun l => f.square l i * z l) + f.square i i * z i = b i) ∧
      ∀ i : Fin n, k ≤ i → z i = b i
  have start : P 0 b := ⟨fun i hi => absurd hi (Nat.not_lt_zero i), fun i _ => rfl⟩
  have h : P n (f.solveTranspose b) := by
    refine foldl_finRange_invariant _ P start ?_
    rintro j z ⟨hdone, hleft⟩
    have hsum : Arith.sum ((indicesBelow n j).map fun i => f.square i j * z i) =
        sumBelow j fun i => f.square i j * z i := by
      rw [Arith.sum_real, sum_indicesBelow]
      rfl
    have hbelow (i : Fin n) (hi : i ≤ j) (x : ℝ) :
        sumBelow i (fun l => f.square l i * z.set j x l) =
          sumBelow i fun l => f.square l i * z l := by
      apply sumBelow_congr
      intro l hl
      rw [Vec.set_apply, if_neg (Fin.ne_of_gt (Fin.lt_def.mpr (hl.trans_le hi)))]
    refine ⟨fun i hi => ?_, fun i hi => ?_⟩
    · rw [hbelow i (Nat.lt_succ_iff.mp hi), Vec.set_apply]
      split
      · rename_i hij
        subst hij
        rw [hsum, mul_div_cancel₀ _ (regular j), add_sub_cancel, hleft j le_rfl]
      · rename_i hne
        exact hdone i (lt_of_le_of_ne (Nat.lt_succ_iff.mp hi) fun he => hne (Fin.ext he.symm))
    · rw [Vec.set_apply, if_neg (Fin.ne_of_lt hi)]
      exact hleft i (Nat.le_of_succ_le hi)
  funext i
  rw [f.isUpper_r.transpose_mulVec_apply, f.r_apply le_rfl]
  refine Eq.trans ?_ (h.1 i i.isLt)
  congr 1
  apply sumBelow_congr
  intro l hl
  rw [f.r_apply (Fin.le_def.mpr hl.le)]

/-- The column-oriented loop solves with the transpose of a triangle that is kept below the
diagonal. The components from its index on lack the terms of the finished ones to be right-hand
sides. -/
theorem solveDampedTranspose_solves (f : Triangular ℝ m n) (diagonal b : Vec ℝ n)
    (regular : ∀ j, diagonal j ≠ 0) :
    (upperOf diagonal f.square)ᵀ *ᵥ (f.solveDampedTranspose diagonal b).get = b.get := by
  let P (k : Nat) (z : Vec ℝ n) : Prop :=
    (∀ i : Fin n, i < k → sumBelow i (fun l => f.square i l * z l) + diagonal i * z i = b i) ∧
      ∀ i : Fin n, k ≤ i → z i + sumBelow k (fun l => f.square i l * z l) = b i
  have start : P 0 b := by
    refine ⟨fun i hi => absurd hi (Nat.not_lt_zero i), fun i _ => ?_⟩
    rw [sumBelow_zero, add_zero]
  have h : P n (f.solveDampedTranspose diagonal b) := by
    refine foldl_finRange_invariant _ P start ?_
    rintro j z ⟨hdone, hleft⟩
    set t := z j / diagonal j with ht
    set z' : Vec ℝ n := .ofFn fun i =>
      if j < i then z i - f.square i j * t else if i = j then t else z i with hz'
    have hgt (i : Fin n) (hi : j < i) : z' i = z i - f.square i j * t := by
      rw [hz', Vec.ofFn_apply, if_pos hi]
    have heq : z' j = t := by
      rw [hz', Vec.ofFn_apply, if_neg (lt_irrefl j), if_pos rfl]
    have hlt (i : Fin n) (hi : i < j) : z' i = z i := by
      rw [hz', Vec.ofFn_apply, if_neg hi.not_gt, if_neg hi.ne]
    have hbelow (i : Fin n) (k : Nat) (hk : k ≤ j) :
        sumBelow k (fun l => f.square i l * z' l) = sumBelow k fun l => f.square i l * z l := by
      apply sumBelow_congr
      intro l hl
      rw [hlt l (Fin.lt_def.mpr (hl.trans_le hk))]
    refine ⟨fun i hi => ?_, fun i hi => ?_⟩
    · rw [hbelow i i (Nat.lt_succ_iff.mp hi)]
      rcases eq_or_ne i j with rfl | hne
      · rw [heq, ht, mul_div_cancel₀ _ (regular i), add_comm]
        exact hleft i le_rfl
      · have hij : i < j := lt_of_le_of_ne (Nat.lt_succ_iff.mp hi) hne
        rw [hlt i hij]
        exact hdone i hij
    · rw [hgt i (Fin.lt_def.mpr hi), sumBelow_succ, heq, hbelow i j le_rfl,
        ← hleft i (Nat.le_of_succ_le hi)]
      ring
  funext i
  rw [(isUpper_upperOf diagonal f.square).transpose_mulVec_apply]
  have hdiagonal : upperOf diagonal f.square i i = diagonal i := if_pos rfl
  rw [hdiagonal]
  refine Eq.trans ?_ (h.1 i i.isLt)
  congr 1
  apply sumBelow_congr
  intro l hl
  have hli : l < i := hl
  change (if l = i then _ else if l < i then f.square i l else 0) * _ = _
  rw [if_neg hli.ne, if_pos hli]

/-- The product with the transpose of `R`, as the library adds it up. -/
theorem transposeMul_get (f : Triangular ℝ m n) (b : Vec ℝ n) :
    (f.transposeMul b).get = f.r.toMatrixᵀ *ᵥ b.get := by
  funext j
  have hentry : f.transposeMul b j =
      Arith.sum ((indicesBelow n (j + 1)).map fun i => f.square i j * b i) := Vec.ofFn_apply _ j
  refine hentry.trans ?_
  rw [Arith.sum_real, sum_indicesBelow, f.isUpper_r.transpose_mulVec_apply,
    ← sumBelow_succ j fun l => f.r.toMatrix l j * b.get l]
  apply sumBelow_congr
  intro i hi
  rw [f.r_apply (Fin.le_def.mpr (Nat.lt_succ_iff.mp hi))]

end Triangular

end LeastSquares
