import LeastSquares.Proofs.OrthogonalFactor
import LeastSquares.Proofs.Pivoting
import Mathlib.LinearAlgebra.Matrix.Rank

namespace LeastSquares

variable {α : Type} {m n : Nat}

namespace Reduction

def HoldsDiagonal (s : Reduction α m n) (k : Nat) : Prop :=
  ∀ i : Fin (min m n), i < k →
    s.remaining (pivotColumn i) = s.packed (pivotRow i) (pivotColumn i)

variable [Scalar α] {s : Reduction α m n} {j : Fin (min m n)}

theorem HoldsDiagonal.exchange (h : s.HoldsDiagonal j) :
    (s.exchange (pivotColumn j) (s.largestColumn (pivotColumn j))).HoldsDiagonal j := by
  intro i hi
  have hj : pivotColumn i < pivotColumn j := hi
  have hle := s.le_largestColumn (pivotColumn j)
  have hk : s.largestColumn (pivotColumn j) ≠ pivotColumn i := (hj.trans_le hle).ne'
  rw [packed_exchange, ← Mat.col_apply, Mat.col_swapCols, if_neg hk, if_neg hj.ne', Mat.col_apply,
    ← h i hi]
  unfold Reduction.exchange
  split
  · rfl
  · exact (Vec.set_apply _ _ _ _).trans (if_neg hk)

theorem HoldsDiagonal.reflectColumns (h : s.HoldsDiagonal j) (pivoting : Bool) (v : Vec α m) :
    (s.reflectColumns pivoting j v).HoldsDiagonal j := by
  intro i hi
  have hj : pivotColumn i < pivotColumn j := hi
  have hpacked : (s.reflectColumns pivoting j v).packed (pivotRow i) (pivotColumn i) =
      s.packed (pivotRow i) (pivotColumn i) := by
    rw [← Mat.col_apply]
    unfold Reduction.reflectColumns
    rw [Mat.col_mapCols, if_neg hj.not_gt, if_neg hj.ne, Mat.col_apply]
  rw [hpacked, ← h i hi]
  unfold Reduction.reflectColumns
  simp [hj.not_gt]

theorem HoldsDiagonal.finishColumn (h : s.HoldsDiagonal j) (size : α) :
    (s.finishColumn j size).HoldsDiagonal (j + 1) := by
  intro i hi
  change s.remaining.set (pivotColumn j) (-size) (pivotColumn i) =
    s.packed.set (pivotRow j) (pivotColumn j) (-size) (pivotRow i) (pivotColumn i)
  rw [Vec.set_apply, Mat.set_apply]
  rcases Nat.lt_succ_iff_lt_or_eq.mp hi with hlt | heq
  · have hne : pivotColumn j ≠ pivotColumn i := Fin.ne_of_gt hlt
    rw [if_neg hne, if_neg fun e => hne e.2]
    exact h i hlt
  · obtain rfl := Fin.ext heq
    rw [if_pos rfl, if_pos ⟨rfl, rfl⟩]

theorem HoldsDiagonal.step (h : s.HoldsDiagonal j) (pivoting : Bool) :
    (s.step pivoting j).HoldsDiagonal (j + 1) := by
  have hreduce {s : Reduction α m n} (h : s.HoldsDiagonal j) :
      (s.reduceColumn pivoting j).HoldsDiagonal (j + 1) := by
    unfold Reduction.reduceColumn
    dsimp only
    split
    · exact h.finishColumn _
    · exact (h.reflectColumns pivoting _).finishColumn _
  unfold Reduction.step
  dsimp only
  split
  · exact hreduce h.exchange
  · exact hreduce h

end Reduction

namespace QR

/-- In any arithmetic the diagonal that is kept apart is that of `R`. -/
theorem diagonal_factorize [Scalar α] (pivoting : Bool) (a : Mat α m n) (j : Fin (min m n)) :
    (factorize pivoting a).diagonal (pivotColumn j) =
      (factorize pivoting a).packed (pivotRow j) (pivotColumn j) :=
  foldl_finRange_invariant (Reduction.step pivoting) (fun k s => s.HoldsDiagonal k)
    (fun _ hi => absurd hi (Nat.not_lt_zero _)) (fun _ _ h => h.step pivoting) j j.isLt

theorem r_pivot (f : QR ℝ m n) (j : Fin (min m n)) :
    f.r j (pivotColumn j) = f.packed (pivotRow j) (pivotColumn j) := by
  rw [r_apply]
  exact if_pos le_rfl

/-- From the row of a diagonal element of `R` on, no column is longer than that element. -/
theorem sum_sq_le_diagonal (a : Mat ℝ m n) (j : Fin (min m n)) {k : Fin n}
    (hk : pivotColumn j ≤ k) :
    ∑ i with j ≤ i ∧ i.val ≤ k.val, (factorize true a).r i k ^ 2 ≤
      (factorize true a).r j (pivotColumn j) ^ 2 := by
  rw [r_pivot]
  refine le_trans (le_of_eq ?_) (sumFrom_le_diagonal a j hk)
  let g (i : Fin m) : ℝ :=
    if j.val ≤ i then (if i.val ≤ k then (factorize true a).packed i k else 0) ^ 2 else 0
  have hg (i : Fin m) (hi : min m n ≤ i) : g i = 0 := by
    have hik : ¬i.val ≤ k := by omega
    simp only [g, if_neg hik, zero_pow two_ne_zero, ite_self]
  rw [Finset.sum_filter]
  refine Eq.trans (Finset.sum_congr rfl fun i _ => ?_) (sum_castLE (min_le_left m n) hg)
  rw [r_apply]
  change _ = if j ≤ i then (if i.val ≤ k then _ else 0) ^ 2 else 0
  by_cases hik : i.val ≤ k.val <;> simp [hik, pivotRow]

theorem r_sq_le_diagonal (a : Mat ℝ m n) {i j : Fin (min m n)} (hij : j ≤ i) {k : Fin n}
    (hk : pivotColumn j ≤ k) :
    (factorize true a).r i k ^ 2 ≤ (factorize true a).r j (pivotColumn j) ^ 2 := by
  by_cases hik : i.val ≤ k.val
  · refine le_trans ?_ (sum_sq_le_diagonal a j hk)
    exact Finset.single_le_sum (f := fun i => (factorize true a).r i k ^ 2)
      (fun _ _ => sq_nonneg _) (Finset.mem_filter.mpr ⟨Finset.mem_univ i, hij, hik⟩)
  · rw [r_apply, if_neg hik, zero_pow two_ne_zero]
    exact sq_nonneg _

theorem antitone_diagonal (a : Mat ℝ m n) :
    Antitone fun j => |(factorize true a).r j (pivotColumn j)| := by
  intro j i hij
  exact sq_le_sq.mp (r_sq_le_diagonal a hij hij)

/-- A zero on the diagonal of `R` is followed by zeros only. -/
theorem r_eq_zero_of_diagonal (a : Mat ℝ m n) {j : Fin (min m n)}
    (h : (factorize true a).r j (pivotColumn j) = 0) {i : Fin (min m n)} (hij : j ≤ i)
    (k : Fin n) : (factorize true a).r i k = 0 := by
  by_cases hik : i.val ≤ k.val
  · have hjk : pivotColumn j ≤ k := (Fin.le_def.mp hij).trans hik
    have hle := r_sq_le_diagonal a hij hjk
    rw [h, zero_pow two_ne_zero] at hle
    exact pow_eq_zero_iff two_ne_zero |>.mp (le_antisymm hle (sq_nonneg _))
  · rw [r_apply, if_neg hik]

/-- Reflections and exchanges keep the rank. -/
theorem rank_r (pivoting : Bool) (a : Mat ℝ m n) :
    (factorize pivoting a).r.toMatrix.rank = a.toMatrix.rank := by
  rw [← Matrix.rank_transpose_mul_self, gram_factorize, Matrix.rank_transpose_mul_self]
  exact Matrix.rank_submatrix a.toMatrix (.refl _)
    (.ofBijective _ (permutation_factorize_bijective pivoting a))

end QR

section Rank

variable {q : Nat} {t : Matrix (Fin q) (Fin n) ℝ} {column : Fin q → Fin n}

/-- The rows with a nonzero diagonal element, of a triangle, are independent. -/
theorem card_le_rank (upper : ∀ i j, j < i → t i (column j) = 0) :
    Fintype.card {j // t j (column j) ≠ 0} ≤ t.rank := by
  let s : Matrix {j // t j (column j) ≠ 0} {j // t j (column j) ≠ 0} ℝ :=
    t.submatrix Subtype.val fun j => column j
  have hdet : s.det ≠ 0 := by
    have hs : s.IsUpperTriangular := fun i j hij => upper i j hij
    rw [Matrix.det_of_isUpperTriangular hs]
    exact Finset.prod_ne_zero_iff.mpr fun j _ => j.property
  rw [← Matrix.rank_of_det_ne_zero hdet]
  exact t.rank_submatrix_le _ _

/-- If the rows with a zero on the diagonal vanish, the rank is no larger than the number of the
others. -/
theorem rank_le_card (zero : ∀ j, t j (column j) = 0 → ∀ k, t j k = 0) :
    t.rank ≤ Fintype.card {j // t j (column j) ≠ 0} := by
  have ht : t = Matrix.diagonal (fun j => t j (column j)) *
      Matrix.of fun j k => t j k / t j (column j) := by
    ext j k
    rw [Matrix.diagonal_mul, Matrix.of_apply]
    by_cases hj : t j (column j) = 0
    · rw [hj, zero j hj k, zero_mul]
    · rw [mul_div_cancel₀ _ hj]
  rw [← Matrix.rank_diagonal]
  conv_lhs => rw [ht]
  exact Matrix.rank_mul_le_left _ _

end Rank

/-- Pivoting reveals the rank. The diagonal of `R` dominates the columns behind it, so its
magnitudes fall. A zero on it is followed by zeros only, and the others are as many as the rank of
the matrix. -/
theorem QR.factorize_reveals_rank (a : Mat ℝ m n) :
    let f := factorize true a
    (∀ j, f.diagonal (pivotColumn j) = f.r j (pivotColumn j)) ∧
    (∀ j k, pivotColumn j < k →
      ∑ i with j ≤ i ∧ i.val ≤ k.val, f.r i k ^ 2 ≤ f.r j (pivotColumn j) ^ 2) ∧
    (Antitone fun j => |f.r j (pivotColumn j)|) ∧
    (∀ j, f.r j (pivotColumn j) = 0 → ∀ i k, j ≤ i → f.r i k = 0) ∧
    Fintype.card {j // f.r j (pivotColumn j) ≠ 0} = a.toMatrix.rank := by
  intro f
  refine ⟨fun j => ?_, fun j k hk => sum_sq_le_diagonal a j hk.le, antitone_diagonal a,
    fun j hj i k hij => r_eq_zero_of_diagonal a hj hij k, ?_⟩
  · rw [r_pivot]
    exact diagonal_factorize true a j
  · have upper (i j : Fin (min m n)) (hij : j < i) : f.r i (pivotColumn j) = 0 := by
      rw [r_apply]
      exact if_neg (not_le.mpr hij)
    have zero (j : Fin (min m n)) (hj : f.r j (pivotColumn j) = 0) (k : Fin n) : f.r j k = 0 :=
      r_eq_zero_of_diagonal a hj le_rfl k
    rw [← rank_r true a]
    exact le_antisymm (card_le_rank upper) (rank_le_card zero)

/-- Two equal columns leave one nonzero diagonal element, the first one. -/
theorem QR.factorize_reveals_equal_columns :
    let f := factorize true (.fill 2 2 1 : Mat ℝ 2 2)
    let first : Fin (min 2 2) := ⟨0, by decide⟩
    let second : Fin (min 2 2) := ⟨1, by decide⟩
    f.r first (pivotColumn first) ≠ 0 ∧ f.r second (pivotColumn second) = 0 := by
  intro f first second
  obtain ⟨-, -, antitone, -, hrank⟩ := factorize_reveals_rank (.fill 2 2 1 : Mat ℝ 2 2)
  have hone : (Mat.fill 2 2 1 : Mat ℝ 2 2).toMatrix.rank = 1 := by
    have hfill : (Mat.fill 2 2 1 : Mat ℝ 2 2).toMatrix = Matrix.vecMulVec 1 1 := by
      ext i j
      simp [Matrix.vecMulVec]
    have hentry := Matrix.rank_of_det_ne_zero (m := Fin 1)
      (A := (Mat.fill 2 2 1 : Mat ℝ 2 2).toMatrix.submatrix (fun _ => 0) fun _ => 0)
      (by simp [Matrix.det_unique])
    refine le_antisymm (hfill ▸ Matrix.rank_vecMulVec_le 1 1) ?_
    exact hentry.symm.trans_le (Matrix.rank_submatrix_le _ _ _)
  rw [hone, Fintype.card_eq_one_iff] at hrank
  obtain ⟨⟨j, hj⟩, hunique⟩ := hrank
  have hfalls : |f.r j (pivotColumn j)| ≤ |f.r first (pivotColumn first)| :=
    antitone (Nat.zero_le j)
  have hfirst : f.r first (pivotColumn first) ≠ 0 := abs_pos.mp ((abs_pos.mpr hj).trans_le hfalls)
  refine ⟨hfirst, ?_⟩
  by_contra hsecond
  have heq := (hunique ⟨first, hfirst⟩).trans (hunique ⟨second, hsecond⟩).symm
  exact Nat.zero_ne_one (congrArg (fun j => j.val.val) heq)

end LeastSquares
