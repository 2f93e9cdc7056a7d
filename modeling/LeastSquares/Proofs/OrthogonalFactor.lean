import LeastSquares.Proofs.LinearModel

namespace LeastSquares

open Matrix

variable {m n p : Nat}

noncomputable def reflectionMap (lead : ℝ) (w : Fin m → ℝ) : (Fin m → ℝ) →ₗ[ℝ] Fin m → ℝ where
  toFun := reflection lead w
  map_add' b c := by
    simp only [reflection, dotProduct_add, add_div, add_smul]
    abel
  map_smul' s b := by
    simp only [reflection, dotProduct_smul, smul_eq_mul, mul_div_assoc, mul_smul, smul_sub,
      RingHom.id_apply]

noncomputable def reflectFirstMap (lead : Fin p → ℝ) (w : Fin p → Fin m → ℝ) :
    Nat → (Fin m → ℝ) →ₗ[ℝ] Fin m → ℝ
  | 0 => .id
  | k + 1 =>
    if h : k < p then reflectionMap (lead ⟨k, h⟩) (w ⟨k, h⟩) ∘ₗ reflectFirstMap lead w k
    else reflectFirstMap lead w k

theorem reflectFirstMap_apply (lead : Fin p → ℝ) (w : Fin p → Fin m → ℝ) (k : Nat)
    (b : Fin m → ℝ) : reflectFirstMap lead w k b = reflectFirst lead w k b := by
  induction k with
  | zero => rfl
  | succ k ih =>
    unfold reflectFirstMap reflectFirst
    split
    · rw [LinearMap.comp_apply, ih]
      rfl
    · exact ih

namespace QR

noncomputable def transposeMap (f : QR ℝ m n) : (Fin m → ℝ) →ₗ[ℝ] Fin m → ℝ :=
  reflectFirstMap f.leading.get f.axes (min m n)

theorem transposeMap_get (f : QR ℝ m n) (b : Vec ℝ m) :
    f.transposeMap b.get = (f.applyTranspose b).get := by
  rw [transposeMap, reflectFirstMap_apply, applyTranspose_get]

theorem r_apply (f : QR ℝ m n) (i : Fin (min m n)) (k : Fin n) :
    f.r i k = if i.val ≤ k then f.packed (pivotRow i) k else 0 :=
  Mat.ofFn_apply _ _ _

def paddedColumn (f : QR ℝ m n) (k : Fin n) : Fin m → ℝ :=
  fun i => if h : i.val < min m n then f.r ⟨i, h⟩ k else 0

theorem applyTranspose_eq_paddedColumn (pivoting : Bool) (a : Mat ℝ m n) (k : Fin n) :
    let f := factorize pivoting a
    (f.applyTranspose (a.col (f.permutation k))).get = f.paddedColumn k := by
  intro f
  funext i
  refine (applyTranspose_col pivoting a k i).trans ?_
  unfold paddedColumn
  split
  · rename_i hi
    have hlt : i.val < min m n := lt_min i.isLt (hi.trans_lt k.isLt)
    rw [dif_pos hlt, r_apply, if_pos hi]
    rfl
  · rename_i hi
    split
    · rw [r_apply, if_neg hi]
    · rfl

theorem paddedColumn_dot (f : QR ℝ m n) (c d : Fin n) :
    f.paddedColumn c ⬝ᵥ f.paddedColumn d = f.r.toMatrix.col c ⬝ᵥ f.r.toMatrix.col d := by
  have hzero (i : Fin m) (hi : min m n ≤ i) : f.paddedColumn c i * f.paddedColumn d i = 0 := by
    rw [paddedColumn, dif_neg (not_lt.mpr hi), zero_mul]
  refine (sum_castLE (min_le_left m n) hzero).symm.trans (Finset.sum_congr rfl fun i _ => ?_)
  have hi : (i.castLE (min_le_left m n)).val < min m n := i.isLt
  rw [paddedColumn, paddedColumn, dif_pos hi, dif_pos hi]
  rfl

/-- `R` and the permuted matrix have the same Gram matrix. -/
theorem gram_factorize (pivoting : Bool) (a : Mat ℝ m n) :
    let f := factorize pivoting a
    let permuted := a.toMatrix.submatrix id f.permutation.get
    f.r.toMatrixᵀ * f.r.toMatrix = permutedᵀ * permuted := by
  intro f permuted
  have hcolumn (k : Fin n) :
      (f.applyTranspose (a.col (f.permutation k))).get = f.paddedColumn k :=
    applyTranspose_eq_paddedColumn pivoting a k
  ext c d
  calc f.r.toMatrix.col c ⬝ᵥ f.r.toMatrix.col d
      = f.paddedColumn c ⬝ᵥ f.paddedColumn d := (f.paddedColumn_dot c d).symm
    _ = permuted.col c ⬝ᵥ permuted.col d := by
      rw [← hcolumn, ← hcolumn]
      exact applyTranspose_dot pivoting a _ _

theorem permutation_factorize_bijective (pivoting : Bool) (a : Mat ℝ m n) :
    Function.Bijective (factorize pivoting a).permutation.get :=
  Finite.injective_iff_bijective.mp (permutation_factorize_injective pivoting a)

/-- The factorization of any matrix, with pivoting or without. The product with the transposed
orthogonal factor is linear and keeps inner products, and it takes the permuted columns of the
matrix to those of `R`. So `R` and the permuted matrix have the same Gram matrix. -/
theorem factorize_isFactorization (pivoting : Bool) (a : Mat ℝ m n) :
    let f := factorize pivoting a
    let permuted := a.toMatrix.submatrix id f.permutation.get
    Function.Bijective f.permutation.get ∧
    (∃ q : (Fin m → ℝ) →ₗ[ℝ] Fin m → ℝ,
      (∀ b, (f.applyTranspose b).get = q b.get) ∧
      (∀ b c, q b ⬝ᵥ q c = b ⬝ᵥ c) ∧
      ∀ k, q (permuted.col k) =
        fun i : Fin m => if h : i.val < min m n then f.r ⟨i, h⟩ k else 0) ∧
    f.r.toMatrixᵀ * f.r.toMatrix = permutedᵀ * permuted := by
  intro f permuted
  refine ⟨permutation_factorize_bijective pivoting a,
    ⟨f.transposeMap, fun b => (f.transposeMap_get b).symm, ?_, ?_⟩, gram_factorize pivoting a⟩
  · intro b c
    have hdot := applyTranspose_dot pivoting a (.ofFn b) (.ofFn c)
    rw [← transposeMap_get, ← transposeMap_get] at hdot
    have hget (v : Fin m → ℝ) : (Vec.ofFn v).get = v := funext (Vec.ofFn_apply v)
    rwa [hget, hget] at hdot
  · intro k
    exact (f.transposeMap_get (a.col (f.permutation k))).trans
      (applyTranspose_eq_paddedColumn pivoting a k)

end QR

end LeastSquares
