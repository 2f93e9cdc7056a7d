import LeastSquares.Proofs.NormalEquations

namespace LeastSquares

open Matrix

variable {σ : Type} {m n : Nat}

structure Units where
  size : Nat → ℝ
  size_pos : ∀ i, 0 < size i

namespace Units

noncomputable def measure (u : Units) (x : Array ℝ) : Array ℝ :=
  x.mapIdx fun i value => value / u.size i

noncomputable def restore (u : Units) (y : Array ℝ) : Array ℝ :=
  y.mapIdx fun i value => u.size i * value

noncomputable def measured (u : Units) (x : Vec ℝ n) : Vec ℝ n :=
  .ofFn fun i => x i / u.size i

noncomputable def derivatives (u : Units) (a : Mat ℝ m n) : Mat ℝ m n :=
  .ofFn fun i j => a i j * u.size j

noncomputable def jacobian (u : Units) (a : Jacobian ℝ) : Jacobian ℝ :=
  { a with entries := u.derivatives a.entries }

def sizes (u : Units) (n : Nat) : Fin n → ℝ :=
  fun i => u.size i

variable (u : Units)

theorem sizes_ne_zero (i : Fin n) : u.sizes n i ≠ 0 :=
  (u.size_pos i).ne'

@[simp] theorem size_measure (x : Array ℝ) : (u.measure x).size = x.size :=
  Array.size_mapIdx

@[simp] theorem restore_measure (x : Array ℝ) : u.restore (u.measure x) = x := by
  refine Array.ext (by simp [restore]) fun i _ _ => ?_
  simp only [restore, measure, Array.getElem_mapIdx]
  exact mul_div_cancel₀ _ (u.size_pos i).ne'

theorem toArray_measured (x : Vec ℝ n) : (u.measured x).toArray = u.measure x.toArray := by
  refine Array.ext (by simp) fun i hi _ => ?_
  have hi : i < n := by simpa using hi
  have hmeasured : u.measured x ⟨i, hi⟩ = x ⟨i, hi⟩ / u.size i := Vec.ofFn_apply _ _
  simpa [measure, Vec.toArray, Vec.get] using hmeasured

theorem scale_measured (x : Vec ℝ n) : scale (u.sizes n) (u.measured x).get = x.get := by
  funext i
  have hmeasured : (u.measured x).get i = x i / u.size i := Vec.ofFn_apply _ _
  rw [scale, hmeasured]
  exact mul_div_cancel₀ _ (u.size_pos i).ne'

theorem measured_of_scale {x y : Vec ℝ n} (h : scale (u.sizes n) y.get = x.get) :
    y = u.measured x := by
  ext i
  refine congrFun (scale_injective u.sizes_ne_zero ?_) i
  rw [h, scale_measured]

theorem toMatrix_derivatives (a : Mat ℝ m n) :
    (u.derivatives a).toMatrix = a.toMatrix * diagonal (u.sizes n) := by
  ext i j
  rw [mul_diagonal]
  exact Mat.ofFn_apply _ i j

theorem col_derivatives (a : Mat ℝ m n) (j : Fin n) :
    (u.derivatives a).toMatrix.col j = u.size j • a.toMatrix.col j := by
  funext i
  rw [toMatrix_derivatives, col_apply, mul_diagonal, mul_comm]
  rfl

theorem toMat?_jacobian (a : Jacobian ℝ) :
    (u.jacobian a).toMat? m n = (a.toMat? m n).map u.derivatives := by
  obtain ⟨k, l, entries⟩ := a
  by_cases h : k = m ∧ l = n
  · obtain ⟨rfl, rfl⟩ := h
    rw [Jacobian.toMat?_mk]
    exact Jacobian.toMat?_mk _
  · have hnone {entries : Mat ℝ k l} : (⟨k, l, entries⟩ : Jacobian ℝ).toMat? m n = none := dif_neg h
    rw [hnone]
    exact hnone

end Units

theorem length_smul (c : ℝ) (v : Fin m → ℝ) : length (c • v) = |c| * length v :=
  norm_smul c (WithLp.toLp 2 v)

namespace QR

variable (u : Units) (a : Mat ℝ m n)

/-- The norms of the columns grow with the units. -/
theorem columnNorms_derivatives (j : Fin n) :
    (factorize true (u.derivatives a)).columnNorms j =
      u.size j * (factorize true a).columnNorms j := by
  rw [columnNorms_factorize, columnNorms_factorize, u.col_derivatives, length_smul,
    abs_of_pos (u.size_pos j)]

/-- A regular factor has no zero column. -/
theorem columnNorms_ne_zero {a : Mat ℝ m n} {h : n ≤ m}
    (regular : ((factorize true a).triangular h).IsRegular) (j : Fin n) :
    (factorize true a).columnNorms j ≠ 0 := by
  have hm := models_factorize true a (.fill m 0) h
  obtain ⟨c, rfl⟩ := (Finite.injective_iff_bijective.mp hm.injective).surjective j
  rw [columnNorms_factorize]
  intro hzero
  have hgram := hm.gram c c
  rw [← length_sq, ← length_sq, hzero, zero_pow two_ne_zero, eq_comm, sq_eq_zero_iff] at hgram
  have hcol : ((factorize true a).triangular h).r.toMatrix.col c = 0 :=
    length_eq_zero.mp hgram
  exact regular.ne_zero c (congrFun hcol c)

end QR

namespace Triangular

variable {k : Nat} {f : Triangular ℝ m n} {q columnNorms : Vec ℝ n} {residualNorm : ℝ}
  {a : Matrix (Fin k) (Fin n) ℝ} {b : Fin k → ℝ}

/-- The gradient is the same in all units. -/
theorem gradientNorm_derivatives (u : Units) (a : Mat ℝ m n) (b : Vec ℝ m) (h : n ≤ m)
    (residualNorm : ℝ) :
    let qr := QR.factorize true a
    let qr' := QR.factorize true (u.derivatives a)
    (qr'.triangular h).gradientNorm ((qr'.applyTranspose b).leading h) qr'.columnNorms
        residualNorm =
      (qr.triangular h).gradientNorm ((qr.applyTranspose b).leading h) qr.columnNorms
        residualNorm := by
  intro qr qr'
  by_cases hresidual : residualNorm = 0
  · rw [hresidual, gradientNorm_zero, gradientNorm_zero]
  · refine eq_of_forall_ge_iff fun bound => ?_
    rw [gradientNorm_le_iff (QR.models_factorize true a b h) hresidual,
      gradientNorm_le_iff (QR.models_factorize true (u.derivatives a) b h) hresidual]
    refine and_congr_right fun _ => forall_congr' fun j => ?_
    have hpos := u.size_pos j
    rw [QR.columnNorms_derivatives, u.col_derivatives, smul_dotProduct, smul_eq_mul,
      mul_div_assoc, mul_div_mul_left _ _ hpos.ne']
    simp [qr, hpos.ne']

end Triangular

end LeastSquares
