import LeastSquares.Gradient
import LeastSquares.Proofs.LinearModel

namespace LeastSquares

open Matrix

variable {k m n : Nat}

theorem le_foldl_maxNum (xs : List ℝ) (s : ℝ) :
    s ≤ xs.foldl Arith.maxNum s ∧ ∀ x ∈ xs, x ≤ xs.foldl Arith.maxNum s := by
  induction xs generalizing s with
  | nil => exact ⟨le_rfl, by simp⟩
  | cons y ys ih =>
    obtain ⟨hstart, hlist⟩ := ih (Arith.maxNum s y)
    rw [Arith.maxNum_real] at hstart hlist
    rw [List.foldl_cons, Arith.maxNum_real]
    refine ⟨(le_max_left s y).trans hstart, ?_⟩
    intro x hx
    rcases List.mem_cons.mp hx with rfl | hx
    · exact (le_max_right s x).trans hstart
    · exact hlist x hx

theorem foldl_maxNum_le {xs : List ℝ} {s t : ℝ} (hs : s ≤ t) (h : ∀ x ∈ xs, x ≤ t) :
    xs.foldl Arith.maxNum s ≤ t := by
  induction xs generalizing s with
  | nil => exact hs
  | cons x xs ih =>
    rw [List.foldl_cons, Arith.maxNum_real]
    exact ih (max_le hs (h x (List.mem_cons_self ..)))
      fun y hy => h y (List.mem_cons_of_mem _ hy)

theorem QR.columnNorms_factorize (pivoting : Bool) (a : Mat ℝ m n) (j : Fin n) :
    (factorize pivoting a).columnNorms j = length (a.toMatrix.col j) :=
  (Vec.ofFn_apply _ j).trans (norm_eq_length (a.col j))

theorem length_ne_zero_of_dot {x y : Fin k → ℝ} (h : x ⬝ᵥ y ≠ 0) : length x ≠ 0 := by
  intro hx
  rw [length_eq_zero.mp hx, zero_dotProduct] at h
  exact h rfl

namespace Triangular

variable {f : Triangular ℝ m n} {q columnNorms : Vec ℝ n} {residualNorm : ℝ}
  {a : Matrix (Fin k) (Fin n) ℝ} {b : Fin k → ℝ}

theorem sum_column (f : Triangular ℝ m n) (q : Vec ℝ n) (residualNorm : ℝ) (j : Fin n) :
    Arith.sum ((indicesBelow n (j + 1)).map fun i => f.square i j * (q i / residualNorm)) =
      (f.r.toMatrix.col j ⬝ᵥ q.get) / residualNorm := by
  rw [Arith.sum_real, sum_indicesBelow, dotProduct, Finset.sum_div]
  apply Finset.sum_congr rfl
  intro i _
  split
  · rename_i hi
    have hle : i ≤ j := Nat.lt_succ_iff.mp hi
    rw [col_apply, f.r_apply hle, mul_div_assoc]
  · rename_i hi
    have hlt : j < i := not_le.mp fun hle => hi (Nat.lt_succ_of_le hle)
    rw [col_apply, f.isUpper_r i j hlt, zero_mul, zero_div]

/-- The gradient is the largest cosine, in whichever order the columns are. -/
theorem gradientNorm_le_iff (hm : f.Models q a b) (hresidual : residualNorm ≠ 0) (bound : ℝ) :
    f.gradientNorm q columnNorms residualNorm ≤ bound ↔
      0 ≤ bound ∧ ∀ j, columnNorms j ≠ 0 →
        |(a.col j ⬝ᵥ b) / residualNorm / columnNorms j| ≤ bound := by
  have hcosine (c : Fin n) :
      Arith.abs (Arith.sum ((indicesBelow n (c + 1)).map fun i =>
        f.square i c * (q i / residualNorm)) / columnNorms (f.permutation c)) =
      |(a.col (f.permutation c) ⬝ᵥ b) / residualNorm / columnNorms (f.permutation c)| := by
    rw [f.sum_column, ← hm.gradient, Arith.abs_real]
  unfold gradientNorm
  rw [if_neg (by simpa using hresidual)]
  simp only [hcosine]
  constructor
  · intro h
    obtain ⟨hstart, hall⟩ := le_foldl_maxNum (((List.finRange n).filter fun j =>
      !(columnNorms (f.permutation j) == 0)).map fun c =>
        |(a.col (f.permutation c) ⬝ᵥ b) / residualNorm / columnNorms (f.permutation c)|) 0
    refine ⟨hstart.trans h, fun j hj => ?_⟩
    obtain ⟨c, rfl⟩ := (Finite.injective_iff_bijective.mp hm.injective).surjective j
    exact (hall _ (List.mem_map.mpr ⟨c, by simpa using hj, rfl⟩)).trans h
  · rintro ⟨hstart, hall⟩
    refine foldl_maxNum_le hstart fun x hx => ?_
    obtain ⟨c, hc, rfl⟩ := List.mem_map.mp hx
    exact hall _ (by simpa using hc)

/-- A column that is not orthogonal to the residuals makes the gradient positive. -/
theorem gradientNorm_pos (hm : f.Models q a b) (hresidual : residualNorm ≠ 0) {j : Fin n}
    (hnorm : columnNorms j ≠ 0) (hgradient : a.col j ⬝ᵥ b ≠ 0) :
    0 < f.gradientNorm q columnNorms residualNorm := by
  by_contra hle
  obtain ⟨-, hall⟩ := (gradientNorm_le_iff hm hresidual 0).mp (not_lt.mp hle)
  have hcosine := abs_nonpos_iff.mp (hall j hnorm)
  simp [hgradient, hresidual, hnorm] at hcosine

end Triangular

/-- With the factorization of a Jacobian the gradient is positive unless the residuals are
orthogonal to every column. -/
theorem QR.gradientNorm_pos (a : Mat ℝ m n) (b : Vec ℝ m) (h : n ≤ m) {j : Fin n}
    (hgradient : a.toMatrix.col j ⬝ᵥ b.get ≠ 0) :
    0 < ((factorize true a).triangular h).gradientNorm
      (((factorize true a).applyTranspose b).leading h) (factorize true a).columnNorms
      (norm b) := by
  have hmodels := models_factorize true a b h
  have hcolumn : (factorize true a).columnNorms j ≠ 0 := by
    rw [columnNorms_factorize]
    exact length_ne_zero_of_dot hgradient
  have hresidual : norm b ≠ 0 := by
    rw [norm_eq_length]
    exact length_ne_zero_of_dot (by rwa [dotProduct_comm])
  exact Triangular.gradientNorm_pos hmodels hresidual hcolumn hgradient

noncomputable def cosine (x y : Fin k → ℝ) : ℝ :=
  |x ⬝ᵥ y| / (length x * length y)

theorem cosine_nonneg (x y : Fin k → ℝ) : 0 ≤ cosine x y :=
  div_nonneg (abs_nonneg _) (mul_nonneg (length_nonneg x) (length_nonneg y))

theorem cosine_le_one (x y : Fin k → ℝ) : cosine x y ≤ 1 :=
  div_le_one_of_le₀ (abs_dot_le_length x y) (mul_nonneg (length_nonneg x) (length_nonneg y))

theorem cosine_eq_zero_iff {x y : Fin k → ℝ} (hx : x ≠ 0) (hy : y ≠ 0) :
    cosine x y = 0 ↔ x ⬝ᵥ y = 0 := by
  have hne : length x * length y ≠ 0 := (mul_pos (length_pos.mpr hx) (length_pos.mpr hy)).ne'
  rw [cosine, div_eq_zero_iff, or_iff_left hne, abs_eq_zero]

/-- The gradient is below a bound exactly if the cosines of all columns are. -/
theorem QR.gradientNorm_le_iff_cosine (pivoting : Bool) (a : Mat ℝ m n) (b : Vec ℝ m) (h : n ≤ m)
    (residuals : b.get ≠ 0) (bound : ℝ) :
    ((factorize pivoting a).triangular h).gradientNorm
        (((factorize pivoting a).applyTranspose b).leading h) (factorize pivoting a).columnNorms
        (norm b) ≤ bound ↔
      0 ≤ bound ∧ ∀ j, a.toMatrix.col j ≠ 0 → cosine (a.toMatrix.col j) b.get ≤ bound := by
  have hresidual : norm b ≠ 0 := by
    rw [norm_eq_length]
    exact (length_pos.mpr residuals).ne'
  rw [Triangular.gradientNorm_le_iff (models_factorize pivoting a b h) hresidual]
  refine and_congr_right fun _ => forall_congr' fun j => ?_
  rw [columnNorms_factorize, ne_eq, length_eq_zero, norm_eq_length, div_div, abs_div,
    abs_of_nonneg (mul_nonneg (length_nonneg _) (length_nonneg _)),
    mul_comm (length b.get), cosine]

/-- The gradient test measures the largest cosine of an angle between the residuals and a nonzero
column of the Jacobian, zero if there is no such column. So the gradient lies between zero and one,
and it is zero exactly if the residuals are orthogonal to all columns. -/
theorem QR.gradientNorm_isGreatest_cosine (pivoting : Bool) (a : Mat ℝ m n) (b : Vec ℝ m)
    (h : n ≤ m) (residuals : b.get ≠ 0) :
    let qr := factorize pivoting a
    let gradient := (qr.triangular h).gradientNorm ((qr.applyTranspose b).leading h)
      qr.columnNorms (norm b)
    let column := a.toMatrix.col
    ((∃ j, column j ≠ 0) →
      IsGreatest {c | ∃ j, column j ≠ 0 ∧ c = cosine (column j) b.get} gradient) ∧
    ((∀ j, column j = 0) → gradient = 0) ∧
    gradient ∈ Set.Icc 0 1 ∧
    (gradient = 0 ↔ a.toMatrixᵀ *ᵥ b.get = 0) := by
  intro qr gradient column
  have hle (bound : ℝ) : gradient ≤ bound ↔
      0 ≤ bound ∧ ∀ j, column j ≠ 0 → cosine (column j) b.get ≤ bound :=
    gradientNorm_le_iff_cosine pivoting a b h residuals bound
  obtain ⟨hnonneg, hcosine⟩ := (hle gradient).mp le_rfl
  refine ⟨?_, ?_, ⟨hnonneg, ?_⟩, ?_⟩
  · rintro ⟨j, hj⟩
    obtain ⟨l, hl, hlargest⟩ := Finset.exists_max_image {j | column j ≠ 0}
      (fun j => cosine (column j) b.get) ⟨j, by simpa using hj⟩
    simp only [Finset.mem_filter, Finset.mem_univ, true_and] at hl hlargest
    have hattained : gradient ≤ cosine (column l) b.get :=
      (hle _).mpr ⟨cosine_nonneg _ _, hlargest⟩
    refine ⟨⟨l, hl, le_antisymm hattained (hcosine l hl)⟩, ?_⟩
    rintro c ⟨j, hj, rfl⟩
    exact hcosine j hj
  · intro hzero
    exact le_antisymm ((hle 0).mpr ⟨le_rfl, fun j hj => absurd (hzero j) hj⟩) hnonneg
  · exact (hle 1).mpr ⟨zero_le_one, fun j _ => cosine_le_one _ _⟩
  · constructor
    · intro hzero
      funext j
      change column j ⬝ᵥ b.get = 0
      by_cases hj : column j = 0
      · rw [hj, zero_dotProduct]
      · rw [← cosine_eq_zero_iff hj residuals]
        exact le_antisymm ((hcosine j hj).trans_eq hzero) (cosine_nonneg _ _)
    · intro hzero
      refine le_antisymm ((hle 0).mpr ⟨le_rfl, fun j hj => ?_⟩) hnonneg
      exact ((cosine_eq_zero_iff hj residuals).mpr (congrFun hzero j)).le

/-- A Jacobian with a zero column, and residuals that are not orthogonal to the other one. -/
theorem QR.gradientNorm_isGreatest_cosine_one_column :
    let a : Mat ℝ 3 2 := .ofFn fun i j => if j.val = 0 then 0 else i.val - 1
    let b : Vec ℝ 3 := .ofFn fun i => if i.val = 0 then -2 else 1
    let qr := factorize true a
    let gradient := (qr.triangular (by decide)).gradientNorm
      ((qr.applyTranspose b).leading (by decide)) qr.columnNorms (norm b)
    let column := a.toMatrix.col
    b.get ≠ 0 ∧ column 0 = 0 ∧ column 1 ≠ 0 ∧
      IsGreatest {c | ∃ j, column j ≠ 0 ∧ c = cosine (column j) b.get} gradient ∧
      gradient ∈ Set.Icc 0 1 ∧ gradient ≠ 0 := by
  intro a b qr gradient column
  have hentry (i : Fin 3) : column 1 i = i.val - 1 := Mat.ofFn_apply _ i 1
  have hfirst : column 0 = 0 := funext fun i => Mat.ofFn_apply _ i 0
  have hresidual (i : Fin 3) : b.get i = if i.val = 0 then -2 else 1 := Vec.ofFn_apply _ i
  have hdot : column 1 ⬝ᵥ b.get = 3 := by
    simp only [dotProduct, Fin.sum_univ_three, hentry, hresidual]
    norm_num
  have hcolumn : column 1 ≠ 0 := by
    intro hzero
    simp [hzero] at hdot
  have residuals : b.get ≠ 0 := by
    intro hzero
    simp [hzero] at hdot
  obtain ⟨greatest, -, range, hiff⟩ := gradientNorm_isGreatest_cosine true a b (by decide) residuals
  refine ⟨residuals, hfirst, hcolumn, greatest ⟨1, hcolumn⟩, range, ?_⟩
  rw [ne_eq, hiff]
  intro hzero
  have hslope : column 1 ⬝ᵥ b.get = 0 := congrFun hzero 1
  simp [hdot] at hslope

end LeastSquares
