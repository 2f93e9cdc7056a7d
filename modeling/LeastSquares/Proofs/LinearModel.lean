import LeastSquares.Proofs.Elimination
import LeastSquares.Proofs.Reflections

namespace LeastSquares

open Matrix

variable {k m n : Nat}

/-- Whether a factor with projected residuals stands for the Jacobian `a` and the residuals `b`. -/
structure Triangular.Models (f : Triangular ℝ m n) (q : Vec ℝ n) (a : Matrix (Fin k) (Fin n) ℝ)
    (b : Fin k → ℝ) : Prop where
  injective : Function.Injective f.permutation.get
  gram : ∀ c d, a.col (f.permutation c) ⬝ᵥ a.col (f.permutation d) =
    f.r.toMatrix.col c ⬝ᵥ f.r.toMatrix.col d
  gradient : ∀ c, a.col (f.permutation c) ⬝ᵥ b = f.r.toMatrix.col c ⬝ᵥ q.get

noncomputable def normalOf (a : Matrix (Fin k) (Fin n) ℝ) (w x : Fin n → ℝ) : Fin n → ℝ :=
  aᵀ *ᵥ (a *ᵥ x) + fun i => w i ^ 2 * x i

def Triangular.permute (f : Triangular ℝ m n) (x : Fin n → ℝ) : Fin n → ℝ :=
  fun c => x (f.permutation c)

namespace Triangular.Models

variable {f : Triangular ℝ m n} {q : Vec ℝ n} {a : Matrix (Fin k) (Fin n) ℝ} {b : Fin k → ℝ}

theorem permute_dot (h : f.Models q a b) (x y : Fin n → ℝ) :
    f.permute x ⬝ᵥ f.permute y = x ⬝ᵥ y :=
  (Finite.injective_iff_bijective.mp h.injective).sum_comp fun i => x i * y i

/-- The product with the square of the Jacobian is the product with the square of `R`. -/
theorem normal (h : f.Models q a b) (x : Fin n → ℝ) :
    f.permute (aᵀ *ᵥ (a *ᵥ x)) = f.r.toMatrixᵀ *ᵥ (f.r.toMatrix *ᵥ f.permute x) := by
  funext c
  change a.col (f.permutation c) ⬝ᵥ (a *ᵥ x) = f.r.toMatrix.col c ⬝ᵥ (f.r.toMatrix *ᵥ f.permute x)
  rw [dotProduct_mulVec, dotProduct_mulVec, ← h.permute_dot]
  congr 1
  funext d
  exact h.gram c d

theorem permute_normalOf (h : f.Models q a b) (w x : Fin n → ℝ) :
    f.permute (normalOf a w x) =
      f.r.toMatrixᵀ *ᵥ (f.r.toMatrix *ᵥ f.permute x) +
        fun c => f.permute w c ^ 2 * f.permute x c := by
  rw [← h.normal]
  rfl

/-- Every parameter is that of some permuted column. -/
theorem permute_injective (h : f.Models q a b) {x y : Fin n → ℝ} (hxy : f.permute x = f.permute y) :
    x = y := by
  funext i
  obtain ⟨c, rfl⟩ := (Finite.injective_iff_bijective.mp h.injective).surjective i
  exact congrFun hxy c

theorem exists_permute (h : f.Models q a b) (z : Fin n → ℝ) : ∃ x, f.permute x = z := by
  let p := Equiv.ofBijective _ (Finite.injective_iff_bijective.mp h.injective)
  exact ⟨z ∘ p.symm, funext fun c => congrArg z (p.symm_apply_apply c)⟩

theorem permute_gradient (h : f.Models q a b) : f.permute (aᵀ *ᵥ b) = f.r.toMatrixᵀ *ᵥ q.get :=
  funext h.gradient

/-- The linear change of the residuals has the length of the change that `R` predicts. -/
theorem change_dot_self (h : f.Models q a b) (x : Fin n → ℝ) :
    (f.r.toMatrix *ᵥ f.permute x) ⬝ᵥ (f.r.toMatrix *ᵥ f.permute x) = (a *ᵥ x) ⬝ᵥ (a *ᵥ x) := by
  have hr := h.normal x
  rw [dotProduct_mulVec, dotProduct_mulVec, ← mulVec_transpose, ← mulVec_transpose, ← hr]
  exact h.permute_dot _ _

theorem change_dot (h : f.Models q a b) (x : Fin n → ℝ) :
    (f.r.toMatrix *ᵥ f.permute x) ⬝ᵥ q.get = (a *ᵥ x) ⬝ᵥ b := by
  rw [dotProduct_comm, dotProduct_comm (a *ᵥ x), dotProduct_mulVec, dotProduct_mulVec,
    ← mulVec_transpose, ← mulVec_transpose, ← h.permute_gradient]
  exact h.permute_dot _ _

/-- If the columns of the Jacobian are orthogonal, `R` has their lengths on its diagonal. -/
theorem abs_diagonal_of_orthogonal (h : f.Models q a b)
    (orthogonal : ∀ i j, i ≠ j → a.col i ⬝ᵥ a.col j = 0) (hne : ∀ j, a.col j ≠ 0) (c : Fin n) :
    |f.r c c| = length (a.col (f.permutation c)) := by
  induction c using WellFoundedLT.induction with
  | ind c ih =>
    have regular (d : Fin n) (hd : d < c.val) : f.r.toMatrix d d ≠ 0 := by
      have hlength := ih d hd
      exact abs_pos.mp (hlength ▸ length_pos.mpr (hne _))
    have above (d : Fin n) (hd : d < c.val) : f.r.toMatrix.col c d = 0 := by
      refine f.isUpper_r.eq_zero_of_dot regular (fun e he => ?_) d hd
      rw [← h.gram]
      exact orthogonal _ _ fun hsame => he.ne (congrArg Fin.val (h.injective hsame))
    have hcolumn : f.r.toMatrix.col c ⬝ᵥ f.r.toMatrix.col c = f.r c c * f.r c c := by
      refine Finset.sum_eq_single c (fun i _ hi => ?_) fun hmem => absurd (Finset.mem_univ c) hmem
      rcases lt_or_gt_of_ne hi with hlt | hgt
      · rw [above i hlt, zero_mul]
      · rw [col_apply, f.isUpper_r i c hgt, zero_mul]
    rw [length_eq_sqrt, h.gram, hcolumn, Real.sqrt_mul_self_eq_abs]

end Triangular.Models

namespace QR

/-- The first rows of a sum are all of it if the others vanish. -/
theorem sum_castLE (h : n ≤ m) {g : Fin m → ℝ} (hg : ∀ i : Fin m, n ≤ i → g i = 0) :
    ∑ i : Fin n, g (i.castLE h) = ∑ i, g i := by
  refine Fintype.sum_of_injective (Fin.castLE h) (Fin.castLE_injective h) _ g (fun i hi => ?_)
    fun _ => rfl
  refine hg i (not_lt.mp fun hlt => hi ⟨⟨i, hlt⟩, rfl⟩)

/-- The triangular factor of a Jacobian, with the leading part of the reflected residuals, has the
normal equations of the Jacobian with the residuals. -/
theorem models_factorize (pivoting : Bool) (a : Mat ℝ m n) (b : Vec ℝ m) (h : n ≤ m) :
    ((factorize pivoting a).triangular h).Models
      (((factorize pivoting a).applyTranspose b).leading h) a.toMatrix b.get := by
  set f := factorize pivoting a with hf
  have hcol : ∀ (c : Fin n) (i : Fin n), (f.triangular h).r.toMatrix i c =
      f.applyTranspose (a.col (f.permutation c)) (i.castLE h) := by
    intro c i
    rw [hf, applyTranspose_col]
    unfold Triangular.r Mat.toMatrix
    rw [of_apply, Mat.ofFn_apply]
    split
    · rename_i hi
      have hle : (i.castLE h).val ≤ c := hi
      rw [Triangular.square_apply, if_pos hle]
      rfl
    · rename_i hi
      have hle : ¬(i.castLE h).val ≤ c := fun hle => hi hle
      rw [if_neg hle]
  have hzero : ∀ (c : Fin n) (i : Fin m), n ≤ i →
      f.applyTranspose (a.col (f.permutation c)) i = 0 := by
    intro c i hi
    have hle : ¬i.val ≤ c := by omega
    rw [hf, applyTranspose_col, if_neg hle]
  refine ⟨permutation_factorize_injective pivoting a, fun c d => ?_, fun c => ?_⟩
  · have hdot :=
      applyTranspose_dot pivoting a (a.col (f.permutation c)) (a.col (f.permutation d))
    refine hdot.symm.trans ?_
    refine (sum_castLE h fun i hi => ?_).symm.trans (Finset.sum_congr rfl fun i _ => ?_)
    · rw [hzero c i hi, zero_mul]
    · rw [col_apply, col_apply, hcol, hcol]
  · have hdot := applyTranspose_dot pivoting a (a.col (f.permutation c)) b
    refine hdot.symm.trans ?_
    refine (sum_castLE h fun i hi => ?_).symm.trans (Finset.sum_congr rfl fun i _ => ?_)
    · rw [hzero c i hi, zero_mul]
    · rw [col_apply, hcol, Vec.leading_apply]

end QR

section Damps

variable {t s : Matrix (Fin n) (Fin n) ℝ} {w q r z : Fin n → ℝ} {rank : Nat}

theorem Damps.refl (h : IsUpper t) (q : Fin n → ℝ) : Damps t (fun _ => 0) q t q where
  upper := h
  gram := by simp
  gradient := rfl
  diagonal _ := le_rfl

theorem Damps.normal (h : Damps t w q s r) (z : Fin n → ℝ) :
    sᵀ *ᵥ (s *ᵥ z) = tᵀ *ᵥ (t *ᵥ z) + fun c => w c ^ 2 * z c := by
  rw [mulVec_mulVec, h.gram, add_mulVec, mulVec_mulVec]
  congr 1
  funext c
  exact mulVec_diagonal _ _ c

/-- A solution, truncated or not, is orthogonal to its own damped residuals. -/
theorem SolvesLeading.energy (hz : SolvesLeading s rank r z) (h : Damps t w q s r) :
    (t *ᵥ z) ⬝ᵥ (t *ᵥ z) + scale w z ⬝ᵥ scale w z = (t *ᵥ z) ⬝ᵥ q := by
  have hsquare : ∀ (u : Matrix (Fin n) (Fin n) ℝ) (v : Fin n → ℝ),
      (u *ᵥ z) ⬝ᵥ v = z ⬝ᵥ (uᵀ *ᵥ v) := by
    intro u v
    rw [dotProduct_mulVec, vecMul_transpose]
  have hscale : scale w z ⬝ᵥ scale w z = z ⬝ᵥ fun c => w c ^ 2 * z c := by
    apply Finset.sum_congr rfl
    intro c _
    unfold scale
    ring
  calc (t *ᵥ z) ⬝ᵥ (t *ᵥ z) + scale w z ⬝ᵥ scale w z
      = z ⬝ᵥ (sᵀ *ᵥ (s *ᵥ z)) := by rw [hsquare, hscale, ← dotProduct_add, h.normal]
    _ = (s *ᵥ z) ⬝ᵥ r := by rw [← hsquare, hz.dot h.upper]
    _ = (t *ᵥ z) ⬝ᵥ q := by rw [hsquare, h.gradient, ← hsquare]

theorem SolvesLeading.normal (hz : SolvesLeading s rank r z) (h : Damps t w q s r)
    (hr : n ≤ rank) : (tᵀ *ᵥ (t *ᵥ z) + fun c => w c ^ 2 * z c) = tᵀ *ᵥ q := by
  rw [← h.normal, hz.mulVec_eq hr, h.gradient]

end Damps

end LeastSquares
