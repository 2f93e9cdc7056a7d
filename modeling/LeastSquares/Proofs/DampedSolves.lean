import LeastSquares.Proofs.NormalEquations

namespace LeastSquares

open Matrix

variable {k m n : Nat}

noncomputable def dampedCost (a : Matrix (Fin k) (Fin n) ℝ) (b : Fin k → ℝ) (w x : Fin n → ℝ) : ℝ :=
  length (a *ᵥ x - b) ^ 2 + length (scale w x) ^ 2

/-- The triangular factor with its columns in the order of the parameters: the product of `R` with
the transposed matrix of the permutation. -/
noncomputable def Triangular.ordered (f : Triangular ℝ m n) : Matrix (Fin n) (Fin n) ℝ :=
  f.r.toMatrix * (Matrix.of fun l c => if f.permutation c = l then 1 else 0)ᵀ

section Cost

variable {a : Matrix (Fin k) (Fin n) ℝ} {b : Fin k → ℝ} {w x y : Fin n → ℝ}

/-- The cost at `y` seen from `x`: a linear term with the defect of the normal equations, and a
square. -/
theorem dampedCost_eq (a : Matrix (Fin k) (Fin n) ℝ) (b : Fin k → ℝ) (w x y : Fin n → ℝ) :
    dampedCost a b w y =
      dampedCost a b w x + 2 * ((y - x) ⬝ᵥ (normalOf a w x - aᵀ *ᵥ b)) +
        (length (a *ᵥ (y - x)) ^ 2 + length (scale w (y - x)) ^ 2) := by
  set u := y - x with hu
  have hresidual : a *ᵥ y - b = (a *ᵥ x - b) + a *ᵥ u := by
    rw [hu, mulVec_sub]
    abel
  have hscale : scale w y = scale w x + scale w u := by
    funext i
    simp only [hu, scale, Pi.add_apply, Pi.sub_apply]
    ring
  have hslope : u ⬝ᵥ (normalOf a w x - aᵀ *ᵥ b) =
      (a *ᵥ x - b) ⬝ᵥ (a *ᵥ u) + scale w x ⬝ᵥ scale w u := by
    have hdamping : u ⬝ᵥ (fun i => w i ^ 2 * x i) = scale w x ⬝ᵥ scale w u := by
      apply Finset.sum_congr rfl
      intro i _
      simp only [scale]
      ring
    rw [normalOf, add_sub_right_comm, ← mulVec_sub, dotProduct_add, hdamping,
      dotProduct_comm (a *ᵥ x - b), dotProduct_mulVec, vecMul_transpose]
  rw [dampedCost, dampedCost, hresidual, hscale, length_add_sq, length_add_sq, hslope]
  ring

end Cost

section Support

variable {s t : Matrix (Fin n) (Fin n) ℝ} {rank : Nat} {q r u w z : Fin n → ℝ}

theorem IsUpper.mulVec_eq_zero (hs : IsUpper s) (hu : ∀ i : Fin n, rank ≤ i → u i = 0) (i : Fin n)
    (hi : rank ≤ i) : (s *ᵥ u) i = 0 := by
  rw [hs.mulVec_apply]
  refine sumFrom_eq_zero fun j hj => ?_
  rw [hu j (hi.trans hj), mul_zero]

/-- The defect of a truncated solution is orthogonal to all that the leading columns reach. -/
theorem SolvesLeading.dot_defect (hz : SolvesLeading s rank r z) (hs : IsUpper s)
    (hu : ∀ i : Fin n, rank ≤ i → u i = 0) : (s *ᵥ u) ⬝ᵥ (s *ᵥ z - r) = 0 := by
  apply Finset.sum_eq_zero
  intro i _
  by_cases hi : i.val < rank
  · rw [Pi.sub_apply, hz.solves i hi, sub_self, mul_zero]
  · rw [hs.mulVec_eq_zero hu i (not_lt.mp hi), zero_mul]

/-- The damped triangle measures what the triangle and the damping measure together. -/
theorem Damps.length_sq_mulVec (hd : Damps t w q s r) (z : Fin n → ℝ) :
    length (s *ᵥ z) ^ 2 = length (t *ᵥ z) ^ 2 + length (scale w z) ^ 2 := by
  rw [length_sq, length_sq, length_sq, ← dot_normalOf, normalOf, ← hd.normal, dotProduct_mulVec z,
    vecMul_transpose]

end Support

namespace Triangular

variable {f : Triangular ℝ m n} {q : Vec ℝ n} {a : Matrix (Fin k) (Fin n) ℝ} {b : Fin k → ℝ}
  {s : Matrix (Fin n) (Fin n) ℝ} {rank : Nat} {r w x y : Fin n → ℝ}

theorem ordered_mulVec (f : Triangular ℝ m n) (x : Fin n → ℝ) :
    f.ordered *ᵥ x = f.r.toMatrix *ᵥ f.permute x := by
  rw [ordered, ← mulVec_mulVec]
  congr 1
  funext c
  simp [mulVec, dotProduct, permute]

/-- A factor is a linear model in its own right. -/
theorem models_ordered (h : Function.Injective f.permutation.get) (q : Vec ℝ n) :
    f.Models q f.ordered q.get := by
  have hcol (c : Fin n) : f.ordered.col (f.permutation c) = f.r.toMatrix.col c := by
    funext i
    change ∑ j, f.r.toMatrix i j * (if f.permutation j = f.permutation c then 1 else 0) = _
    rw [Finset.sum_eq_single c]
    · rw [if_pos rfl, mul_one, col_apply]
    · intro j _ hne
      rw [if_neg fun he => hne (h he), mul_zero]
    · exact fun hc => absurd (Finset.mem_univ c) hc
  refine ⟨h, fun c d => ?_, fun c => ?_⟩
  · rw [hcol, hcol]
  · rw [hcol]

namespace Models

/-- Among the vectors with its support, the cost exceeds that of a truncated solution by what the
damped triangle makes of the difference. -/
theorem dampedCost_eq (hm : f.Models q a b) (hd : Damps f.r.toMatrix (f.permute w) q.get s r)
    (hx : SolvesLeading s rank r (f.permute x))
    (hy : ∀ c : Fin n, rank ≤ c → y (f.permutation c) = 0) :
    dampedCost a b w y = dampedCost a b w x + length (s *ᵥ f.permute (y - x)) ^ 2 := by
  have hsupport (c : Fin n) (hc : rank ≤ c) : f.permute (y - x) c = 0 := by
    change y (f.permutation c) - f.permute x c = 0
    rw [hy c hc, hx.zero c hc, sub_self]
  have hdefect : f.permute (normalOf a w x - aᵀ *ᵥ b) = sᵀ *ᵥ (s *ᵥ f.permute x - r) := by
    change f.permute (normalOf a w x) - f.permute (aᵀ *ᵥ b) = _
    rw [hm.permute_normalOf, hm.permute_gradient, ← hd.normal, ← hd.gradient, mulVec_sub]
  have hslope : (y - x) ⬝ᵥ (normalOf a w x - aᵀ *ᵥ b) = 0 := by
    rw [← hm.permute_dot, hdefect, dotProduct_mulVec, vecMul_transpose]
    exact hx.dot_defect hd.upper hsupport
  have hsquare : length (s *ᵥ f.permute (y - x)) ^ 2 =
      length (a *ᵥ (y - x)) ^ 2 + length (scale w (y - x)) ^ 2 := by
    have hchange := hm.change_dot_self (y - x)
    have hscale : length (scale (f.permute w) (f.permute (y - x))) = length (scale w (y - x)) :=
      hm.length_permute (scale w (y - x))
    rw [hd.length_sq_mulVec, hscale, length_sq (f.r.toMatrix *ᵥ _), hchange, ← length_sq]
  rw [LeastSquares.dampedCost_eq a b w x y, hslope, mul_zero, add_zero, hsquare]

/-- With a regular leading block, no other vector with its support costs as little as a truncated
solution. -/
theorem dampedCost_lt (hm : f.Models q a b) (hd : Damps f.r.toMatrix (f.permute w) q.get s r)
    (hx : SolvesLeading s rank r (f.permute x)) (regular : ∀ j : Fin n, j < rank → s j j ≠ 0)
    (hy : ∀ c : Fin n, rank ≤ c → y (f.permutation c) = 0) (hne : y ≠ x) :
    dampedCost a b w x < dampedCost a b w y := by
  rw [hm.dampedCost_eq hd hx hy]
  refine lt_add_of_pos_right _ (pow_pos (length_pos.mpr fun hdifference => hne ?_) 2)
  have hsolves : SolvesLeading s rank 0 (f.permute (y - x)) := by
    refine ⟨fun c hc => ?_, fun c _ => congrFun hdifference c⟩
    change y (f.permutation c) - f.permute x c = 0
    rw [hy c hc, hx.zero c hc, sub_self]
  have hpermuted := hsolves.eq_zero hd.upper regular fun _ _ => rfl
  exact sub_eq_zero.mp (hm.permute_injective hpermuted)

end Models

/-- A damped solve leaves a triangle with the square of `R` plus that of the damping. Its solution
vanishes from the first diagonal element of that triangle on that counts as zero, in permuted order,
and is the only minimizer of the damped sum of squares among the vectors that vanish there. If no
element counts as zero, it solves the damped normal equations. -/
theorem solveDamped_minimizes_on_support (f : Triangular ℝ m n)
    (permutation : Function.Injective f.permutation.get) (w b row : Vec ℝ n) :
    let out := f.solveDamped w b row
    let r := f.r.toMatrix
    let s := upperOf out.diagonal out.factor.square
    let rank := firstIndex fun j => negligible (out.diagonal j)
    let x := out.solution.get
    sᵀ * s = rᵀ * r + diagonal (fun j => w (f.permutation j) ^ 2) ∧
    (∀ j : Fin n, rank ≤ j → x (f.permutation j) = 0) ∧
    (∀ y : Fin n → ℝ, (∀ j : Fin n, rank ≤ j → y (f.permutation j) = 0) → y ≠ x →
      dampedCost f.ordered b.get w.get x < dampedCost f.ordered b.get w.get y) ∧
    (rank = n → (f.orderedᵀ * f.ordered + diagonal fun i => w i ^ 2) *ᵥ x =
      f.orderedᵀ *ᵥ b.get) := by
  intro out r s rank x
  obtain ⟨rotated, hd, hz⟩ := f.solveDamped_solves w b row
  have hm : f.Models b f.ordered b.get := models_ordered permutation b
  have hdiagonal (j : Fin n) : f.damped w b row j j = out.diagonal j := if_pos rfl
  have hx : f.permute x = out.permuted.get := funext fun c => scatter_apply permutation _ _ c
  simp only [hdiagonal] at hz
  change SolvesLeading s rank rotated out.permuted.get at hz
  rw [← hx] at hz
  refine ⟨hd.gram, hz.zero, fun y hy hne => ?_, fun hrank => ?_⟩
  · refine hm.dampedCost_lt hd hz (fun j hj => ?_) hy hne
    rw [hdiagonal]
    exact ne_zero_of_lt_firstIndex hj
  · have hnormal : normalOf f.ordered w.get x = f.orderedᵀ *ᵥ b.get := by
      apply hm.permute_injective
      rw [hm.permute_normalOf, hm.permute_gradient]
      exact hz.normal hd hrank.ge
    rw [← hnormal, add_mulVec, ← mulVec_mulVec, normalOf]
    congr 1
    funext i
    exact mulVec_diagonal _ _ i

/-- A singular triangle with exchanged columns, of which one is damped. -/
theorem solveDamped_minimizes_exchanged :
    let f : Triangular ℝ 3 2 :=
      ⟨.ofFn fun i _ => if i.val = 0 then 1 else 0, .ofFn ![1, 0], by decide⟩
    let w : Vec ℝ 2 := .ofFn ![-3, 0]
    let b : Vec ℝ 2 := .fill 2 1
    let out := f.solveDamped w b (.fill 2 7)
    let r := f.r.toMatrix
    let s := upperOf out.diagonal out.factor.square
    let rank := firstIndex fun j => negligible (out.diagonal j)
    let x := out.solution.get
    sᵀ * s = rᵀ * r + diagonal (fun j => w (f.permutation j) ^ 2) ∧
    (∀ j : Fin 2, rank ≤ j → x (f.permutation j) = 0) ∧
    (∀ y : Fin 2 → ℝ, (∀ j : Fin 2, rank ≤ j → y (f.permutation j) = 0) → y ≠ x →
      dampedCost f.ordered b.get w.get x < dampedCost f.ordered b.get w.get y) ∧
    (rank = 2 → (f.orderedᵀ * f.ordered + diagonal fun i => w i ^ 2) *ᵥ x =
      f.orderedᵀ *ᵥ b.get) := by
  intro f w b
  have hget : f.permutation.get = ![1, 0] := funext (Vec.ofFn_apply _)
  have hinjective : Function.Injective f.permutation.get := by
    rw [hget]
    decide
  exact f.solveDamped_minimizes_on_support hinjective w b _

end Triangular

end LeastSquares
