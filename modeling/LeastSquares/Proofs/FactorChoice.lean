import LeastSquares.Proofs.DampedSolves
import LeastSquares.Proofs.SurvivingTriangle

namespace LeastSquares

open Matrix

variable {k k' m m' n : Nat}

namespace Triangular.Models

variable {f : Triangular ℝ m n} {q : Vec ℝ n} {a : Matrix (Fin k) (Fin n) ℝ} {b : Fin k → ℝ}
  {a' : Matrix (Fin k') (Fin n) ℝ} {b' : Fin k' → ℝ}

/-- A factor stands for every linear model with the same normal equations. -/
theorem of_normalEquations (h : f.Models q a b) (square : aᵀ * a = a'ᵀ * a')
    (gradient : aᵀ *ᵥ b = a'ᵀ *ᵥ b') : f.Models q a' b' where
  injective := h.injective
  gram c d := by
    rw [← h.gram]
    exact (congrFun₂ square _ _).symm
  gradient c := by
    rw [← h.gradient]
    exact (congrFun gradient _).symm

end Triangular.Models

namespace Subproblem

variable {f : Triangular ℝ m n} {f' : Triangular ℝ m' n} {p : Subproblem ℝ n}
  {projected' : Vec ℝ n} {a : Matrix (Fin k) (Fin n) ℝ} {b : Fin k → ℝ}

/-- Two regular factors of one linear model are the same search in the same units. -/
theorem matches_of_models (hm : f.Models p.projected a b) (hm' : f'.Models projected' a b)
    (regular : f.IsRegular) (regular' : f'.IsRegular) :
    p.Matches (fun _ => 1) a b { p with projected := projected' } f f' where
  units _ := one_ne_zero
  models := hm
  models' := by simpa using hm'
  regular := regular
  regular' := regular'
  scaling := funext fun i => (one_mul _).symm
  radius := rfl
  tuning := rfl

theorem search_sameResult_of_models (hm : f.Models p.projected a b)
    (hm' : f'.Models projected' a b) (regular : f.IsRegular) (regular' : f'.IsRegular)
    (estimate : ℝ) (oldStep oldStep' : Vec ℝ n) (buffers buffers' : SearchBuffers ℝ n) :
    (p.search f estimate oldStep buffers).SameResult
      ({ p with projected := projected' }.search f' estimate oldStep' buffers') := by
  obtain ⟨damping, passes, step, log⟩ :=
    (matches_of_models hm hm' regular regular').search estimate oldStep oldStep' buffers buffers'
  refine ⟨damping, passes, Vec.ext fun i => ?_, log⟩
  simpa [scale] using congrFun step i

end Subproblem

/-- A search returns the same damping after the same passes and the same step, whichever of two
regular factors with the same normal equations it is given. So it does not matter whether the
columns of the Jacobian were pivoted, as long as no diagonal element counts as zero in either case.
-/
theorem search_independent_of_factorization :
    (∀ {m m' n : Nat} (f : Triangular ℝ m n) (f' : Triangular ℝ m' n) (p : Subproblem ℝ n)
      (projected' : Vec ℝ n) (estimate : ℝ) (oldStep oldStep' : Vec ℝ n)
      (buffers buffers' : SearchBuffers ℝ n),
      Function.Injective f.permutation.get → Function.Injective f'.permutation.get →
      (∀ j, Arith.epsilon < |f.r j j|) → (∀ j, Arith.epsilon < |f'.r j j|) →
      f'.orderedᵀ * f'.ordered = f.orderedᵀ * f.ordered →
      f'.orderedᵀ *ᵥ projected'.get = f.orderedᵀ *ᵥ p.projected.get →
      (p.search f estimate oldStep buffers).SameResult
        ({ p with projected := projected' }.search f' estimate oldStep' buffers')) ∧
    ∀ {m n : Nat} (h : n ≤ m) (a : Mat ℝ m n) (b : Vec ℝ m) (p : Subproblem ℝ n) (estimate : ℝ)
      (oldStep oldStep' : Vec ℝ n) (buffers buffers' : SearchBuffers ℝ n),
      let factor (pivoting : Bool) := (QR.factorize pivoting a).triangular h
      let asked (pivoting : Bool) : Subproblem ℝ n :=
        { p with projected := ((QR.factorize pivoting a).applyTranspose b).leading h }
      (∀ pivoting j, Arith.epsilon < |(factor pivoting).r j j|) →
      ((asked true).search (factor true) estimate oldStep buffers).SameResult
        ((asked false).search (factor false) estimate oldStep' buffers') := by
  constructor
  · intro m m' n f f' p projected' estimate oldStep oldStep' buffers buffers' permutation
      permutation' regular regular' square gradient
    have hm : f.Models p.projected f.ordered p.projected.get :=
      Triangular.models_ordered permutation p.projected
    have hm' : f'.Models projected' f.ordered p.projected.get :=
      (Triangular.models_ordered permutation' projected').of_normalEquations square gradient
    exact Subproblem.search_sameResult_of_models hm hm' regular regular' estimate oldStep oldStep'
      buffers buffers'
  · intro m n h a b p estimate oldStep oldStep' buffers buffers' factor asked regular
    have hm (pivoting : Bool) :
        (factor pivoting).Models (asked pivoting).projected a.toMatrix b.get :=
      QR.models_factorize pivoting a b h
    exact Subproblem.search_sameResult_of_models (hm true) (hm false) (regular true)
      (regular false) estimate oldStep oldStep' buffers buffers'

/-- Two columns of the same length in both orders, one row with the other sign, and a Jacobian whose
longer column is the second one. -/
theorem search_independent_of_exchange :
    let f : Triangular ℝ 3 2 :=
      ⟨.ofFn fun i j => if i.val = 0 then ![5, 3] j else ![7, 4] j, .ofFn id, by decide⟩
    let f' : Triangular ℝ 2 2 :=
      ⟨.ofFn fun i j => if i.val = 0 then ![-5, -3] j else ![8, 4] j, .ofFn Fin.rev, by decide⟩
    let p : Subproblem ℝ 2 :=
      { scaling := .ofFn ![1, 2], projected := .ofFn ![5, 0], radius := 1, tuning := .standard }
    let a : Mat ℝ 3 2 := .ofFn fun i j => if i.val = j.val then j.val + 1 else 0
    let b : Vec ℝ 3 := .fill 3 1
    let factor (pivoting : Bool) := (QR.factorize pivoting a).triangular (by decide)
    let asked (pivoting : Bool) : Subproblem ℝ 2 :=
      { p with projected := ((QR.factorize pivoting a).applyTranspose b).leading (by decide) }
    let oldStep : Vec ℝ 2 := .fill 2 0
    let buffers : SearchBuffers ℝ 2 := ⟨.fill 2 0, .fill 2 0, .fill 2 0⟩
    (p.search f 0 oldStep buffers).SameResult
        ({ p with projected := .ofFn ![-3, 4] }.search f' 0 oldStep buffers) ∧
      ((asked true).search (factor true) 0 oldStep buffers).SameResult
        ((asked false).search (factor false) 0 oldStep buffers) := by
  intro f f' p a b factor asked oldStep buffers
  have hr : f.r.toMatrix = !![5, 3; 0, 4] := by
    ext i j
    fin_cases i <;> fin_cases j <;> simp [f, Triangular.r]
  have hr' : f'.r.toMatrix = !![-5, -3; 0, 4] := by
    ext i j
    fin_cases i <;> fin_cases j <;> simp [f', Triangular.r]
  have hordered : f.ordered = !![5, 3; 0, 4] := by
    rw [Triangular.ordered, hr]
    ext i j
    fin_cases i <;> fin_cases j <;> simp [f, Matrix.mul_apply]
  have hordered' : f'.ordered = !![-3, -5; 4, 0] := by
    rw [Triangular.ordered, hr']
    ext i j
    fin_cases i <;> fin_cases j <;> simp [f', Matrix.mul_apply]
  constructor
  · refine search_independent_of_factorization.1 f f' p _ 0 oldStep oldStep buffers buffers
      ?_ ?_ ?_ ?_ ?_ ?_
    · exact Vec.injective_ofFn Function.injective_id
    · exact Vec.injective_ofFn Fin.rev_injective
    · intro j
      rw [← Mat.toMatrix_apply, hr]
      exact Arith.epsilon_lt_one.trans (by fin_cases j <;> norm_num)
    · intro j
      rw [← Mat.toMatrix_apply, hr']
      exact Arith.epsilon_lt_one.trans (by fin_cases j <;> norm_num)
    · rw [hordered, hordered']
      ext i j
      fin_cases i <;> fin_cases j <;> norm_num [Matrix.mul_apply, Fin.sum_univ_two]
    · rw [hordered, hordered']
      funext j
      fin_cases j <;> norm_num [p, mulVec, dotProduct, Fin.sum_univ_two]
  · refine search_independent_of_factorization.2 (by decide) a b p 0 oldStep oldStep buffers
      buffers fun pivoting => ?_
    have hm : (factor pivoting).Models (asked pivoting).projected a.toMatrix b.get :=
      QR.models_factorize pivoting a b (by decide)
    have hcol (k l : Fin 2) :
        a.toMatrix.col k ⬝ᵥ a.toMatrix.col l = if k = l then ((k : ℕ) + 1 : ℝ) ^ 2 else 0 := by
      fin_cases k <;> fin_cases l <;>
        norm_num [a, Mat.toMatrix, Fin.sum_univ_three, dotProduct]
    have hne (k : Fin 2) : a.toMatrix.col k ≠ 0 := by
      intro hzero
      have hsquare := hcol k k
      rw [hzero, zero_dotProduct, if_pos rfl] at hsquare
      exact (Nat.cast_add_one_pos k.val).ne' (pow_eq_zero_iff two_ne_zero |>.mp hsquare.symm)
    intro j
    rw [hm.abs_diagonal_of_orthogonal (fun k l hkl => by rw [hcol, if_neg hkl]) hne, length_eq_sqrt,
      hcol, if_pos rfl, Real.sqrt_sq (by positivity)]
    exact Arith.epsilon_lt_one.trans_le (le_add_of_nonneg_left (Nat.cast_nonneg _))

end LeastSquares
