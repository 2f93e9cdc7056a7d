import LeastSquares.Proofs.DampedSteps

namespace LeastSquares

open Matrix

variable {m n : Nat}

namespace Triangular

theorem solveDamped_isStep {f : Triangular ℝ m n} (h : Function.Injective f.permutation.get)
    (scaling q row : Vec ℝ n) (damping : ℝ) :
    f.IsStep scaling q damping
      ((f.solveDamped (scaling.map (· * √damping)) q row).solution.map (-·)) := by
  obtain ⟨r, hd, hz⟩ := f.solveDamped_solves (scaling.map (· * √damping)) q row
  refine ⟨_, r, _, ?_, hz, ?_⟩
  · have hw : (fun c => scaling.map (· * √damping) (f.permutation c)) =
        scale (f.permute scaling.get) fun _ => √damping :=
      funext fun c => Vec.map_apply _ _ _
    rwa [hw] at hd
  · funext c
    change Vec.map (-·) (f.solveDamped _ q row).solution (f.permutation c) = _
    rw [Vec.map_apply]
    exact congrArg Neg.neg (scatter_apply h _ _ c)

theorem solveLeading_isStep {f : Triangular ℝ m n} (h : Function.Injective f.permutation.get)
    (scaling q into : Vec ℝ n) :
    f.IsStep scaling q 0 ((scatter f.permutation into (f.solveLeading q)).map (-·)) := by
  have hz := f.solveLeading_solves q
  have hrank : f.rank = firstIndex fun j => negligible (f.r.toMatrix j j) := by
    unfold rank
    congr 1
    funext j
    rw [f.r_apply le_rfl]
  rw [hrank] at hz
  refine ⟨_, _, _, ?_, hz, ?_⟩
  · have hw : (scale (f.permute scaling.get) fun _ => √0) = fun _ => 0 := by
      funext c
      rw [scale, Real.sqrt_zero, mul_zero]
    rw [hw]
    exact Damps.refl f.isUpper_r q.get
  · funext c
    change Vec.map (-·) (scatter f.permutation into (f.solveLeading q)) (f.permutation c) = _
    rw [Vec.map_apply]
    exact congrArg Neg.neg (scatter_apply h _ _ c)

end Triangular

/-- What every exit of a search guarantees. -/
structure SearchOutcome.IsSound (f : Triangular ℝ m n) (p : Subproblem ℝ n)
    (out : SearchOutcome ℝ m n) : Prop where
  isStep : f.IsStep p.scaling p.projected out.damping out.step
  r_eq : out.factor.r = f.r
  permutation_eq : out.factor.permutation = f.permutation

namespace SearchState

variable {f : Triangular ℝ m n} {p : Subproblem ℝ n} {s : SearchState ℝ m n}

theorem outcome_isSound (h : Function.Injective f.permutation.get) (hr : s.factor.r = f.r)
    (hp : s.factor.permutation = f.permutation) :
    (s.outcome (s.solve p)).IsSound f p where
  isStep := (Triangular.solveDamped_isStep (by rwa [hp]) _ _ _ _).congr hr hp
  r_eq := (s.factor.r_solveDamped _ _ _).trans hr
  permutation_eq := hp

/-- A run of the search keeps the factor and ends with the step of its last damping. -/
theorem run_isSound (h : Function.Injective f.permutation.get) (further : Nat)
    (hr : s.factor.r = f.r) (hp : s.factor.permutation = f.permutation) :
    (run p further s).IsSound f p := by
  induction further generalizing s with
  | zero => exact outcome_isSound h hr hp
  | succ further ih =>
    unfold run
    dsimp only
    split
    · exact outcome_isSound h hr hp
    · exact ih ((s.factor.r_solveDamped _ _ _).trans hr) hp

theorem zero_lt_restarted {damping : ℝ} (h : 0 ≤ damping) (upper : ℝ) :
    0 < Subproblem.restarted damping upper := by
  unfold Subproblem.restarted
  split
  · rw [Arith.maxNum_real]
    exact lt_max_of_lt_left Arith.minPositive_pos
  · rename_i hne
    exact lt_of_le_of_ne h fun he => hne (by rw [← he, beq_self_eq_true])

section Corrected

variable [RealNorm] (s) (p : Subproblem ℝ n) (t : SearchPass ℝ m n)

/-- The lower end of the bracket never falls. -/
theorem lower_le_corrected : s.lower ≤ (s.corrected p t).lower := by
  unfold corrected
  dsimp only
  split
  · rw [Arith.maxNum_real]
    exact le_max_left _ _
  · exact le_rfl

/-- A corrected damping is not below the bracket. -/
theorem lower_le_damping_corrected : (s.corrected p t).lower ≤ (s.corrected p t).damping := by
  have damping : (s.corrected p t).damping = max (s.corrected p t).lower _ := Arith.maxNum_real _ _
  rw [damping]
  exact le_max_left _ _

end Corrected

/-- Every pass of the search uses a positive damping. -/
theorem zero_lt_damping_run [RealNorm] (further : Nat) (hd : 0 ≤ s.damping) (hl : 0 ≤ s.lower) :
    0 < (run p further s).damping := by
  induction further generalizing s with
  | zero => exact zero_lt_restarted hd _
  | succ further ih =>
    have hpos : 0 < (s.solve p).damping := zero_lt_restarted hd _
    unfold run
    dsimp only
    split
    · exact hpos
    · have hlower := hl.trans (s.lower_le_corrected p (s.solve p))
      exact ih (hlower.trans (s.lower_le_damping_corrected p (s.solve p))) hlower

end SearchState

namespace Subproblem

def undamped {α : Type} [Arith α] (p : Subproblem α n) (f : Triangular α m n) (oldStep : Vec α n) :
    Vec α n :=
  scatter f.permutation oldStep (f.solveLeading p.projected)

variable {f : Triangular ℝ m n} {p : Subproblem ℝ n} {estimate : ℝ} {oldStep : Vec ℝ n}
  {buffers : SearchBuffers ℝ n}

theorem search_isSound (h : Function.Injective f.permutation.get) :
    (p.search f estimate oldStep buffers).IsSound f p := by
  unfold search
  dsimp only
  split
  · exact ⟨Triangular.solveLeading_isStep h _ _ _, rfl, rfl⟩
  · exact SearchState.run_isSound h _ rfl rfl

theorem permute_undamped (h : Function.Injective f.permutation.get) (p : Subproblem ℝ n)
    (oldStep : Vec ℝ n) :
    f.permute (p.undamped f oldStep).get = (f.solveLeading p.projected).get :=
  funext fun c => scatter_apply h oldStep _ c

theorem get_scaled (p : Subproblem ℝ n) (x : Vec ℝ n) :
    (p.scaled x).get = scale p.scaling.get x.get :=
  funext (Vec.ofFn_apply _)

/-- A scaled solution is as long as the scaled step, its negative. -/
theorem norm_scaled (p : Subproblem ℝ n) (x : Vec ℝ n) :
    norm (p.scaled x) = length (scale p.scaling.get (x.map (-·)).get) := by
  rw [norm_eq_length, get_scaled, Vec.get_neg, scale_neg, length_neg]

/-- A search whose undamped step lies in the trust region returns that step. -/
theorem damping_search_of_inside (h : Function.Injective f.permutation.get)
    (inside : ∀ step, f.IsStep p.scaling p.projected 0 step →
      length (scale p.scaling.get step.get) - p.radius ≤ p.tuning.searchTolerance * p.radius) :
    (p.search f estimate oldStep buffers).damping = 0 := by
  have hinside := inside _ (Triangular.solveLeading_isStep h p.scaling p.projected oldStep)
  rw [← norm_scaled] at hinside
  unfold search
  dsimp only
  rw [if_pos hinside]

section Damping

variable [RealNorm]

theorem zero_le_newton {excess : ℝ} (hr : 0 < p.radius) (he : 0 ≤ excess) (w : Vec ℝ n) :
    0 ≤ p.newton excess w :=
  div_nonneg (div_nonneg (div_nonneg he hr.le) (zero_le_norm w)) (zero_le_norm w)

theorem zero_le_upperBound {gradientNorm : ℝ} (hr : 0 < p.radius)
    (ht : 0 < p.tuning.searchTolerance) (hg : 0 ≤ gradientNorm) :
    0 ≤ p.upperBound gradientNorm := by
  unfold upperBound
  dsimp only
  split
  · rw [Arith.minNum_real]
    exact div_nonneg Arith.minPositive_pos.le (lt_min hr ht).le
  · exact div_nonneg hg hr.le

theorem zero_le_lowerBound {scaled : Vec ℝ n} {stepLength excess : ℝ} (hr : 0 < p.radius)
    (he : 0 ≤ excess) : 0 ≤ p.lowerBound f scaled stepLength excess := by
  unfold lowerBound
  split
  · exact zero_le_newton hr he _
  · exact le_rfl

/-- The search never returns a negative damping. -/
theorem zero_le_damping_search (hr : 0 < p.radius) (ht : 0 < p.tuning.searchTolerance)
    (he : 0 ≤ estimate) : 0 ≤ (p.search f estimate oldStep buffers).damping := by
  unfold search
  dsimp only
  split
  · exact le_rfl
  · rename_i hlong
    have hexcess : 0 ≤ norm (p.scaled (scatter f.permutation oldStep
        (f.solveLeading p.projected))) - p.radius :=
      (mul_pos ht hr).le.trans (not_le.mp hlong).le
    refine (SearchState.zero_lt_damping_run _ ?_ (zero_le_lowerBound hr hexcess)).le
    dsimp only
    split
    · exact div_nonneg (zero_le_norm _) (zero_le_norm _)
    · rw [Arith.maxNum_real, Arith.minNum_real]
      exact le_min (le_max_of_le_left he) (zero_le_upperBound hr ht (zero_le_norm _))

end Damping

end Subproblem

theorem Tuning.searchTolerance_pos {t : Tuning ℝ} (h : t.error? = none) :
    0 < t.searchTolerance := by
  unfold Tuning.error? at h
  split at h
  · cases h
  split at h
  · cases h
  · rename_i hrange
    exact not_le.mp fun hle => hrange (Or.inl hle)

/-- With a regular factorization of the Jacobian `a` and the residuals `b`, the search solves the
damped normal equations of the damping it returns. Its step is the best one for the linear model
among all that are no longer than itself, and among all steps if the damping is zero. -/
theorem search_minimizes_linear_model (h : n ≤ m) (a : Mat ℝ m n) (b : Vec ℝ m)
    (p : Subproblem ℝ n) (estimate : ℝ) (oldStep : Vec ℝ n) (buffers : SearchBuffers ℝ n)
    (projected : p.projected = ((QR.factorize true a).applyTranspose b).leading h)
    (radius : 0 < p.radius) (tuning : p.tuning.error? = none) (hestimate : 0 ≤ estimate)
    (regular : ∀ j, Arith.epsilon < |((QR.factorize true a).triangular h).r j j|) :
    let out := p.search ((QR.factorize true a).triangular h) estimate oldStep buffers
    let d := p.scaling.get
    let x := out.step.get
    (a.toMatrixᵀ * a.toMatrix + out.damping • diagonal fun i => d i ^ 2) *ᵥ x =
        -(a.toMatrixᵀ *ᵥ b.get) ∧
      ∀ y : Fin n → ℝ, out.damping = 0 ∨ length (scale d y) ≤ length (scale d x) →
        length (a.toMatrix *ᵥ x + b.get) ≤ length (a.toMatrix *ᵥ y + b.get) := by
  intro out d x
  have hmodels := QR.models_factorize true a b h
  rw [← projected] at hmodels
  have hdamping : 0 ≤ out.damping :=
    Subproblem.zero_le_damping_search radius (Tuning.searchTolerance_pos tuning) hestimate
  have hsound : out.IsSound _ p := Subproblem.search_isSound hmodels.injective
  have hnormal := hsound.isStep.normal hmodels regular hdamping
  refine ⟨?_, fun y hy => length_le_of_normal hdamping hnormal hy⟩
  rw [← hnormal, add_mulVec, ← mulVec_mulVec, smul_mulVec]
  congr 1
  funext i
  rw [Pi.smul_apply, mulVec_diagonal, smul_eq_mul]

/-- Two orthogonal columns and a residual vector that no step removes. -/
theorem search_minimizes_doubled_model :
    let a : Mat ℝ 3 2 := .ofFn fun i j => if i.val = j.val then 2 else 0
    let b : Vec ℝ 3 := .fill 3 1
    let f := (QR.factorize true a).triangular (by decide)
    let p : Subproblem ℝ 2 :=
      { scaling := .fill 2 1
        projected := ((QR.factorize true a).applyTranspose b).leading (by decide)
        radius := 1
        tuning := .standard }
    let out := p.search f 0 (.fill 2 0) ⟨.fill 2 0, .fill 2 0, .fill 2 0⟩
    let d := p.scaling.get
    let x := out.step.get
    (a.toMatrixᵀ * a.toMatrix + out.damping • diagonal fun i => d i ^ 2) *ᵥ x =
        -(a.toMatrixᵀ *ᵥ b.get) ∧
      ∀ y : Fin 2 → ℝ, out.damping = 0 ∨ length (scale d y) ≤ length (scale d x) →
        length (a.toMatrix *ᵥ x + b.get) ≤ length (a.toMatrix *ᵥ y + b.get) := by
  intro a b f p
  have hm : f.Models p.projected a.toMatrix b.get := QR.models_factorize true a b (by decide)
  have hcol : ∀ k l : Fin 2, a.toMatrix.col k ⬝ᵥ a.toMatrix.col l = if k = l then 4 else 0 := by
    intro k l
    fin_cases k <;> fin_cases l <;>
      norm_num [a, Mat.toMatrix, Fin.sum_univ_three, dotProduct]
  refine search_minimizes_linear_model _ a b p 0 _ _ rfl one_pos Tuning.error?_standard le_rfl ?_
  intro j
  rw [hm.abs_diagonal_of_orthogonal (fun k l hne => by rw [hcol, if_neg hne])
    (fun k hzero => by simpa [hzero] using hcol k k), length_eq_sqrt, hcol, if_pos rfl]
  exact Arith.epsilon_lt_one.trans (Real.lt_sqrt_of_sq_lt (by norm_num))

end LeastSquares
