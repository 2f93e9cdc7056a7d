import LeastSquares.Guarded
import LeastSquares.Proofs.CheckedAccess
import LeastSquares.Proofs.SearchResults
import Mathlib.LinearAlgebra.Matrix.Block

namespace LeastSquares

open Matrix Checked

variable {m n : Nat}

/-- If every column is damped, the damped triangle is regular. -/
theorem Damps.ne_zero_of_weights {t s : Matrix (Fin n) (Fin n) ℝ} {w q r : Fin n → ℝ}
    (hd : Damps t w q s r) (hw : ∀ c, w c ≠ 0) (j : Fin n) : s j j ≠ 0 := by
  have injective (z : Fin n → ℝ) (hz : s *ᵥ z = 0) : z = 0 := by
    have hlength := hd.length_sq_mulVec z
    rw [hz, length_zero, zero_pow two_ne_zero] at hlength
    have hscaled : length (scale w z) ^ 2 = 0 := by
      linarith [sq_nonneg (length (t *ᵥ z)), sq_nonneg (length (scale w z))]
    have hvanishes : scale w z = 0 := length_eq_zero.mp (pow_eq_zero_iff two_ne_zero |>.mp hscaled)
    funext i
    exact (mul_eq_zero.mp (congrFun hvanishes i)).resolve_left (hw i)
  have hunit : IsUnit s := by
    refine mulVec_injective_iff_isUnit.mp fun x y hxy => ?_
    have hxy' : s *ᵥ x = s *ᵥ y := hxy
    exact sub_eq_zero.mp (injective _ (by rw [mulVec_sub, hxy', sub_self]))
  have hdet := (s.isUnit_iff_isUnit_det.mp hunit).ne_zero
  rw [det_of_isUpperTriangular fun i j => hd.upper i j] at hdet
  exact Finset.prod_ne_zero_iff.mp hdet j (Finset.mem_univ j)

theorem Triangular.diagonal_ne_zero_of_weights (f : Triangular ℝ m n) {w : Vec ℝ n}
    (hw : ∀ i, w i ≠ 0) (b row : Vec ℝ n) (j : Fin n) :
    (f.solveDamped w b row).diagonal j ≠ 0 := by
  obtain ⟨r, hd, -⟩ := f.solveDamped_solves w b row
  have hne := hd.ne_zero_of_weights (fun c => hw _) j
  unfold damped at hne
  rwa [show upperOf _ _ j j = _ from if_pos rfl] at hne

namespace Subproblem.IsPosed

variable {f : Triangular ℝ m n} {p : Subproblem ℝ n} {oldStep : Vec ℝ n}

/-- An undamped step outside the trust region comes from a gradient that the factor sees. -/
theorem seesGradient (h : p.IsPosed f)
    (long : p.radius < LeastSquares.norm (p.scaled (p.undamped f oldStep))) :
    f.SeesGradient f.ordered p.projected.get := by
  by_contra hblind
  apply h.scaled_ne_zero long
  rw [p.get_scaled, undamped_eq_zero (Triangular.models_ordered h.injective _) hblind, scale_zero]

/-- Then no damped step vanishes. -/
theorem scaled_solution_ne_zero (h : p.IsPosed f) (sees : f.SeesGradient f.ordered p.projected.get)
    (damping : ℝ) (row : Vec ℝ n) :
    (p.scaled (f.solveDamped (p.scaling.map (· * √damping)) p.projected row).solution).get ≠ 0 := by
  have hstep := Triangular.solveDamped_isStep h.injective p.scaling p.projected row damping
  have hmoves := step_ne_zero_of_slope
    (hstep.slope_neg (Triangular.models_ordered h.injective p.projected) sees)
  intro hzero
  rw [p.get_scaled] at hzero
  apply hmoves
  rw [Vec.get_neg, neg_eq_zero]
  funext i
  exact (mul_eq_zero.mp (congrFun hzero i)).resolve_left (h.scaling i).ne'

end Subproblem.IsPosed

namespace Guarded

/-- The quotients that are defined. -/
theorem divide_eq_ok_iff {x y z : ℝ} : divide x y = .ok z ↔ y ≠ 0 ∧ x / y = z := by
  by_cases hy : y = 0 <;> simp [divide, hy]

/-- The square roots that are defined. -/
theorem root_eq_ok_iff {x z : ℝ} : root x = .ok z ↔ 0 ≤ x ∧ √x = z := by
  by_cases hx : 0 ≤ x <;> simp [root, hx]

theorem divide_of {x y : ℝ} (h : y ≠ 0) : divide x y = .ok (x / y) :=
  divide_eq_ok_iff.mpr ⟨h, rfl⟩

theorem root_of {x : ℝ} (h : 0 ≤ x) : root x = .ok √x :=
  root_eq_ok_iff.mpr ⟨h, rfl⟩

theorem collect_of {f : Fin n → Except Undefined ℝ} {g : Fin n → ℝ} (h : ∀ j, f j = .ok (g j)) :
    collect f = .ok (.ofFn g) := by
  obtain rfl : f = fun j => pure (g j) := funext h
  rw [collect, Vector.ofFnM_pure]
  rfl

theorem norm_eq (v : Vec ℝ n) : norm v = .ok (LeastSquares.norm v) := by
  have hsquares : Arith.sum (v.toList.map fun x => x * x) = (v.toList.map (· ^ 2)).sum := by
    simp [pow_two]
  have hnonneg : 0 ≤ (v.toList.map (· ^ 2)).sum := List.sum_nonneg (by simp [sq_nonneg])
  rw [norm, hsquares, root_of hnonneg]
  rfl

/-- A loop whose steps are all defined. -/
theorem foldlM_of {β γ : Type} {step : β → γ → Except Undefined β} {next : β → γ → β} {xs : List γ}
    (h : ∀ s, ∀ x ∈ xs, step s x = .ok (next s x)) (s : β) :
    xs.foldlM step s = .ok (xs.foldl next s) := by
  induction xs generalizing s with
  | nil => rfl
  | cons x xs ih =>
    rw [List.foldlM_cons, h s x (by simp), ok_bind, List.foldl_cons]
    exact ih (fun s y hy => h s y (by simp [hy])) _

/-- The larger of the two numbers is the divisor, and it is not zero. -/
theorem eliminating_of (a : ℝ) {b : ℝ} (hb : b ≠ 0) :
    eliminating a b = .ok (Rotation.eliminating a b) := by
  have defined (x : ℝ) :
      root (0.25 + 0.25 * x * x) = .ok √(0.25 + 0.25 * x * x) ∧ √(0.25 + 0.25 * x * x) ≠ 0 :=
    ⟨root_of (Rotation.quarter_sum_pos x).le, (Real.sqrt_pos.mpr (Rotation.quarter_sum_pos x)).ne'⟩
  unfold eliminating Rotation.eliminating
  split
  · rw [divide_of hb, ok_bind, (defined _).1, ok_bind, divide_of (defined _).2]
    rfl
  · rename_i hle
    have ha : a ≠ 0 := by
      rintro rfl
      exact hle (by simpa using hb)
    rw [divide_of ha, ok_bind, (defined _).1, ok_bind, divide_of (defined _).2]
    rfl

namespace Elimination

variable (e : Elimination ℝ n)

theorem rotate_eq (k : Fin n) : rotate e k = .ok (e.rotate k) := by
  unfold rotate LeastSquares.Elimination.rotate
  by_cases hk : e.row k == 0
  · rw [if_pos hk, if_pos hk]
    rfl
  · rw [if_neg hk, if_neg hk, eliminating_of _ (by simpa using hk)]
    rfl

theorem eliminateRow_eq (j : Fin n) (d : ℝ) : eliminateRow e j d = .ok (e.eliminateRow j d) := by
  unfold eliminateRow LeastSquares.Elimination.eliminateRow
  split
  · rfl
  · exact foldlM_of (fun e k _ => rotate_eq e k) _

theorem finishRow_eq (diagonal scaling : Vec ℝ n) (permutation : Vec (Fin n) n) (j : Fin n) :
    finishRow diagonal scaling permutation e j =
      .ok (e.finishRow diagonal scaling permutation j) := by
  unfold finishRow
  rw [eliminateRow_eq, ok_bind]
  rfl

end Elimination

theorem solveDampedTriangle_of (lower : Mat ℝ n n) {diagonal : Vec ℝ n} (b : Vec ℝ n) {rank : Nat}
    (regular : ∀ j : Fin n, j < rank → diagonal j ≠ 0) :
    solveDampedTriangle lower diagonal b rank =
      .ok (LeastSquares.solveDampedTriangle lower diagonal b rank) := by
  refine foldlM_of (fun z j hj => ?_) _
  have hj' : j.val < rank := by simpa using hj
  dsimp only
  rw [divide_of (regular j hj')]
  rfl

namespace Triangular

variable (f : Triangular ℝ m n)

/-- A damped solve is always defined. Its substitution ends before the first diagonal element that
counts as zero. -/
theorem solveDamped_eq (scaling b row : Vec ℝ n) :
    solveDamped f scaling b row = .ok (f.solveDamped scaling b row) := by
  unfold solveDamped
  dsimp only
  rw [foldlM_of fun e j _ => Elimination.finishRow_eq e _ _ _ j, ok_bind,
    solveDampedTriangle_of _ _ fun j => Triangular.ne_zero_of_lt_firstIndex]
  rfl

theorem solveLeading_eq (b : Vec ℝ n) : solveLeading f b = .ok (f.solveLeading b) := by
  refine foldlM_of (fun z j hj => ?_) _
  have hj' : j.val < f.rank := by simpa using hj
  rw [divide_of (Triangular.ne_zero_of_lt_rank hj')]
  rfl

theorem solveTranspose_of (b : Vec ℝ n) (regular : ∀ j, f.square j j ≠ 0) :
    solveTranspose f b = .ok (f.solveTranspose b) := by
  refine foldlM_of (fun z j _ => ?_) _
  dsimp only
  rw [divide_of (regular j)]
  rfl

theorem solveDampedTranspose_of {diagonal : Vec ℝ n} (b : Vec ℝ n)
    (regular : ∀ j, diagonal j ≠ 0) :
    solveDampedTranspose f diagonal b = .ok (f.solveDampedTranspose diagonal b) := by
  refine foldlM_of (fun z j _ => ?_) _
  rw [divide_of (regular j)]
  rfl

end Triangular

namespace Subproblem

variable {f : Triangular ℝ m n} {p : Subproblem ℝ n} {scaled w : Vec ℝ n} {excess : ℝ}

theorem direction_of (p : Subproblem ℝ n) (permutation : Vec (Fin n) n) (scaled : Vec ℝ n)
    {length : ℝ} (h : length ≠ 0) :
    direction p permutation scaled length = .ok (p.direction permutation scaled length) := by
  refine collect_of fun j => ?_
  rw [divide_of h]
  rfl

theorem newton_of (radius : p.radius ≠ 0) (excess : ℝ) (hw : w.get ≠ 0) :
    newton p excess w = .ok (p.newton excess w) := by
  have hlength := (norm_pos_of_ne_zero hw).ne'
  unfold newton
  rw [norm_eq, ok_bind, divide_of radius, ok_bind, divide_of hlength, ok_bind, divide_of hlength]
  rfl

variable (h : p.IsPosed f)
include h

theorem lowerBound_of (moves : scaled.get ≠ 0) (excess : ℝ) :
    lowerBound p f scaled (LeastSquares.norm scaled) excess =
      .ok (p.lowerBound f scaled (LeastSquares.norm scaled) excess) := by
  have hlength := (norm_pos_of_ne_zero moves).ne'
  unfold lowerBound LeastSquares.Subproblem.lowerBound
  split
  · rename_i hrank
    rw [direction_of _ _ _ hlength, ok_bind,
      Triangular.solveTranspose_of f _
        fun j => Triangular.ne_zero_of_lt_rank (j.isLt.trans_le hrank), ok_bind,
      newton_of h.radius.ne' _ (h.solveTranspose_ne_zero hrank moves)]
  · rfl

theorem scaledGradient_of : scaledGradient p f = .ok (p.scaledGradient f) :=
  collect_of fun j => divide_of (h.scaling (f.permutation j)).ne'

theorem upperBound_of (gradientNorm : ℝ) :
    upperBound p gradientNorm = .ok (p.upperBound gradientNorm) := by
  have hmin : Arith.minNum p.radius p.tuning.searchTolerance ≠ 0 := by
    rw [Arith.minNum_real]
    exact (lt_min h.radius h.tolerance).ne'
  unfold upperBound LeastSquares.Subproblem.upperBound
  rw [divide_of h.radius.ne', ok_bind]
  dsimp only
  split
  · exact divide_of hmin
  · rfl

end Subproblem

namespace SearchState

variable {f : Triangular ℝ m n} {p : Subproblem ℝ n} {s : SearchState ℝ m n}
  (hs : s.IsWellFormed f)
include hs

theorem solve_of (p : Subproblem ℝ n) : solve p s = .ok (s.solve p) := by
  have damping := (LeastSquares.SearchState.zero_lt_restarted hs.damping s.upper).le
  unfold solve
  dsimp only
  rw [root_of damping, ok_bind, Triangular.solveDamped_eq, ok_bind, norm_eq]
  rfl

variable (h : p.IsPosed f) (sees : f.SeesGradient f.ordered p.projected.get)
include h sees

/-- A damped step does not vanish. -/
theorem scaled_ne_zero : (s.solve p).scaled.get ≠ 0 := by
  have hsolved := (hs.triangle.solveDamped (s.solve p).weights p.projected s.buffers.diagonal
    s.buffers.diagonal).solution
  have hmoves := h.scaled_solution_ne_zero sees (s.solve p).damping s.buffers.diagonal
  change (p.scaled (s.factor.solveDamped (s.solve p).weights p.projected _).solution).get ≠ 0
  rw [hsolved]
  exact hmoves

theorem corrected_of : corrected p s (s.solve p) = .ok (s.corrected p (s.solve p)) := by
  have moves := scaled_ne_zero hs h sees
  have hlength : (s.solve p).length ≠ 0 := (norm_pos_of_ne_zero moves).ne'
  have damping := LeastSquares.SearchState.zero_lt_restarted hs.damping s.upper
  have weights (i : Fin n) : (s.solve p).weights i ≠ 0 := by
    have hweight : (s.solve p).weights i = p.scaling i * √(s.solve p).damping :=
      Vec.map_apply _ _ i
    rw [hweight]
    exact (mul_pos (h.scaling i) (Real.sqrt_pos.mpr damping)).ne'
  have regular := s.factor.diagonal_ne_zero_of_weights weights p.projected s.buffers.diagonal
  have direction := (h.congr hs.triangle.permutation).direction_ne_zero moves
  have solves := (s.solve p).solved.factor.solveDampedTranspose_solves (s.solve p).solved.diagonal
    (p.direction s.factor.permutation (s.solve p).scaled (s.solve p).length) regular
  have correction : ((s.solve p).solved.factor.solveDampedTranspose (s.solve p).solved.diagonal
      (p.direction s.factor.permutation (s.solve p).scaled (s.solve p).length)).get ≠ 0 := by
    intro hzero
    rw [hzero, mulVec_zero] at solves
    exact direction solves.symm
  unfold corrected
  refine (bind_of_ok (Subproblem.direction_of _ _ _ hlength) _).trans ?_
  refine (bind_of_ok (Triangular.solveDampedTranspose_of _ _ regular) _).trans ?_
  exact bind_of_ok (Subproblem.newton_of h.radius.ne' _ correction) _

theorem run_of (further : Nat) : run p further s = .ok (s.run p further) := by
  induction further generalizing s with
  | zero =>
    unfold run
    rw [solve_of hs, ok_bind]
    rfl
  | succ further ih =>
    unfold run LeastSquares.SearchState.run
    rw [solve_of hs, ok_bind]
    dsimp only
    split
    · rfl
    · rw [corrected_of hs h sees, ok_bind]
      exact ih (hs.corrected p)

end SearchState

end Guarded

namespace Subproblem

/-- Whatever the rank of the factor, a search never divides by zero and never takes the square root
of a negative number: with every quotient and every root guarded it returns what it returns. -/
theorem search_isDefined (f : Triangular ℝ m n) (permutation : Function.Injective f.permutation.get)
    (p : Subproblem ℝ n) (scaling : ∀ i, 0 < p.scaling i) (radius : 0 < p.radius)
    (tuning : p.tuning.error? = none) (estimate : ℝ) (oldStep : Vec ℝ n)
    (buffers : SearchBuffers ℝ n) :
    Guarded.Subproblem.search p f estimate oldStep buffers =
      .ok (p.search f estimate oldStep buffers) := by
  have h : p.IsPosed f := ⟨permutation, scaling, radius, tuning⟩
  let scaled := p.scaled (p.undamped f oldStep)
  unfold Guarded.Subproblem.search
  refine (bind_of_ok (Guarded.Triangular.solveLeading_eq f p.projected) _).trans ?_
  refine (bind_of_ok (Guarded.norm_eq scaled) _).trans ?_
  by_cases inside : norm scaled - p.radius ≤ p.tuning.searchTolerance * p.radius
  · have searched : p.search f estimate oldStep buffers = _ := if_pos inside
    rw [searched]
    exact if_pos inside
  · have searched : p.search f estimate oldStep buffers =
        (p.started f estimate scaled buffers).run p (p.tuning.maxSearchPasses - 1) := if_neg inside
    have long : p.radius < norm scaled := by
      linarith [mul_pos h.tolerance radius]
    have hlength : norm scaled ≠ 0 := (radius.trans long).ne'
    refine (if_neg inside).trans ?_
    refine (bind_of_ok (Guarded.Subproblem.lowerBound_of h (h.scaled_ne_zero long) _) _).trans ?_
    refine (bind_of_ok (Guarded.Subproblem.scaledGradient_of h) _).trans ?_
    refine (bind_of_ok (Guarded.norm_eq _) _).trans ?_
    refine (bind_of_ok (Guarded.Subproblem.upperBound_of h _) _).trans ?_
    refine (bind_of_ok (y := (p.started f estimate scaled buffers).damping) ?_ _).trans ?_
    · unfold started
      dsimp only
      split
      · exact Guarded.divide_of hlength
      · rfl
    · rw [searched]
      exact Guarded.SearchState.run_of (h.started_isWellFormed long estimate buffers) h
        (h.seesGradient long) _

/-- A triangle whose last row vanishes, with exchanged columns and a step that is too long. -/
theorem search_isDefined_singular :
    let f : Triangular ℝ 3 2 :=
      ⟨.ofFn fun i j => if i.val = 0 then j.val + 1 else 0, .ofFn Fin.rev, by decide⟩
    let p : Subproblem ℝ 2 :=
      { scaling := .ofFn ![1, 2], projected := .ofFn ![7, 5], radius := 1, tuning := .standard }
    let oldStep : Vec ℝ 2 := .fill 2 0
    let buffers : SearchBuffers ℝ 2 := ⟨.fill 2 0, .fill 2 0, .fill 2 0⟩
    Guarded.Subproblem.search p f 0 oldStep buffers = .ok (p.search f 0 oldStep buffers) := by
  intro f p oldStep buffers
  have permutation : Function.Injective f.permutation.get := Vec.injective_ofFn Fin.rev_injective
  have scaling (i : Fin 2) : 0 < p.scaling i := by
    fin_cases i <;> simp [p]
  exact search_isDefined f permutation p scaling one_pos Tuning.error?_standard 0 oldStep buffers

end Subproblem

end LeastSquares
