import LeastSquares.Proofs.DescentDirections
import LeastSquares.Proofs.ForwardSubstitution
import Mathlib.LinearAlgebra.Matrix.NonsingularInverse

namespace LeastSquares

open Matrix

variable {k m m' n : Nat}

/-- Whether no diagonal element of `R` counts as zero. -/
def Triangular.IsRegular (f : Triangular ℝ m n) : Prop :=
  ∀ j, Arith.epsilon < |f.r j j|

section Normal

variable {a : Matrix (Fin k) (Fin n) ℝ} {w x y c : Fin n → ℝ}

theorem normalOf_neg : normalOf a w (-x) = -normalOf a w x := by
  rw [normalOf, normalOf, mulVec_neg, mulVec_neg, neg_add]
  congr 1
  funext i
  exact mul_neg _ _

theorem normalOf_sub : normalOf a w (x - y) = normalOf a w x - normalOf a w y := by
  rw [normalOf, normalOf, normalOf, mulVec_sub, mulVec_sub, add_sub_add_comm]
  congr 1
  funext i
  exact mul_sub _ _ _

theorem dot_normalOf :
    x ⬝ᵥ normalOf a w x = (a *ᵥ x) ⬝ᵥ (a *ᵥ x) + scale w x ⬝ᵥ scale w x := by
  rw [normalOf, dotProduct_add, dotProduct_mulVec, vecMul_transpose]
  congr 1
  apply Finset.sum_congr rfl
  intro i _
  unfold scale
  ring

/-- The change of the residuals does not depend on the units. -/
theorem mulVec_units : (a * diagonal c) *ᵥ x = a *ᵥ scale c x := by
  rw [← mulVec_mulVec]
  congr 1
  funext i
  exact mulVec_diagonal _ _ i

theorem transpose_mulVec_units (v : Fin k → ℝ) : (a * diagonal c)ᵀ *ᵥ v = scale c (aᵀ *ᵥ v) := by
  rw [transpose_mul, diagonal_transpose, ← mulVec_mulVec]
  funext i
  exact mulVec_diagonal _ _ i

/-- What other units make of the damped normal equations. -/
theorem normalOf_units :
    normalOf (a * diagonal c) (scale c w) x = scale c (normalOf a w (scale c x)) := by
  rw [normalOf, mulVec_units, transpose_mulVec_units]
  funext i
  simp only [normalOf, scale, Pi.add_apply]
  ring

theorem scale_injective (hc : ∀ i, c i ≠ 0) (h : scale c x = scale c y) : x = y := by
  funext i
  exact mul_left_cancel₀ (hc i) (congrFun h i)

end Normal

section Regular

variable {f : Triangular ℝ m n} {q : Vec ℝ n} {a : Matrix (Fin k) (Fin n) ℝ} {b : Fin k → ℝ}
  {s : Matrix (Fin n) (Fin n) ℝ} {w r u v x y : Fin n → ℝ}

theorem IsUpper.injective (hs : IsUpper s) (regular : ∀ j, s j j ≠ 0) (h : s *ᵥ x = 0) : x = 0 := by
  have hsolves : SolvesLeading s n 0 x := by
    refine ⟨fun i hi => absurd i.isLt (not_lt.mpr hi), fun i _ => ?_⟩
    exact congrFun h i
  exact hsolves.eq_zero hs (fun j _ => regular j) fun _ _ => rfl

theorem IsUpper.exists_mulVec_eq (hs : IsUpper s) (regular : ∀ j, s j j ≠ 0) (u : Fin n → ℝ) :
    ∃ z, s *ᵥ z = u := by
  have hinjective : Function.Injective s.mulVec := by
    intro x y hxy
    have hxy' : s *ᵥ x = s *ᵥ y := hxy
    exact sub_eq_zero.mp (hs.injective regular (by rw [mulVec_sub, hxy', sub_self]))
  exact mulVec_surjective_iff_isUnit.mpr (mulVec_injective_iff_isUnit.mp hinjective) u

theorem Triangular.IsRegular.ne_zero (h : f.IsRegular) (j : Fin n) : f.r.toMatrix j j ≠ 0 :=
  abs_pos.mp (Arith.epsilon_pos.trans (h j))

theorem Triangular.IsRegular.square_ne_zero (h : f.IsRegular) (j : Fin n) : f.square j j ≠ 0 := by
  rw [← f.r_apply le_rfl]
  exact h.ne_zero j

theorem Triangular.IsRegular.le_rank (h : f.IsRegular) : n ≤ f.rank := by
  refine (firstIndex_eq fun j => negligible_eq_false.mpr ?_).ge
  rw [← f.r_apply le_rfl]
  exact h j

theorem Damps.ne_zero (hd : Damps f.r.toMatrix w q.get s r) (h : f.IsRegular) (j : Fin n) :
    s j j ≠ 0 :=
  abs_pos.mp (Arith.epsilon_pos.trans ((h j).trans_le (hd.diagonal j)))

/-- No diagonal element of a damped triangle vanishes. -/
theorem Triangular.IsRegular.diagonal_ne_zero (h : f.IsRegular) (weights q row : Vec ℝ n)
    (j : Fin n) : (f.solveDamped weights q row).diagonal j ≠ 0 := by
  obtain ⟨r, hd, -⟩ := f.solveDamped_solves weights q row
  have hne := hd.ne_zero h j
  unfold damped at hne
  rwa [show upperOf _ _ j j = _ from if_pos rfl] at hne

namespace Triangular.Models

/-- The damped normal equations of a regular factor have at most one solution. -/
theorem eq_of_normalOf (hm : f.Models q a b) (regular : f.IsRegular)
    (h : normalOf a w x = normalOf a w y) : x = y := by
  rw [← sub_eq_zero]
  have henergy := dot_normalOf (a := a) (w := w) (x := x - y)
  rw [normalOf_sub, h, sub_self, dotProduct_zero] at henergy
  have hchange : (a *ᵥ (x - y)) ⬝ᵥ (a *ᵥ (x - y)) = 0 := by
    rw [← length_sq, ← length_sq] at henergy
    rw [← length_sq]
    linarith [sq_nonneg (length (a *ᵥ (x - y))), sq_nonneg (length (scale w (x - y)))]
  rw [← hm.change_dot_self] at hchange
  have hzero := f.isUpper_r.injective regular.ne_zero (dotProduct_self_eq_zero.mp hchange)
  exact hm.permute_injective hzero

/-- Solutions of the same damped normal equations in two systems of units are the same step. -/
theorem eq_of_units (hm : f.Models q a b) (regular : f.IsRegular) {c x' : Fin n → ℝ}
    (hc : ∀ i, c i ≠ 0) (hx : normalOf a w x = v)
    (hx' : normalOf (a * diagonal c) (scale c w) x' = scale c v) : scale c x' = x := by
  apply hm.eq_of_normalOf regular (w := w)
  rw [normalOf_units] at hx'
  exact (scale_injective hc hx').trans hx.symm

/-- The length of a solution with the transposed triangle is that of the damped normal equations
with the same right-hand side. -/
theorem exists_normalOf (hm : f.Models q a b) (regular : f.IsRegular)
    (hd : Damps f.r.toMatrix (f.permute w) q.get s r) (hu : sᵀ *ᵥ u = f.permute v) :
    ∃ y, normalOf a w y = v ∧ u ⬝ᵥ u = y ⬝ᵥ v := by
  obtain ⟨z, rfl⟩ := hd.upper.exists_mulVec_eq (hd.ne_zero regular) u
  obtain ⟨y, rfl⟩ := hm.exists_permute z
  refine ⟨y, hm.permute_injective ?_, ?_⟩
  · rw [hm.permute_normalOf, ← hu, hd.normal]
  · calc (s *ᵥ f.permute y) ⬝ᵥ (s *ᵥ f.permute y)
        = f.permute y ⬝ᵥ (sᵀ *ᵥ (s *ᵥ f.permute y)) := by
          rw [dotProduct_mulVec (f.permute y), vecMul_transpose]
      _ = f.permute y ⬝ᵥ f.permute v := by rw [hu]
      _ = y ⬝ᵥ v := hm.permute_dot y v

end Triangular.Models

end Regular

theorem Triangular.Models.length_permute {f : Triangular ℝ m n} {q : Vec ℝ n}
    {a : Matrix (Fin k) (Fin n) ℝ} {b : Fin k → ℝ} (hm : f.Models q a b) (x : Fin n → ℝ) :
    length (f.permute x) = length x := by
  rw [length_eq_sqrt, length_eq_sqrt, hm.permute_dot]

theorem Triangular.Models.norm_scaledGradient {f : Triangular ℝ m n} {p : Subproblem ℝ n}
    {a : Matrix (Fin k) (Fin n) ℝ} {b : Fin k → ℝ} (hm : f.Models p.projected a b) :
    norm (p.scaledGradient f) = length fun i => (aᵀ *ᵥ b) i / p.scaling i := by
  rw [norm_eq_length]
  refine Eq.trans ?_ (hm.length_permute _)
  congr 1
  funext j
  refine (Vec.ofFn_apply _ j).trans ?_
  change (f.transposeMul p.projected).get j / _ = (aᵀ *ᵥ b) (f.permutation j) / _
  rw [f.transposeMul_get, ← hm.permute_gradient]
  rfl

/-- Whether two searches are asked for the same step of one linear model with regular factors, the
second one in other units of the parameters. -/
structure Subproblem.Matches (c : Fin n → ℝ) (a : Matrix (Fin k) (Fin n) ℝ) (b : Fin k → ℝ)
    (p p' : Subproblem ℝ n) (f : Triangular ℝ m n) (f' : Triangular ℝ m' n) : Prop where
  units : ∀ i, c i ≠ 0
  models : f.Models p.projected a b
  models' : f'.Models p'.projected (a * diagonal c) b
  regular : f.IsRegular
  regular' : f'.IsRegular
  scaling : p'.scaling.get = scale c p.scaling.get
  radius : p'.radius = p.radius
  tuning : p'.tuning = p.tuning

structure SearchState.Matches (s : SearchState ℝ m n) (s' : SearchState ℝ m' n) : Prop where
  damping : s'.damping = s.damping
  lower : s'.lower = s.lower
  upper : s'.upper = s.upper
  excess : s'.excess = s.excess
  passes : s'.passes = s.passes
  log : s'.log = s.log

structure SearchOutcome.Matches (c : Fin n → ℝ) (out : SearchOutcome ℝ m n)
    (out' : SearchOutcome ℝ m' n) : Prop where
  damping : out'.damping = out.damping
  passes : out'.passes = out.passes
  step : scale c out'.step.get = out.step.get
  log : out'.log = out.log

/-- The vector along a scaled step that the corrections are computed from. -/
theorem Subproblem.direction_get (p : Subproblem ℝ n) (f : Triangular ℝ m n) (scaled : Vec ℝ n)
    (length : ℝ) : (p.direction f.permutation scaled length).get =
      f.permute (scale p.scaling.get fun i => scaled i / length) :=
  funext fun j => Vec.ofFn_apply _ j

namespace Subproblem.Matches

variable {c : Fin n → ℝ} {a : Matrix (Fin k) (Fin n) ℝ} {b : Fin k → ℝ} {p p' : Subproblem ℝ n}
  {f : Triangular ℝ m n} {f' : Triangular ℝ m' n}

/-- A search keeps the triangle and the permutation of its factor, and these are all that counts. -/
theorem congr (h : p.Matches c a b p' f f') {g : Triangular ℝ m n} {g' : Triangular ℝ m' n}
    (hr : g.r = f.r) (hp : g.permutation = f.permutation) (hr' : g'.r = f'.r)
    (hp' : g'.permutation = f'.permutation) : p.Matches c a b p' g g' where
  units := h.units
  models := h.models.congr hr hp
  models' := h.models'.congr hr' hp'
  regular := by
    unfold Triangular.IsRegular
    rw [hr]
    exact h.regular
  regular' := by
    unfold Triangular.IsRegular
    rw [hr']
    exact h.regular'
  scaling := h.scaling
  radius := h.radius
  tuning := h.tuning

theorem scaled_eq (h : p.Matches c a b p' f f') {x x' : Vec ℝ n} (hx : scale c x'.get = x.get) :
    p'.scaled x' = p.scaled x := by
  ext i
  have hscaling : p'.scaling i = c i * p.scaling i := congrFun h.scaling i
  have hvalue : c i * x' i = x i := congrFun hx i
  rw [scaled, scaled, Vec.ofFn_apply, Vec.ofFn_apply, hscaling, ← hvalue]
  ring

theorem scale_scaling (h : p.Matches c a b p' f f') (v : Fin n → ℝ) :
    scale p'.scaling.get v = scale c (scale p.scaling.get v) := by
  rw [h.scaling]
  funext i
  exact mul_assoc _ _ _

/-- Steps with the same damping are the same step, each in its own units. -/
theorem step_eq (h : p.Matches c a b p' f f') {damping : ℝ} {x x' : Vec ℝ n}
    (hx : f.IsStep p.scaling p.projected damping (x.map (-·)))
    (hx' : f'.IsStep p'.scaling p'.projected damping (x'.map (-·))) : scale c x'.get = x.get := by
  have hn := hx.normalOf_eq h.models h.regular
  have hn' := hx'.normalOf_eq h.models' h.regular'
  rw [Vec.get_neg, normalOf_neg, neg_inj] at hn hn'
  rw [h.scale_scaling, transpose_mulVec_units] at hn'
  exact h.models.eq_of_units h.regular h.units hn hn'

theorem leading_eq (h : p.Matches c a b p' f f') (into into' : Vec ℝ n) :
    scale c (scatter f'.permutation into' (f'.solveLeading p'.projected)).get =
      (scatter f.permutation into (f.solveLeading p.projected)).get :=
  h.step_eq (Triangular.solveLeading_isStep h.models.injective _ _ _)
    (Triangular.solveLeading_isStep h.models'.injective _ _ _)

/-- Corrections along the same step are the same, whatever triangles they are computed with. -/
theorem newton_eq (h : p.Matches c a b p' f f') {w v r r' : Fin n → ℝ}
    {s s' : Matrix (Fin n) (Fin n) ℝ} {u u' : Vec ℝ n}
    (hd : Damps f.r.toMatrix (f.permute w) p.projected.get s r)
    (hd' : Damps f'.r.toMatrix (f'.permute (scale c w)) p'.projected.get s' r')
    (hu : sᵀ *ᵥ u.get = f.permute v) (hu' : s'ᵀ *ᵥ u'.get = f'.permute (scale c v)) (excess : ℝ) :
    p'.newton excess u' = p.newton excess u := by
  obtain ⟨y, hy, hlength⟩ := h.models.exists_normalOf h.regular hd hu
  obtain ⟨y', hy', hlength'⟩ := h.models'.exists_normalOf h.regular' hd' hu'
  have hnorm : norm u' = norm u := by
    have hdot : y' ⬝ᵥ scale c v = y ⬝ᵥ v := by
      rw [← h.models.eq_of_units h.regular h.units hy hy']
      apply Finset.sum_congr rfl
      intro i _
      unfold scale
      ring
    rw [norm_eq_length, norm_eq_length, length_eq_sqrt, length_eq_sqrt, hlength, hlength', hdot]
  unfold newton
  rw [h.radius, hnorm]

theorem lowerBound_eq (h : p.Matches c a b p' f f') (scaled : Vec ℝ n) (length excess : ℝ) :
    p'.lowerBound f' scaled length excess = p.lowerBound f scaled length excess := by
  have hundamped : Damps f'.r.toMatrix (f'.permute (scale c fun _ => 0)) p'.projected.get
      f'.r.toMatrix p'.projected.get := by
    rw [show scale c (fun _ => 0) = fun _ => 0 from funext fun i => mul_zero (c i)]
    exact Damps.refl f'.isUpper_r _
  unfold lowerBound
  rw [if_pos h.regular.le_rank, if_pos h.regular'.le_rank]
  refine h.newton_eq (w := fun _ => 0) (Damps.refl f.isUpper_r _) hundamped
    ((f.solveTranspose_solves _ h.regular.square_ne_zero).trans (p.direction_get f scaled length))
    ?_ excess
  rw [← h.scale_scaling]
  exact (f'.solveTranspose_solves _ h.regular'.square_ne_zero).trans
    (p'.direction_get f' scaled length)

/-- The scaled gradient has the same length in all units. -/
theorem gradientNorm_eq (h : p.Matches c a b p' f f') :
    norm (p'.scaledGradient f') = norm (p.scaledGradient f) := by
  rw [h.models.norm_scaledGradient, h.models'.norm_scaledGradient, transpose_mulVec_units]
  congr 1
  funext i
  have hscaling : p'.scaling i = c i * p.scaling i := congrFun h.scaling i
  rw [hscaling]
  exact mul_div_mul_left _ _ (h.units i)

theorem upperBound_eq (h : p.Matches c a b p' f f') (gradientNorm : ℝ) :
    p'.upperBound gradientNorm = p.upperBound gradientNorm := by
  unfold upperBound
  rw [h.radius, h.tuning]

end Subproblem.Matches

structure SearchPass.Matches (c : Fin n → ℝ) (t : SearchPass ℝ m n) (t' : SearchPass ℝ m' n) :
    Prop where
  damping : t'.damping = t.damping
  weights : t'.weights.get = scale c t.weights.get
  solution : scale c t'.solved.solution.get = t.solved.solution.get
  scaled : t'.scaled = t.scaled
  length : t'.length = t.length
  excess : t'.excess = t.excess

namespace SearchState

variable {c : Fin n → ℝ} {a : Matrix (Fin k) (Fin n) ℝ} {b : Fin k → ℝ} {p p' : Subproblem ℝ n}
  {s : SearchState ℝ m n} {s' : SearchState ℝ m' n}

theorem solve_matches (h : p.Matches c a b p' s.factor s'.factor) (hs : s.Matches s') :
    (s.solve p).Matches c (s'.solve p') := by
  have hdamping : (s'.solve p').damping = (s.solve p).damping := by
    change Subproblem.restarted s'.damping s'.upper = Subproblem.restarted s.damping s.upper
    rw [hs.damping, hs.upper]
  have hsolution : scale c (s'.solve p').solved.solution.get = (s.solve p).solved.solution.get := by
    have hstep : s.factor.IsStep p.scaling p.projected (s.solve p).damping
        ((s.solve p).solved.solution.map (-·)) :=
      Triangular.solveDamped_isStep h.models.injective _ _ _ _
    refine h.step_eq hstep ?_
    rw [← hdamping]
    exact Triangular.solveDamped_isStep h.models'.injective _ _ _ _
  have hscaled : (s'.solve p').scaled = (s.solve p).scaled := h.scaled_eq hsolution
  have hlength : (s'.solve p').length = (s.solve p).length := congrArg norm hscaled
  refine ⟨hdamping, ?_, hsolution, hscaled, hlength, ?_⟩
  · have hweights {p : Subproblem ℝ n} {m : Nat} {s : SearchState ℝ m n} :
        (s.solve p).weights.get = scale p.scaling.get fun _ => √(s.solve p).damping :=
      funext fun i => Vec.map_apply _ _ i
    rw [hweights, hweights, hdamping]
    exact h.scale_scaling _
  · change (s'.solve p').length - p'.radius = (s.solve p).length - p.radius
    rw [hlength, h.radius]

theorem outcome_matches (hs : s.Matches s') {t : SearchPass ℝ m n} {t' : SearchPass ℝ m' n}
    (ht : t.Matches c t') : (s.outcome t).Matches c (s'.outcome t') where
  damping := ht.damping
  passes := congrArg (· + 1) hs.passes
  step := by
    change scale c (t'.solved.solution.map (-·)).get = (t.solved.solution.map (-·)).get
    rw [Vec.get_neg, Vec.get_neg, ← ht.solution]
    funext i
    exact mul_neg _ _
  log := by
    unfold outcome record
    dsimp only
    rw [hs.log, hs.passes, hs.lower, hs.upper, ht.damping, ht.length]

theorem settles_eq (h : p.Matches c a b p' s.factor s'.factor) (hs : s.Matches s')
    {t : SearchPass ℝ m n} {t' : SearchPass ℝ m' n} (ht : t.Matches c t') :
    s'.settles p' t' = s.settles p t := by
  unfold settles Subproblem.onBoundary
  rw [h.radius, h.tuning, hs.lower, hs.excess, ht.excess]

/-- The Newton corrections of two matching passes are the same. -/
theorem newton_solve_eq (h : p.Matches c a b p' s.factor s'.factor) (hs : s.Matches s')
    (excess : ℝ) :
    let t := s.solve p
    let t' := s'.solve p'
    p'.newton excess (t'.solved.factor.solveDampedTranspose t'.solved.diagonal
        (p'.direction s'.factor.permutation t'.scaled t'.length)) =
      p.newton excess (t.solved.factor.solveDampedTranspose t.solved.diagonal
        (p.direction s.factor.permutation t.scaled t.length)) := by
  intro t t'
  have ht : t.Matches c t' := solve_matches h hs
  obtain ⟨r, hd, -⟩ := s.factor.solveDamped_solves t.weights p.projected s.buffers.diagonal
  obtain ⟨r', hd', -⟩ := s'.factor.solveDamped_solves t'.weights p'.projected s'.buffers.diagonal
  have hdamped : Damps s'.factor.r.toMatrix (s'.factor.permute (scale c t.weights.get))
      p'.projected.get (s'.factor.damped t'.weights p'.projected s'.buffers.diagonal) r' := by
    rw [← ht.weights]
    exact hd'
  refine h.newton_eq (w := t.weights.get) hd hdamped
    ((t.solved.factor.solveDampedTranspose_solves _ _ (h.regular.diagonal_ne_zero _ _ _)).trans
      (p.direction_get s.factor t.scaled t.length)) ?_ excess
  rw [← h.scale_scaling, ← ht.scaled, ← ht.length]
  exact (t'.solved.factor.solveDampedTranspose_solves _ _ (h.regular'.diagonal_ne_zero _ _ _)).trans
    (p'.direction_get s'.factor t'.scaled t'.length)

theorem corrected_matches (h : p.Matches c a b p' s.factor s'.factor) (hs : s.Matches s') :
    (s.corrected p (s.solve p)).Matches (s'.corrected p' (s'.solve p')) := by
  have ht := solve_matches h hs
  have hlower : (s'.corrected p' (s'.solve p')).lower = (s.corrected p (s.solve p)).lower := by
    unfold corrected
    dsimp only
    rw [hs.lower, ht.excess, ht.damping]
  refine ⟨?_, hlower, ?_, ht.excess, congrArg (· + 1) hs.passes, ?_⟩
  · have hnewton := newton_solve_eq h hs (s.solve p).excess
    change Arith.maxNum (s'.corrected p' (s'.solve p')).lower
        ((s'.solve p').damping + p'.newton (s'.solve p').excess _) =
      Arith.maxNum (s.corrected p (s.solve p)).lower
        ((s.solve p).damping + p.newton (s.solve p).excess _)
    rw [hlower, ht.damping, ht.excess]
    exact congrArg (fun x => Arith.maxNum _ (_ + x)) hnewton
  · unfold corrected
    dsimp only
    rw [hs.upper, ht.excess, ht.damping]
  · exact (outcome_matches hs ht).log

/-- Two matching searches agree in every pass. -/
theorem run_matches (h : p.Matches c a b p' s.factor s'.factor) (hs : s.Matches s')
    (further : Nat) :
    (run p further s).Matches c (run p' further s') := by
  induction further generalizing s s' with
  | zero => exact outcome_matches hs (solve_matches h hs)
  | succ further ih =>
    have ht := solve_matches h hs
    unfold run
    dsimp only
    rw [settles_eq h hs ht]
    split
    · exact outcome_matches hs ht
    · refine ih (h.congr ?_ ?_ ?_ ?_) (corrected_matches h hs)
      · exact s.factor.r_solveDamped _ _ _
      · rfl
      · exact s'.factor.r_solveDamped _ _ _
      · rfl

end SearchState

/-- Searches with regular factors of one linear model return the same damping after the same number
of passes, and the same step. Other units of the parameters change nothing but the numbers that the
step is written in. -/
theorem Subproblem.Matches.search {c : Fin n → ℝ} {a : Matrix (Fin k) (Fin n) ℝ} {b : Fin k → ℝ}
    {p p' : Subproblem ℝ n} {f : Triangular ℝ m n} {f' : Triangular ℝ m' n}
    (h : p.Matches c a b p' f f') (estimate : ℝ) (oldStep oldStep' : Vec ℝ n)
    (buffers buffers' : SearchBuffers ℝ n) :
    (p.search f estimate oldStep buffers).Matches c
      (p'.search f' estimate oldStep' buffers') := by
  have hsolution := h.leading_eq oldStep oldStep'
  have hlength := congrArg norm (h.scaled_eq hsolution)
  unfold Subproblem.search
  dsimp only
  rw [hlength, h.radius, h.tuning, h.gradientNorm_eq]
  split
  · refine ⟨rfl, rfl, ?_, rfl⟩
    dsimp only
    rw [Vec.get_neg, Vec.get_neg, ← hsolution]
    funext i
    exact mul_neg _ _
  · refine SearchState.run_matches h ?_ _
    rw [h.lowerBound_eq, h.upperBound_eq, h.scaled_eq hsolution]
    exact ⟨rfl, rfl, rfl, rfl, rfl, rfl⟩

end LeastSquares
