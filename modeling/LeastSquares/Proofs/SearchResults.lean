import LeastSquares.Proofs.DampedSolves
import LeastSquares.Proofs.SurvivingTriangle

namespace LeastSquares

open Matrix

variable {m n : Nat}

theorem Tuning.maxSearchPasses_pos {t : Tuning ℝ} (h : t.error? = none) :
    0 < t.maxSearchPasses := by
  refine Nat.pos_of_ne_zero fun hzero => ?_
  unfold Tuning.error? at h
  rw [if_pos hzero] at h
  repeat' split at h
  all_goals cases h

structure Subproblem.IsPosed (p : Subproblem ℝ n) (f : Triangular ℝ m n) : Prop where
  injective : Function.Injective f.permutation.get
  scaling : ∀ i, 0 < p.scaling i
  radius : 0 < p.radius
  tuning : p.tuning.error? = none

/-- The results of a search that found the undamped step short enough. The step is the negative of
the best solution among those that vanish from the first diagonal element on that counts as zero. -/
structure SearchOutcome.IsUndamped (f : Triangular ℝ m n) (p : Subproblem ℝ n)
    (out : SearchOutcome ℝ m n) : Prop where
  damping : out.damping = 0
  passes : out.passes = 0
  inside : length (scale p.scaling.get out.step.get) ≤ (1 + p.tuning.searchTolerance) * p.radius
  support : ∀ c : Fin n, f.rank ≤ c → out.step (f.permutation c) = 0
  minimal : ∀ y : Fin n → ℝ, (∀ c : Fin n, f.rank ≤ c → y (f.permutation c) = 0) →
    y ≠ -out.step.get →
    length (f.ordered *ᵥ (-out.step.get) - p.projected.get) <
      length (f.ordered *ᵥ y - p.projected.get)

/-- The results of a search that made at least one pass. The step is that of the damping, and only a
search that used up its passes may return one that is too long. -/
structure SearchOutcome.IsDamped (f : Triangular ℝ m n) (p : Subproblem ℝ n)
    (out : SearchOutcome ℝ m n) : Prop where
  damping : 0 < out.damping
  passes : 1 ≤ out.passes ∧ out.passes ≤ p.tuning.maxSearchPasses
  solution : ∀ row,
    (f.solveDamped (p.scaling.map (· * √out.damping)) p.projected row).solution.get =
      -out.step.get
  inside : length (scale p.scaling.get out.step.get) ≤ (1 + p.tuning.searchTolerance) * p.radius ∨
    out.passes = p.tuning.maxSearchPasses
  onBoundary : f.IsRegular →
    |length (scale p.scaling.get out.step.get) - p.radius| ≤
        p.tuning.searchTolerance * p.radius ∨
      out.passes = p.tuning.maxSearchPasses

structure SearchState.IsWellFormed (f : Triangular ℝ m n) (s : SearchState ℝ m n) : Prop where
  triangle : f.SameTriangle s.factor
  damping : 0 ≤ s.damping
  lower : 0 ≤ s.lower
  lower_pos : f.IsRegular → 0 < s.lower

namespace Subproblem

section Start

variable {α : Type} [Scalar α] (p : Subproblem α n) (f : Triangular α m n)

def started (estimate : α) (scaled : Vec α n) (buffers : SearchBuffers α n) : SearchState α m n :=
  let length := norm scaled
  let excess := length - p.radius
  let lower := p.lowerBound f scaled length excess
  let gradient := p.scaledGradient f
  let upper := p.upperBound (norm gradient)
  let damping := Arith.minNum (Arith.maxNum estimate lower) upper
  { damping := if damping == 0 then norm gradient / length else damping
    lower
    upper
    excess
    factor := f
    buffers := { buffers with first := gradient, second := scaled }
    passes := 0
    log := [] }

end Start

variable {f : Triangular ℝ m n} {p : Subproblem ℝ n} {scaled w : Vec ℝ n} {excess : ℝ}

theorem newton_pos (radius : 0 < p.radius) (long : 0 < excess) (hw : w.get ≠ 0) :
    0 < p.newton excess w := by
  have hnorm := norm_pos_of_ne_zero hw
  exact div_pos (div_pos (div_pos long radius) hnorm) hnorm

namespace IsPosed

theorem tolerance (h : p.IsPosed f) : 0 < p.tuning.searchTolerance :=
  Tuning.searchTolerance_pos h.tuning

theorem congr (h : p.IsPosed f) {g : Triangular ℝ m n} (hp : g.permutation = f.permutation) :
    p.IsPosed g where
  injective := by
    rw [hp]
    exact h.injective
  scaling := h.scaling
  radius := h.radius
  tuning := h.tuning

/-- The direction of a step that moves does not vanish. -/
theorem direction_ne_zero (h : p.IsPosed f) (moves : scaled.get ≠ 0) :
    (p.direction f.permutation scaled (norm scaled)).get ≠ 0 := by
  intro hzero
  apply moves
  funext i
  obtain ⟨c, rfl⟩ := (Finite.injective_iff_bijective.mp h.injective).surjective i
  have hcomponent : p.scaling (f.permutation c) * (scaled (f.permutation c) / norm scaled) = 0 :=
    (Vec.ofFn_apply _ c).symm.trans (congrFun hzero c)
  have hquotient := (mul_eq_zero.mp hcomponent).resolve_left (h.scaling _).ne'
  exact (div_eq_zero_iff.mp hquotient).resolve_right (norm_pos_of_ne_zero moves).ne'

/-- Solving with the transpose of `R` along a step that moves gives a vector that does not vanish.
-/
theorem solveTranspose_ne_zero (h : p.IsPosed f) (hrank : n ≤ f.rank) (moves : scaled.get ≠ 0) :
    (f.solveTranspose (p.direction f.permutation scaled (norm scaled))).get ≠ 0 := by
  intro hzero
  have hsolves := f.solveTranspose_solves (p.direction f.permutation scaled (norm scaled))
    fun j => Triangular.ne_zero_of_lt_rank (j.isLt.trans_le hrank)
  rw [hzero, mulVec_zero] at hsolves
  exact h.direction_ne_zero moves hsolves.symm

/-- A step outside the trust region moves. -/
theorem scaled_ne_zero (h : p.IsPosed f) (long : p.radius < norm scaled) : scaled.get ≠ 0 := by
  rw [norm_eq_length] at long
  exact length_pos.mp (h.radius.trans long)

theorem lowerBound_pos (h : p.IsPosed f) (regular : f.IsRegular) (long : p.radius < norm scaled) :
    0 < p.lowerBound f scaled (norm scaled) (norm scaled - p.radius) := by
  unfold lowerBound
  rw [if_pos regular.le_rank]
  exact newton_pos h.radius (sub_pos.mpr long)
    (h.solveTranspose_ne_zero regular.le_rank (h.scaled_ne_zero long))

/-- A search starts with a well-formed state. -/
theorem started_isWellFormed (h : p.IsPosed f) (long : p.radius < norm scaled) (estimate : ℝ)
    (buffers : SearchBuffers ℝ n) : (p.started f estimate scaled buffers).IsWellFormed f := by
  have hlower : 0 ≤ p.lowerBound f scaled (norm scaled) (norm scaled - p.radius) :=
    zero_le_lowerBound h.radius (sub_pos.mpr long).le
  refine ⟨.refl f, ?_, hlower, fun regular => h.lowerBound_pos regular long⟩
  unfold started
  dsimp only
  split
  · exact div_nonneg (zero_le_norm _) (zero_le_norm _)
  · rw [Arith.maxNum_real, Arith.minNum_real]
    exact le_min (le_max_of_le_right hlower)
      (zero_le_upperBound h.radius h.tolerance (zero_le_norm _))

/-- The search either returns the undamped step or starts with its passes. -/
theorem search_cases (h : p.IsPosed f) (estimate : ℝ) (oldStep : Vec ℝ n)
    (buffers : SearchBuffers ℝ n) :
    let scaled := p.scaled (p.undamped f oldStep)
    let out := p.search f estimate oldStep buffers
    (norm scaled ≤ (1 + p.tuning.searchTolerance) * p.radius ∧ out.damping = 0 ∧ out.passes = 0 ∧
      out.step = (p.undamped f oldStep).map (-·)) ∨
    (p.radius < norm scaled ∧
      out = SearchState.run p (p.tuning.maxSearchPasses - 1)
        (p.started f estimate scaled buffers)) := by
  intro scaled out
  by_cases inside : norm scaled - p.radius ≤ p.tuning.searchTolerance * p.radius
  · left
    have hout : out = _ := if_pos inside
    rw [hout]
    exact ⟨by linarith, rfl, rfl, rfl⟩
  · right
    refine ⟨?_, if_neg inside⟩
    linarith [mul_pos h.tolerance h.radius]

end IsPosed

end Subproblem

namespace SearchState

variable {f : Triangular ℝ m n} {p : Subproblem ℝ n} {s : SearchState ℝ m n} {further : Nat}

/-- A pass that is not the last one raises the lower end of the bracket, if anything, and keeps the
damping above it. -/
theorem IsWellFormed.corrected (hs : s.IsWellFormed f) (p : Subproblem ℝ n) :
    (s.corrected p (s.solve p)).IsWellFormed f := by
  have raised := s.lower_le_corrected p (s.solve p)
  have above := s.lower_le_damping_corrected p (s.solve p)
  exact {
    triangle := hs.triangle.trans (s.factor.keeps_solveDamped _ _ _).sameTriangle
    damping := (hs.lower.trans raised).trans above
    lower := hs.lower.trans raised
    lower_pos := fun regular => (hs.lower_pos regular).trans_le raised }

/-- At full rank only a step on the boundary ends the passes early. -/
theorem IsWellFormed.onBoundary_of_settles (hs : s.IsWellFormed f) (regular : f.IsRegular)
    (h : s.settles p (s.solve p) = true) : p.onBoundary (s.solve p).excess = true := by
  have hlower : (s.lower == 0) = false := by simpa using (hs.lower_pos regular).ne'
  simpa [settles, hlower] using h

/-- The passes end early with a step that is not too long. -/
theorem excess_le_of_settles (h : s.settles p (s.solve p) = true) (radius : 0 < p.radius)
    (tolerance : 0 < p.tuning.searchTolerance) :
    (s.solve p).excess ≤ p.tuning.searchTolerance * p.radius := by
  unfold settles at h
  rcases (Bool.or_eq_true _ _).mp h with boundary | stuck
  · have hmagnitude : |(s.solve p).excess| ≤ p.tuning.searchTolerance * p.radius :=
      of_decide_eq_true boundary
    exact (abs_le.mp hmagnitude).2
  · simp only [Bool.and_eq_true, decide_eq_true_eq] at stuck
    linarith [mul_pos tolerance radius]

/-- The pass that ends a search, early or because it is the last one. -/
theorem IsWellFormed.outcome_isDamped (hs : s.IsWellFormed f) (h : p.IsPosed f)
    (hpasses : s.passes < p.tuning.maxSearchPasses)
    (ends : s.settles p (s.solve p) = true ∨ s.passes + 1 = p.tuning.maxSearchPasses) :
    (s.outcome (s.solve p)).IsDamped f p := by
  have hlength : length (scale p.scaling.get (s.outcome (s.solve p)).step.get) - p.radius =
      (s.solve p).excess := congrArg (· - p.radius) (p.norm_scaled _).symm
  refine ⟨zero_lt_restarted hs.damping _, ⟨Nat.succ_pos _, hpasses⟩, fun row => ?_, ?_, ?_⟩
  · have hsolved := (hs.triangle.solveDamped (s.solve p).weights p.projected row
      s.buffers.diagonal).solution
    change _ = -((s.solve p).solved.solution.map (-·)).get
    rw [Vec.get_neg, neg_neg]
    exact congrArg Vec.get hsolved.symm
  · refine ends.imp_left fun settled => ?_
    have hexcess := excess_le_of_settles settled h.radius h.tolerance
    linarith
  · refine fun regular => ends.imp_left fun settled => ?_
    rw [hlength]
    exact of_decide_eq_true (hs.onBoundary_of_settles regular settled)

theorem IsWellFormed.run_isDamped (hs : s.IsWellFormed f) (h : p.IsPosed f)
    (hpasses : s.passes + further + 1 = p.tuning.maxSearchPasses) :
    (run p further s).IsDamped f p := by
  induction further generalizing s with
  | zero => exact hs.outcome_isDamped h (by omega) (.inr hpasses)
  | succ further ih =>
    unfold run
    dsimp only
    split
    · rename_i settled
      exact hs.outcome_isDamped h (by omega) (.inl settled)
    · refine ih (hs.corrected p) ?_
      change s.passes + 1 + further + 1 = _
      omega

end SearchState

namespace Subproblem

variable {f : Triangular ℝ m n} {p : Subproblem ℝ n}

/-- The undamped solution is the best one among those that vanish from the first diagonal element on
that counts as zero. -/
theorem undamped_minimal (permutation : Function.Injective f.permutation.get) (oldStep : Vec ℝ n)
    {y : Fin n → ℝ} (support : ∀ c : Fin n, f.rank ≤ c → y (f.permutation c) = 0)
    (hne : y ≠ (p.undamped f oldStep).get) :
    length (f.ordered *ᵥ (p.undamped f oldStep).get - p.projected.get) <
      length (f.ordered *ᵥ y - p.projected.get) := by
  have hsolves := f.solveLeading_solves p.projected
  rw [← p.permute_undamped permutation oldStep] at hsolves
  have hcost := (Triangular.models_ordered permutation p.projected).dampedCost_lt (w := 0)
    (Damps.refl f.isUpper_r _) hsolves (fun _ => Triangular.r_ne_zero_of_lt_rank) support hne
  rw [dampedCost, dampedCost, zero_scale, zero_scale, length_zero, zero_pow two_ne_zero, add_zero,
    add_zero] at hcost
  exact lt_of_pow_lt_pow_left₀ 2 (length_nonneg _) hcost

/-- What a search returns, for factors of every rank. Without damping, the step is short enough and
the negative of the best solution with the support of the leading columns. With damping, it is the
negative of what the damped solve gives for that damping, it is short enough unless the passes were
used up, and at full rank it is then on the boundary. -/
theorem search_isUndamped_or_isDamped (f : Triangular ℝ m n)
    (permutation : Function.Injective f.permutation.get) (p : Subproblem ℝ n)
    (scaling : ∀ i, 0 < p.scaling i) (radius : 0 < p.radius) (tuning : p.tuning.error? = none)
    (estimate : ℝ) (oldStep : Vec ℝ n) (buffers : SearchBuffers ℝ n) :
    (p.search f estimate oldStep buffers).IsUndamped f p ∨
      (p.search f estimate oldStep buffers).IsDamped f p := by
  have h : p.IsPosed f := ⟨permutation, scaling, radius, tuning⟩
  have hpasses := Tuning.maxSearchPasses_pos tuning
  rcases h.search_cases estimate oldStep buffers with ⟨inside, damping, passes, step⟩ | ⟨long, run⟩
  · left
    have hstep : -(p.search f estimate oldStep buffers).step.get = (p.undamped f oldStep).get := by
      rw [step, Vec.get_neg, neg_neg]
    refine ⟨damping, passes, ?_, fun c hc => ?_, fun y support hne => ?_⟩
    · rw [step, ← p.norm_scaled]
      exact inside
    · have hzero : p.undamped f oldStep (f.permutation c) = 0 :=
        (congrFun (p.permute_undamped permutation oldStep) c).trans
          ((f.solveLeading_solves p.projected).zero c hc)
      rw [step, Vec.map_apply, hzero, neg_zero]
    · rw [hstep] at hne ⊢
      exact undamped_minimal permutation oldStep support hne
  · right
    rw [run]
    refine (h.started_isWellFormed long estimate buffers).run_isDamped h ?_
    change 0 + (p.tuning.maxSearchPasses - 1) + 1 = _
    omega

/-- A singular triangle with exchanged columns, and an undamped step that is too long. -/
theorem search_isUndamped_or_isDamped_exchanged :
    let f : Triangular ℝ 3 2 :=
      ⟨.ofFn fun i _ => if i.val = 0 then 1 else 0, .ofFn ![1, 0], by decide⟩
    let p : Subproblem ℝ 2 :=
      { scaling := .ofFn ![1, 2], projected := .fill 2 3, radius := 1, tuning := .standard }
    let out := p.search f 5 (.fill 2 7) ⟨.fill 2 0, .fill 2 0, .fill 2 0⟩
    out.IsUndamped f p ∨ out.IsDamped f p := by
  intro f p
  have permutation : Function.Injective f.permutation.get := Vec.injective_ofFn (by decide)
  have scaling (i : Fin 2) : 0 < p.scaling i := by
    fin_cases i <;> simp [p]
  exact search_isUndamped_or_isDamped f permutation p scaling one_pos Tuning.error?_standard 5 _ _

end Subproblem

end LeastSquares
