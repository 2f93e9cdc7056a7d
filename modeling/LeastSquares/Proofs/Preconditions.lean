import LeastSquares.Proofs.Predictions

namespace LeastSquares

open Matrix

variable {σ : Type} {m n : Nat}

def Phase.trust? {α : Type} : Phase α m n → Option (TrustRegion α)
  | .linearize _ progress => progress.trust?
  | .attempt _ trust => some trust

theorem Trial.tenth_le_shrinkFactor {t : Trial ℝ} {current : ℝ} :
    0.1 ≤ t.shrinkFactor current := by
  have hclamped (factor : ℝ) :
      (0.1 : ℝ) ≤ if current ≤ 0.1 * t.residualNorm ∨ factor < 0.1 then 0.1 else factor := by
    split
    · exact le_rfl
    · rename_i hlarge
      exact not_lt.mp fun hsmall => hlarge (Or.inr hsmall)
  exact hclamped _

theorem Trial.shrinkFactor_pos {t : Trial ℝ} {current : ℝ} : 0 < t.shrinkFactor current :=
  lt_of_lt_of_le (by norm_num) tenth_le_shrinkFactor

namespace TrustRegion

section Arith

variable {α : Type} [Arith α] (criteria : Criteria α) (s : TrustRegion α) (t : Trial α)

theorem radius_judge : (s.judge criteria t).1.radius = (s.adapted criteria.tuning t).radius := by
  unfold judge
  dsimp only
  split <;> rfl

theorem damping_judge : (s.judge criteria t).1.damping = (s.adapted criteria.tuning t).damping := by
  unfold judge
  dsimp only
  split <;> rfl

/-- A trial changes radius and damping, and only an acceptance changes more. -/
theorem adapted_eq (tuning : Tuning α) :
    s.adapted tuning t =
      { s with
        radius := (s.adapted tuning t).radius
        damping := (s.adapted tuning t).damping } := by
  unfold adapted
  dsimp only
  split
  · rfl
  · split <;> rfl

theorem termination_judge : (s.judge criteria t).2.termination =
    ((s.judge criteria t).1.convergence criteria t s.residualNorm).or
      ((s.judge criteria t).1.limit t s.residualNorm) :=
  rfl

theorem pointNorm_judge : (s.judge criteria t).1.pointNorm =
    if (s.judge criteria t).2.accepted then t.pointNorm else s.pointNorm := by
  unfold judge
  dsimp only
  split
  · rfl
  · rw [adapted_eq]

/-- No trial changes the gradient. -/
theorem gradientNorm_judge : (s.judge criteria t).1.gradientNorm = s.gradientNorm := by
  unfold judge
  dsimp only
  rw [adapted_eq]
  split <;> rfl

end Arith

variable {criteria : Criteria ℝ} {tuning : Tuning ℝ} {s : TrustRegion ℝ} {t : Trial ℝ}

theorem radius_adapted_nonneg (hs : 0 ≤ s.radius) (ht : 0 ≤ t.stepNorm) :
    0 ≤ (s.adapted tuning t).radius := by
  have hjudged : 0 ≤ s.judgedRadius t := by
    unfold judgedRadius
    split
    · rw [Arith.minNum_real]
      exact le_min hs ht
    · exact hs
  unfold adapted
  dsimp only
  split
  · rw [Arith.minNum_real]
    exact mul_nonneg Trial.shrinkFactor_pos.le
      (le_min hjudged (div_nonneg ht (by norm_num)))
  · split
    · exact div_nonneg ht (by norm_num)
    · exact hjudged

theorem damping_adapted_nonneg (ht : 0 ≤ t.damping) : 0 ≤ (s.adapted tuning t).damping := by
  unfold adapted
  dsimp only
  split
  · exact div_nonneg ht Trial.shrinkFactor_pos.le
  · split
    · exact mul_nonneg ht (by norm_num)
    · exact ht

theorem pointNorm_judge_nonneg (hs : 0 ≤ s.pointNorm) (ht : 0 ≤ t.pointNorm) :
    0 ≤ (s.judge criteria t).1.pointNorm := by
  rw [pointNorm_judge]
  split
  · exact ht
  · exact hs

/-- A trial that closes the trust region ends the run, as the radius is within tolerance then. -/
theorem termination_of_closed (htolerance : 0 ≤ criteria.stepTolerance) (hs : 0 ≤ s.pointNorm)
    (ht : 0 ≤ t.pointNorm) (hclosed : (s.judge criteria t).1.radius ≤ 0) :
    ∃ termination, (s.judge criteria t).2.termination = some termination := by
  have hsmall : (s.judge criteria t).1.radius ≤
      criteria.stepTolerance * (s.judge criteria t).1.pointNorm :=
    hclosed.trans (mul_nonneg htolerance (pointNorm_judge_nonneg hs ht))
  rw [termination_judge, convergence, decide_eq_true hsmall]
  cases reductionWithin criteria.functionTolerance t s.residualNorm with
  | true => exact ⟨_, rfl⟩
  | false => exact ⟨_, rfl⟩

theorem radius_initial_pos {stepBound pointNorm : ℝ} (hbound : 0 < stepBound)
    (hpoint : 0 ≤ pointNorm) (residualNorm : ℝ) :
    0 < (initial stepBound pointNorm residualNorm).radius := by
  unfold initial
  dsimp only
  split
  · exact hbound
  · rename_i hne
    rw [beq_iff_eq] at hne
    exact lt_of_le_of_ne (mul_nonneg hbound.le hpoint) (Ne.symm hne)

end TrustRegion

structure Task.IsValid (t : Task ℝ σ m n) : Prop where
  fixedScaling_pos : ∀ factors, t.fixedScaling = some factors → ∀ j, 0 < factors j
  stepBound_pos : 0 < t.stepBound
  stepTolerance_nonneg : 0 ≤ t.criteria.stepTolerance
  gradientTolerance_nonneg : 0 ≤ t.criteria.gradientTolerance
  tuning : t.criteria.tuning.error? = none

theorem QR.columnNorms_eq_norm {α : Type} [Scalar α] (pivoting : Bool) (a : Mat α m n) (j : Fin n) :
    (factorize pivoting a).columnNorms j = norm (a.col j) :=
  Vec.ofFn_apply _ j

theorem isFactor_real {x : ℝ} : isFactor x = true ↔ 0 < x := by
  simp [isFactor]

theorem isTolerance_real {x : ℝ} : isTolerance x = true ↔ 0 ≤ x := by
  simp [isTolerance]

theorem Settings.isValid_task {s : Settings ℝ} {problem : Problem ℝ σ}
    (valid : s.error? problem.residualCount n = none) : (s.task problem n valid).IsValid := by
  obtain ⟨-, -, stepBound, scaling, tuning⟩ := checks_of_error? valid
  obtain ⟨-, step, gradient⟩ := isTolerance_of_error? valid
  refine ⟨?_, isFactor_real.mp stepBound, isTolerance_real.mp step, isTolerance_real.mp gradient,
    tuning⟩
  intro factors hfactors j
  change s.fixedScaling? n = some factors at hfactors
  unfold fixedScaling? at hfactors
  cases hscaling : s.scaling with
  | adaptive =>
    rw [hscaling] at hfactors
    cases hfactors
  | fixed given =>
    rw [hscaling] at hfactors scaling
    have hfactor := (Scaling.error?_fixed_eq_none_iff.mp scaling).2
    rw [Vec.eq_of_ofArray? hfactors] at hfactor
    have hmem : factors j ∈ factors.toArray := by
      simp [Array.mem_def, Vec.toList, List.mem_finRange]
    exact isFactor_real.mp (hfactor _ hmem)

section Reached

variable [RealNorm]

namespace Run

/-- Whether a trust region with the scaling factors of a run allows a search. -/
structure Prepared (r : Run ℝ σ m n) (trust : TrustRegion ℝ) : Prop where
  radius_pos : 0 < trust.radius
  damping_nonneg : 0 ≤ trust.damping
  scaling_pos : ∀ j, 0 < r.buffers.scaling j

variable {t : Task ℝ σ m n} {r r' : Run ℝ σ m n} {factor : Triangular ℝ m n}
  {trust : TrustRegion ℝ}

theorem initialScaling_pos (valid : t.IsValid) {columnNorms : Vec ℝ n}
    (hnorms : ∀ j, 0 ≤ columnNorms j) (j : Fin n) : 0 < initialScaling t columnNorms j := by
  unfold initialScaling
  split
  · rename_i factors hfactors
    exact valid.fixedScaling_pos factors hfactors j
  · rw [Vec.map_apply]
    split
    · exact one_pos
    · rename_i hne
      rw [beq_iff_eq] at hne
      exact lt_of_le_of_ne (hnorms j) (Ne.symm hne)

theorem raisedScaling_pos {scaling : Vec ℝ n} (h : ∀ j, 0 < scaling j) (columnNorms : Vec ℝ n)
    (j : Fin n) : 0 < raisedScaling t scaling columnNorms j := by
  unfold raisedScaling
  split
  · exact h j
  · rw [Vec.ofFn_apply, Arith.maxNum_real]
    exact lt_max_of_lt_left (h j)

theorem pointNorm_resumed_nonneg {progress : Progress ℝ}
    (h : ∀ s ∈ progress.trust?, 0 ≤ s.pointNorm) (columnNorms : Vec ℝ n) :
    0 ≤ (r.resumed t columnNorms progress).1.pointNorm := by
  cases progress with
  | fresh => exact zero_le_norm _
  | underway trust => exact h trust rfl

/-- Every step keeps the measured size of the point from becoming negative. -/
theorem pointNorm_nonneg_of_advance {phase next : Phase ℝ m n}
    (h : ∀ s ∈ phase.trust?, 0 ≤ s.pointNorm) (hstep : r.advance t phase = .continues r' next) :
    ∀ s ∈ next.trust?, 0 ≤ s.pointNorm := by
  cases phase with
  | linearize matrix progress =>
    obtain ⟨jacobian, told, -, -, hfactorize⟩ := factorize_of_linearize hstep
    rcases told.factorize_cases t jacobian progress with ⟨-, step⟩ | ⟨-, step⟩ <;>
      rw [step] at hfactorize <;> cases hfactorize
    intro s hs
    cases hs
    exact pointNorm_resumed_nonneg h _
  | attempt factor trust =>
    have hjudged (r : Run ℝ σ m n) (damping : ℝ) (residuals : Vec ℝ m) :
        0 ≤ (r.judgement t trust damping residuals).1.pointNorm :=
      TrustRegion.pointNorm_judge_nonneg (h trust rfl) (zero_le_norm _)
    intro s hs
    obtain ⟨residuals, ⟨-, -, rfl⟩ | ⟨-, -, rfl⟩⟩ := judged_of_attempt hstep
    · cases hs
      exact hjudged _ _ _
    · cases hs
      exact hjudged _ _ _

/-- The first factorization opens the trust region, and no later one changes it. -/
theorem factorize_prepared (valid : t.IsValid) {progress : Progress ℝ}
    (h : ∀ s ∈ progress.trust?, r.Prepared s) {jacobian : Mat ℝ m n} {next : Phase ℝ m n}
    (hstep : r.factorize t jacobian progress = .continues r' next) :
    ∀ s ∈ next.trust?, r'.Prepared s := by
  have hnorms (j : Fin n) : 0 ≤ (QR.factorize true jacobian).columnNorms j :=
    (zero_le_norm _).trans_eq (QR.columnNorms_eq_norm ..).symm
  have hresumed : 0 < (r.resumed t (QR.factorize true jacobian).columnNorms progress).1.radius ∧
      0 ≤ (r.resumed t (QR.factorize true jacobian).columnNorms progress).1.damping ∧
      ∀ j, 0 < (r.resumed t (QR.factorize true jacobian).columnNorms progress).2 j := by
    cases progress with
    | fresh =>
      exact ⟨TrustRegion.radius_initial_pos valid.stepBound_pos (zero_le_norm _) _, le_rfl,
        initialScaling_pos valid hnorms⟩
    | underway trust =>
      obtain ⟨radius, damping, scaling⟩ := h trust rfl
      exact ⟨radius, damping, scaling⟩
  obtain ⟨radius, damping, scaling⟩ := hresumed
  rcases r.factorize_cases t jacobian progress with ⟨-, step⟩ | ⟨-, step⟩ <;>
    rw [step] at hstep <;> cases hstep
  intro s hs
  cases hs
  exact ⟨radius, damping, raisedScaling_pos scaling _⟩

/-- What a trial makes of the trust region. -/
theorem judgement_prepared (valid : t.IsValid) (h : r.Prepared trust) (reply : Reply σ (Array ℝ))
    (residuals : Vec ℝ m) :
    let found := r.search t factor trust
    let judged := ((r.proposed found).evaluated reply).judgement t trust found.damping residuals
    0 ≤ judged.1.radius ∧ 0 ≤ judged.1.damping := by
  intro found judged
  obtain ⟨radius, damping, -⟩ := h
  have hdamping : 0 ≤ found.damping :=
    Subproblem.zero_le_damping_search (p := r.subproblem t trust) radius
      (Tuning.searchTolerance_pos valid.tuning) damping
  constructor
  · change 0 ≤ (trust.judge t.criteria _).1.radius
    rw [TrustRegion.radius_judge]
    exact TrustRegion.radius_adapted_nonneg radius.le (zero_le_norm _)
  · change 0 ≤ (trust.judge t.criteria _).1.damping
    rw [TrustRegion.damping_judge]
    exact TrustRegion.damping_adapted_nonneg hdamping

/-- A trial that closes the trust region ends the run. -/
theorem ends_of_closed (valid : t.IsValid) (hpoint : 0 ≤ trust.pointNorm) (residuals : Vec ℝ m) :
    let found := r.search t factor trust
    let reply := (r.proposed found).trialReply t
    let judged := ((r.proposed found).evaluated reply).judgement t trust found.damping residuals
    reply.answer = .done residuals.toArray → judged.1.radius ≤ 0 →
      ∃ termination remains,
        r.attempt t factor trust = .ends ⟨.ok ⟨termination, some judged.1⟩, remains⟩ := by
  intro found reply judged answer hclosed
  obtain ⟨termination, ended⟩ : ∃ termination, judged.2.termination = some termination :=
    TrustRegion.termination_of_closed valid.stepTolerance_nonneg hpoint (zero_le_norm _) hclosed
  exact ⟨termination, attempt_of_ended answer ended⟩

/-- A trial that leaves the run going leaves a trust region that allows the next search. -/
theorem attempt_prepared (valid : t.IsValid) (h : r.Prepared trust) (hpoint : 0 ≤ trust.pointNorm)
    {next : Phase ℝ m n} (hstep : r.attempt t factor trust = .continues r' next) :
    ∀ s ∈ next.trust?, r'.Prepared s := by
  let found := r.search t factor trust
  let reply := (r.proposed found).trialReply t
  let tried := (r.proposed found).evaluated reply
  rcases r.attempt_cases t factor trust with
    ⟨_, -, step⟩ | ⟨_, _, -, step⟩ | ⟨_, -, -, step⟩ | ⟨residuals, answer, step⟩
  · exact nomatch step.symm.trans hstep
  · exact nomatch step.symm.trans hstep
  · exact nomatch step.symm.trans hstep
  let judged := tried.judgement t trust found.damping residuals
  have damping : 0 ≤ judged.1.damping := (judgement_prepared valid h reply residuals).2
  -- The radius can become zero here, but such a trial would have ended the run.
  have radius : 0 < judged.1.radius := by
    by_contra hclosed
    obtain ⟨_, _, ends⟩ := ends_of_closed valid hpoint residuals answer (not_lt.mp hclosed)
    exact nomatch ends.symm.trans hstep
  rw [step] at hstep
  rcases tried.judge_cases t found.factor trust found.damping residuals with
    ⟨-, ⟨_, -, step⟩ | ⟨-, step⟩⟩ | ⟨-, ⟨_, -, step⟩ | ⟨-, step⟩⟩ <;>
    rw [step] at hstep <;> cases hstep
  · intro s hs
    cases hs
    exact ⟨radius, damping, h.scaling_pos⟩
  · intro s hs
    cases hs
    exact ⟨radius, damping, h.scaling_pos⟩

/-- The gradient at a new point is tested before any trial there. -/
theorem gradientNorm_gt_of_factorize {jacobian : Mat ℝ m n} {progress : Progress ℝ}
    (h : r.factorize t jacobian progress = .continues r' (.attempt factor trust)) :
    t.criteria.gradientTolerance < trust.gradientNorm := by
  rcases r.factorize_cases t jacobian progress with ⟨-, step⟩ | ⟨large, step⟩ <;>
    rw [step] at h <;> cases h
  exact not_le.mp large

end Run

namespace Task.Reaches

variable {t : Task ℝ σ m n} {l : Launch ℝ σ m n} {committed : List (Evaluation ℝ m n)}
  {a : Advance ℝ σ m n} {r : Run ℝ σ m n} {phase : Phase ℝ m n}

theorem pointNorm_nonneg (h : t.Reaches l committed a) (ha : a = .continues r phase) :
    ∀ s ∈ phase.trust?, 0 ≤ s.pointNorm := by
  induction h generalizing r phase with
  | start =>
    cases ha
    intro s hs
    cases hs
  | step _ ih => exact Run.pointNorm_nonneg_of_advance (ih rfl) ha

/-- Whenever a run has a trust region, it allows a search. -/
theorem prepared (h : t.Reaches l committed a) (valid : t.IsValid) (ha : a = .continues r phase) :
    ∀ s ∈ phase.trust?, r.Prepared s := by
  induction h generalizing r phase with
  | start =>
    cases ha
    intro s hs
    cases hs
  | @step _ before current h ih =>
    cases current with
    | linearize matrix progress =>
      obtain ⟨_, told, -, htold, hstep⟩ := Run.factorize_of_linearize ha
      refine Run.factorize_prepared valid ?_ hstep
      intro s hs
      obtain ⟨radius, damping, scaling⟩ := ih rfl s hs
      rcases htold with rfl | rfl
      · exact ⟨radius, damping, scaling⟩
      · exact ⟨radius, damping, scaling⟩
    | attempt factor trust =>
      exact Run.attempt_prepared valid (ih rfl trust rfl) (h.pointNorm_nonneg rfl trust rfl) ha

/-- A run with a gradient within tolerance tries no step. -/
theorem gradientNorm_gt (h : t.Reaches l committed a) {factor : Triangular ℝ m n}
    {trust : TrustRegion ℝ} (ha : a = .continues r (.attempt factor trust)) :
    t.criteria.gradientTolerance < trust.gradientNorm := by
  induction h generalizing r factor trust with
  | start => cases ha
  | @step _ before current h ih =>
    cases current with
    | linearize matrix progress =>
      obtain ⟨_, _, -, -, hstep⟩ := Run.factorize_of_linearize ha
      exact Run.gradientNorm_gt_of_factorize hstep
    | attempt factor trust =>
      obtain ⟨residuals, -, -, rfl, -⟩ := Run.rejected_of_attempt ha
      exact (ih rfl).trans_eq (TrustRegion.gradientNorm_judge t.criteria trust _).symm

end Task.Reaches

/-- The searches of a run with valid settings have a positive radius, a damping that is not
negative and positive scaling factors. The residuals do not vanish at any of them, and the gradient
is above its tolerance. A trial never makes the radius negative, and it ends the run if it makes the
radius zero. -/
theorem Settings.searches_are_prepared (s : Settings ℝ) (problem : Problem ℝ σ)
    (valid : s.error? problem.residualCount n = none) (l : Launch ℝ σ problem.residualCount n)
    (committed : List (Evaluation ℝ problem.residualCount n))
    (r : Run ℝ σ problem.residualCount n) :
    let t := s.task problem n valid
    (∀ phase, t.Reaches l committed (.continues r phase) → ∀ trust ∈ phase.trust?,
      0 < trust.radius) ∧
    ∀ factor trust, t.Reaches l committed (.continues r (.attempt factor trust)) →
      let p := r.subproblem t trust
      (0 < p.radius ∧ 0 ≤ trust.damping ∧ ∀ j, 0 < p.scaling j) ∧
      (trust.residualNorm = norm r.residuals ∧ 0 < trust.residualNorm) ∧
      s.gradientTolerance < trust.gradientNorm ∧
      let found := r.search t factor trust
      let reply := (r.proposed found).trialReply t
      ∀ residuals : Vec ℝ problem.residualCount, reply.answer = .done residuals.toArray →
        let judged := ((r.proposed found).evaluated reply).judgement t trust found.damping residuals
        0 ≤ judged.1.radius ∧
        (judged.1.radius = 0 → ∃ termination remains,
          r.attempt t factor trust = .ends ⟨.ok ⟨termination, some judged.1⟩, remains⟩) := by
  intro t
  have hvalid : t.IsValid := isValid_task valid
  constructor
  · intro phase h trust htrust
    exact (h.prepared hvalid rfl trust htrust).radius_pos
  · intro factor trust h p
    have hprepared : r.Prepared trust := h.prepared hvalid rfl trust rfl
    refine ⟨⟨hprepared.radius_pos, hprepared.damping_nonneg, hprepared.scaling_pos⟩,
      ⟨h.residualNorm_eq, h.residualNorm_pos hvalid.gradientTolerance_nonneg rfl⟩,
      h.gradientNorm_gt rfl, ?_⟩
    intro found reply residuals answer judged
    refine ⟨(Run.judgement_prepared hvalid hprepared reply residuals).1, ?_⟩
    intro hclosed
    exact Run.ends_of_closed hvalid (h.pointNorm_nonneg rfl trust rfl) residuals answer hclosed.le

end Reached

/-- The first search in the valley of Rosenbrock from the origin. -/
theorem Settings.rosenbrock_search_is_prepared :
    let s : Settings ℝ := .standard
    let problem : Problem ℝ Unit := Problems.rosenbrock
    let t := s.task problem 2 (error?_standard two_pos le_rfl)
    ∃ l committed r factor trust, t.Reaches l committed (.continues r (.attempt factor trust)) ∧
      let p := r.subproblem t trust
      (0 < p.radius ∧ 0 ≤ trust.damping ∧ ∀ j, 0 < p.scaling j) ∧
      (trust.residualNorm = norm r.residuals ∧ 0 < trust.residualNorm) ∧
      0 < trust.gradientNorm := by
  intro s problem t
  let residuals : Vec ℝ 2 := ⟨#v[10.0 * (0 - 0 * 0), 1 - 0]⟩
  obtain ⟨l, -, hpoint, first⟩ : ∃ l, launch? () #[0, 0] (.zeros 2 2) = some l ∧
      l.point = .ofArray #[0, 0] ∧ (l.reply t).answer = .done residuals.toArray :=
    exists_launch?_of_first (Workspace.coherent_zeros 2 2) rfl
  let jacobian : Mat ℝ 2 2 :=
    ((((Mat.fill 2 2 0).set 0 0 (-20.0 * 0)).set 0 1 10.0).set 1 0 (-1)).set 1 1 0
  have second : ((l.started t residuals).jacobianReply t (.fill 2 2 0)).answer =
      .done ⟨2, 2, jacobian⟩ := by
    unfold Run.jacobianReply Launch.started
    rw [hpoint]
    rfl
  have hgradient : jacobian.toMatrix.col 0 ⬝ᵥ residuals.get ≠ 0 := by
    simp [jacobian, residuals, dotProduct, Mat.toMatrix, Mat.set_apply, Vec.get]
  obtain ⟨r, factor, trust, -, hreached⟩ :=
    Task.Reaches.first_attempt first second rfl rfl hgradient
  obtain ⟨-, hprepared⟩ :=
    searches_are_prepared s problem (error?_standard two_pos le_rfl) l _ r
  obtain ⟨search, residualNorm, gradientNorm, -⟩ := hprepared factor trust hreached
  exact ⟨l, _, r, factor, trust, hreached, search, residualNorm, gradientNorm⟩

end LeastSquares
