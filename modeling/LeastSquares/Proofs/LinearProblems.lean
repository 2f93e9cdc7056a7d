import LeastSquares.Problems.Line
import LeastSquares.Proofs.Callbacks
import LeastSquares.Proofs.DescentDirections
import LeastSquares.Proofs.Dimensions
import LeastSquares.Proofs.Preconditions

namespace LeastSquares

open Matrix

variable {σ : Type} {m n : Nat}

/-- Whether the residuals of a problem are `A x - b` and the Jacobian is `A`. -/
abbrev Problem.IsLinear (p : Problem ℝ σ) (a : Mat ℝ m n) (b : Vec ℝ m) : Prop :=
  p.Writes (fun x values => values.get = a.toMatrix *ᵥ x.get - b.get) fun _ written => written = a

namespace Trial

variable {t : Trial ℝ} {current : ℝ}

theorem predictedReduction_of_still (hstep : t.stepNorm = 0) (hlinear : t.linearNorm = 0) :
    t.predictedReduction current = 0 := by
  simp [predictedReduction, linearShare, dampingShare, hstep, hlinear]

end Trial

namespace TrustRegion

variable {criteria : Criteria ℝ} {s : TrustRegion ℝ} {t : Trial ℝ}

/-- A trial that does not move closes the trust region. -/
theorem radius_judge_of_still (hshrink : 0 ≤ criteria.tuning.shrinkThreshold)
    (hstep : t.stepNorm = 0) (hlinear : t.linearNorm = 0) :
    (s.judge criteria t).1.radius ≤ 0 := by
  have hradius : (s.adapted criteria.tuning t).radius ≤ 0 := by
    have hratio : t.gainRatio s.residualNorm = 0 := by
      rw [Trial.gainRatio, Trial.predictedReduction_of_still hstep hlinear, if_pos (by simp)]
    unfold adapted
    dsimp only
    rw [hratio, if_pos hshrink]
    have hfactor : 0 ≤ t.shrinkFactor s.residualNorm :=
      le_trans (by norm_num) Trial.tenth_le_shrinkFactor
    refine mul_nonpos_of_nonneg_of_nonpos hfactor ?_
    rw [Arith.minNum_real, hstep, zero_div]
    exact min_le_right _ _
  unfold judge
  dsimp only
  split
  · exact hradius
  · exact hradius

/-- A trial that does not move ends the run. -/
theorem termination_of_still (hshrink : 0 ≤ criteria.tuning.shrinkThreshold)
    (htolerance : 0 ≤ criteria.stepTolerance) (hs : 0 ≤ s.pointNorm) (ht : 0 ≤ t.pointNorm)
    (hstep : t.stepNorm = 0) (hlinear : t.linearNorm = 0) :
    ∃ termination, (s.judge criteria t).2.termination = some termination :=
  termination_of_closed htolerance hs ht (radius_judge_of_still hshrink hstep hlinear)

/-- A trial that reduces the residuals exactly as predicted is accepted, and the radius becomes
twice the length of its step. -/
theorem judge_of_exact (hshrink : criteria.tuning.shrinkThreshold < 1)
    (haccept : criteria.tuning.acceptanceThreshold ≤ 1) (hgrow : criteria.tuning.growThreshold ≤ 1)
    (hratio : t.gainRatio s.residualNorm = 1) :
    (s.judge criteria t).2.accepted = true ∧ (s.judge criteria t).1.radius = 2 * t.stepNorm := by
  have haccepted : (s.judge criteria t).2.accepted = true := by
    apply decide_eq_true
    rw [hratio]
    exact haccept
  have hradius : (s.adapted criteria.tuning t).radius = 2 * t.stepNorm := by
    unfold adapted
    dsimp only
    rw [hratio, if_neg (not_le.mpr hshrink), if_pos (Or.inr hgrow)]
    norm_num
    ring
  refine ⟨haccepted, ?_⟩
  unfold judge at haccepted ⊢
  dsimp only at haccepted ⊢
  rw [haccepted]
  exact hradius

end TrustRegion

namespace Run

variable {t : Task ℝ σ m n} {r : Run ℝ σ m n} {factor : Triangular ℝ m n} {trust : TrustRegion ℝ}

/-- A step of zero has no length and changes nothing in the linear model. -/
theorem trial_of_still (still : (r.search t factor trust).step.get = 0) (reply : Reply σ (Array ℝ))
    (residualNorm : ℝ) :
    let found := r.search t factor trust
    let trial := ((r.proposed found).evaluated reply).trial t found.damping residualNorm
    trial.stepNorm = 0 ∧ trial.linearNorm = 0 := by
  intro found trial
  constructor
  · change scaledNorm r.buffers.scaling found.step = 0
    rw [scaledNorm_eq_length, still]
    convert length_zero
    funext i
    exact mul_zero _
  · change norm (found.factor.mulPermuted found.step) = 0
    rw [norm_eq_length, Triangular.mulPermuted_get, still]
    convert length_zero
    exact mulVec_zero _

end Run

/-- Every trial that does not move ends its run. -/
theorem Task.Reaches.attempt_ends {t : Task ℝ σ m n} {l : Launch ℝ σ m n}
    {committed : List (Evaluation ℝ m n)} {r : Run ℝ σ m n} {factor : Triangular ℝ m n}
    {trust : TrustRegion ℝ} (h : t.Reaches l committed (.continues r (.attempt factor trust)))
    (hshrink : 0 ≤ t.criteria.tuning.shrinkThreshold) (htolerance : 0 ≤ t.criteria.stepTolerance)
    (still : (r.search t factor trust).step.get = 0) :
    ∃ finished, r.attempt t factor trust = .ends finished := by
  rcases r.attempt_cases t factor trust with
    ⟨_, -, step⟩ | ⟨_, _, -, step⟩ | ⟨_, -, -, step⟩ | ⟨residuals, answer, -⟩
  · exact ⟨_, step⟩
  · exact ⟨_, step⟩
  · exact ⟨_, step⟩
  · let found := r.search t factor trust
    let tried := (r.proposed found).evaluated ((r.proposed found).trialReply t)
    obtain ⟨hstep, hlinear⟩ := Run.trial_of_still still
      ((r.proposed found).trialReply t) (norm residuals)
    obtain ⟨termination, hends⟩ : ∃ termination,
        (tried.judgement t trust found.damping residuals).2.termination = some termination :=
      TrustRegion.termination_of_still hshrink htolerance (h.pointNorm_nonneg rfl trust rfl)
        (zero_le_norm _) hstep hlinear
    obtain ⟨_, step⟩ := Run.attempt_of_ended answer hends
    exact ⟨_, step⟩

/-- A trial whose residuals are those of the linear model reduces them as predicted. -/
theorem Trial.actualReduction_of_linear {t : Trial ℝ} {b u : Fin m → ℝ} (hb : 0 < length b)
    (hresidual : t.residualNorm = length (b + u))
    (hpredicted : t.predictedReduction (length b) = 1 - length (b + u) ^ 2 / length b ^ 2) :
    t.actualReduction (length b) = t.predictedReduction (length b) := by
  have hpos : 0 < length b ^ 2 := pow_pos hb 2
  have hshorter : length (b + u) ≤ length b := by
    have hnonneg : 0 ≤ t.predictedReduction (length b) := zero_le_predictedReduction
    rw [hpredicted, sub_nonneg, div_le_one hpos] at hnonneg
    exact le_of_sq_le_sq hnonneg hb.le
  have htenth : 0.1 * t.residualNorm < length b := by
    rw [hresidual]
    have := length_nonneg (b + u)
    norm_num
    linarith
  rw [actualReduction, if_pos htenth, hpredicted, hresidual, ← pow_two, div_pow]

/-- On a linear problem every trial that moves reduces the residuals exactly as predicted, so it has
the gain ratio one, is accepted and makes the radius twice the length of its step. A trial that does
not move ends the run. -/
theorem Settings.linear_trials_are_exact (s : Settings ℝ) (problem : Problem ℝ σ)
    (valid : s.error? problem.residualCount n = none) (grow : s.tuning.growThreshold ≤ 1)
    (a : Mat ℝ problem.residualCount n) (b : Vec ℝ problem.residualCount)
    (linear : problem.IsLinear a b) (l : Launch ℝ σ problem.residualCount n)
    (committed : List (Evaluation ℝ problem.residualCount n))
    (r : Run ℝ σ problem.residualCount n) (factor : Triangular ℝ problem.residualCount n)
    (trust : TrustRegion ℝ) :
    let t := s.task problem n valid
    t.Reaches l committed (.continues r (.attempt factor trust)) →
    let found := r.search t factor trust
    let reply := (r.proposed found).trialReply t
    let tried := (r.proposed found).evaluated reply
    (found.step.get = 0 → ∃ finished, r.attempt t factor trust = .ends finished) ∧
    (found.step.get ≠ 0 → ∀ residuals : Vec ℝ problem.residualCount,
      reply.answer = .done residuals.toArray →
      let trial := tried.trial t found.damping (norm residuals)
      let judged := tried.judgement t trust found.damping residuals
      trial.actualReduction trust.residualNorm = trial.predictedReduction trust.residualNorm ∧
      trial.gainRatio trust.residualNorm = 1 ∧ judged.2.accepted = true ∧
      judged.1.radius = 2 * scaledNorm tried.buffers.scaling found.step) := by
  intro t h found reply tried
  obtain ⟨haccept, hshrink, hgrow⟩ := Tuning.thresholds_of_error? (tuning_of_error? valid)
  obtain ⟨-, hstepTolerance, -⟩ := isTolerance_of_error? valid
  have htolerance : 0 ≤ s.stepTolerance := by
    simpa [isTolerance] using hstepTolerance
  refine ⟨h.attempt_ends (haccept.trans hshrink) htolerance, ?_⟩
  intro moves residuals answer trial judged
  have hcurrent : trust.residualNorm = length r.residuals.get :=
    h.residualNorm_eq.trans (norm_eq_length r.residuals)
  have hpos : 0 < length r.residuals.get :=
    hcurrent ▸ h.residualNorm_pos (zero_le_gradientTolerance valid) rfl
  obtain ⟨jacobian, hlinearized⟩ := h.linearized rfl
  have writes : t.problem.IsLinear a b := linear
  obtain ⟨-, rfl⟩ := h.derivatives_of_lastJacobian? writes hlinearized.1
  set u := jacobian.toMatrix *ᵥ found.step.get with hu
  have hresiduals : residuals.get = r.residuals.get + u := by
    have hnext : residuals.get = jacobian.toMatrix *ᵥ tried.buffers.trialPoint.get - b.get :=
      writes.residuals _ _ _ _ answer
    have hpoint : tried.buffers.trialPoint.get = r.point.get + found.step.get := by
      funext i
      exact Vec.ofFn_apply _ i
    rw [hnext, hpoint, mulVec_add, h.values_of_current writes, sub_add_eq_add_sub]
  have hpredicted : trial.predictedReduction (length r.residuals.get) =
      1 - length (r.residuals.get + u) ^ 2 / length r.residuals.get ^ 2 :=
    (hlinearized.predictions hpos reply (norm residuals)).1
  have hexact : trial.actualReduction (length r.residuals.get) =
      trial.predictedReduction (length r.residuals.get) := by
    refine Trial.actualReduction_of_linear hpos ?_ hpredicted
    rw [← hresiduals]
    exact norm_eq_length residuals
  have hmoves : trial.predictedReduction (length r.residuals.get) ≠ 0 := by
    intro hzero
    exact moves (hlinearized.step_eq_zero hpos reply (norm residuals) hzero)
  have hratio : trial.gainRatio trust.residualNorm = 1 := by
    rw [hcurrent, Trial.gainRatio, if_neg (by simpa using hmoves), hexact, div_self hmoves]
  have hjudged : judged.2.accepted = true ∧ judged.1.radius = 2 * trial.stepNorm :=
    TrustRegion.judge_of_exact (hgrow.trans_le grow) (hshrink.trans (hgrow.le.trans grow)) grow
      hratio
  exact ⟨hcurrent ▸ hexact, hratio, hjudged⟩

theorem Problems.slopeFit_residuals (s : Samples ℝ) (x : Vec ℝ 1) (buffer : Array ℝ) :
    ((slopeFit s).residuals () x.toArray buffer).answer =
      .done (Array.zipWith (fun u v => u * x 0 - v) s.x s.y) := by
  have hslope : component x.toArray 0 = .ok (x 0) :=
    component_eq_ok (Nat.lt_of_lt_of_eq one_pos (Vec.size_toArray x).symm)
  change (Reply.ofExcept () ((component x.toArray 0).bind fun slope => .ok
    (Array.zipWith (fun u v => u * slope - v) s.x s.y))).answer = _
  rw [hslope]
  rfl

/-- Fitting a line through the origin is a linear problem. -/
theorem Problems.slopeFit_isLinear (s : Samples ℝ) :
    (slopeFit s).IsLinear (n := 1) (.ofFn fun i _ => Vec.ofArray s.x i)
      ⟨⟨s.y, s.size_eq.symm⟩⟩ where
  residuals := by
    intro _ x buffer written answer
    have hvalues : Array.zipWith (fun u v => u * x 0 - v) s.x s.y = written.toArray :=
      Answer.done.inj ((slopeFit_residuals s x buffer).symm.trans answer)
    funext i
    have hx : i.val < s.x.size := i.isLt
    have hy : i.val < s.y.size := s.size_eq ▸ hx
    have hsize : i.val < written.toArray.size := by simp
    have hwritten : written i = s.x[i.val] * x 0 - s.y[i.val] := by
      change written.toArray[i.val] = _
      simp only [← hvalues, Array.getElem_zipWith]
    rw [hwritten]
    simp [mulVec, dotProduct, Vec.get, Vec.ofArray]
  jacobian := by
    intro _ x written answer
    have hcolumn : Vec.ofArray? s.x.size s.x = some (Vec.ofArray s.x) := by
      simp [Vec.ofArray?, Vec.ofArray]
    change (Reply.ofExcept ()
      (Jacobian.setColumn ⟨s.x.size, 1, .fill s.x.size 1 0⟩ 0 s.x)).answer = _ at answer
    rw [Jacobian.setColumn, dif_pos one_pos, hcolumn] at answer
    cases answer
    ext i j
    obtain rfl := Subsingleton.elim j 0
    rw [Mat.setCol_apply, Mat.ofFn_apply]
    rfl

/-- The first trial of a fit of one sample that the start does not meet. -/
theorem Settings.slopeFit_trial_is_exact :
    let s : Settings ℝ := .standard
    let problem : Problem ℝ Unit := Problems.slopeFit ⟨#[2], #[-1], rfl⟩
    let t := s.task problem 1 (error?_standard one_pos le_rfl)
    ∃ l committed r factor trust, t.Reaches l committed (.continues r (.attempt factor trust)) ∧
      let found := r.search t factor trust
      let reply := (r.proposed found).trialReply t
      let tried := (r.proposed found).evaluated reply
      found.step.get ≠ 0 ∧ ∃ residuals : Vec ℝ problem.residualCount,
        reply.answer = .done residuals.toArray ∧
        let trial := tried.trial t found.damping (norm residuals)
        let judged := tried.judgement t trust found.damping residuals
        trial.gainRatio trust.residualNorm = 1 ∧ judged.2.accepted = true ∧
        judged.1.radius = 2 * scaledNorm tried.buffers.scaling found.step := by
  intro s problem t
  let residuals : Vec ℝ 1 := ⟨#v[2 * 0 - (-1)]⟩
  have hvalues : Array.zipWith (fun x y : ℝ => x * 0 - y) #[2] #[-1] = residuals.toArray := by
    simp [residuals, Vec.toArray]
  obtain ⟨l, -, hpoint, first⟩ : ∃ l, launch? () #[0] (.zeros 1 1) = some l ∧
      l.point = .ofArray #[0] ∧ (l.reply t).answer = .done residuals.toArray :=
    exists_launch?_of_first (Workspace.coherent_zeros 1 1) (congrArg Answer.done hvalues)
  let jacobian : Mat ℝ 1 1 := (Mat.fill 1 1 0).setCol 0 ⟨#v[2]⟩
  have hgradient : jacobian.toMatrix.col 0 ⬝ᵥ residuals.get ≠ 0 := by
    simp [jacobian, residuals, dotProduct, Vec.get, Mat.setCol_apply]
  have second : ((l.started t residuals).jacobianReply t (.fill 1 1 0)).answer =
      .done ⟨1, 1, jacobian⟩ := rfl
  obtain ⟨r, factor, trust, hfactorize, hreached⟩ :=
    Task.Reaches.first_attempt first second rfl rfl hgradient
  obtain ⟨written, hslope⟩ := hreached.hasSlope (t := t) le_rfl
  have hfactor := Run.factor_of_factorize hfactorize
  have hjacobian : jacobian = .fill 1 1 2 := by
    ext i j
    fin_cases i
    fin_cases j
    rfl
  have regular (j : Fin 1) : ¬|((QR.factorize true (.fill 1 1 (2 : ℝ))).triangular le_rfl).r j j| ≤
      Arith.epsilon := by
    rw [abs_r_single, abs_two, not_le]
    exact Arith.epsilon_lt_one.trans one_lt_two
  have hmoves : (r.search t factor trust).step.get ≠ 0 := by
    refine hslope.step_ne_zero ?_
    rw [hfactor, hjacobian]
    intro j hj
    exact absurd hj (regular j)
  let tried := (r.proposed (r.search t factor trust)).buffers.trialPoint
  have answer : ((r.proposed (r.search t factor trust)).trialReply t).answer =
      .done (⟨#v[2 * tried 0 - (-1)]⟩ : Vec ℝ 1).toArray := by
    refine (Problems.slopeFit_residuals ⟨#[2], #[-1], rfl⟩ tried r.trialResiduals).trans ?_
    simp [Vec.toArray]
  have hexact := linear_trials_are_exact s problem (error?_standard one_pos le_rfl)
    (by norm_num [s, standard, Tuning.standard]) _ _ (Problems.slopeFit_isLinear _) l _ r factor
    trust hreached
  refine ⟨l, _, r, factor, trust, hreached, hmoves, _, answer, ?_⟩
  exact (hexact.2 hmoves _ answer).2

end LeastSquares
