import LeastSquares.Proofs.StoppingTests

namespace LeastSquares

variable {σ : Type} {m n : Nat}

structure Trial.Nonneg (t : Trial ℝ) : Prop where
  residualNorm : 0 ≤ t.residualNorm
  stepNorm : 0 ≤ t.stepNorm
  linearNorm : 0 ≤ t.linearNorm
  damping : 0 ≤ t.damping
  pointNorm : 0 ≤ t.pointNorm

namespace Trial

variable {t : Trial ℝ} {current : ℝ}

theorem shrinkFactor_le_half : t.shrinkFactor current ≤ 0.5 := by
  have hslope : t.directionalDerivative current ≤ 0 := directionalDerivative_nonpos
  have hclamped {factor : ℝ} (hfactor : factor ≤ 0.5) :
      (if current ≤ 0.1 * t.residualNorm ∨ factor < 0.1 then 0.1 else factor) ≤ (0.5 : ℝ) := by
    split
    · norm_num
    · exact hfactor
  apply hclamped
  split
  · exact le_rfl
  · rename_i hgrown
    rw [div_le_iff_of_neg (by linarith)]
    linarith

end Trial

structure TrustRegion.ShrinksTo (s : TrustRegion ℝ) (t : Trial ℝ) (s' : TrustRegion ℝ) :
    Prop where
  residualNorm_eq : s'.residualNorm = s.residualNorm
  pointNorm_eq : s'.pointNorm = s.pointNorm
  gradientNorm_eq : s'.gradientNorm = s.gradientNorm
  iteration_eq : s'.iteration = s.iteration
  le_radius : 0.1 * min s.radius t.stepNorm ≤ s'.radius
  radius_le : s'.radius ≤ s.radius / 2
  le_damping : 2 * t.damping ≤ s'.damping
  damping_le : s'.damping ≤ 10 * t.damping

/-- Trials that are rejected one after the other and leave the run going. -/
inductive TrustRegion.Rejects {α : Type} [Arith α] (criteria : Criteria α) :
    TrustRegion α → List (Trial α) → TrustRegion α → Prop
  | nil {s : TrustRegion α} : Rejects criteria s [] s
  | cons {s s' s'' : TrustRegion α} {t : Trial α} {trials : List (Trial α)}
    (rejected : s.observe criteria (.trial t) = (s', ⟨false, none⟩))
    (rest : Rejects criteria s' trials s'') : Rejects criteria s (t :: trials) s''

namespace TrustRegion

variable {criteria : Criteria ℝ} {s s' : TrustRegion ℝ} {t : Trial ℝ} {trials : List (Trial ℝ)}

/-- A rejected trial shrinks the radius, as no trial is rejected at a gain ratio above the
threshold for that. -/
theorem adapted_of_rejected (tuning : criteria.tuning.error? = none)
    (h : (s.judge criteria t).2.accepted = false) :
    s.adapted criteria.tuning t =
      { s with
        radius := t.shrinkFactor s.residualNorm * min (s.judgedRadius t) (t.stepNorm / 0.1)
        damping := t.damping / t.shrinkFactor s.residualNorm } := by
  obtain ⟨-, order, -⟩ := Tuning.thresholds_of_error? tuning
  have hratio : t.gainRatio s.residualNorm < criteria.tuning.acceptanceThreshold :=
    not_le.mp (of_decide_eq_false h)
  unfold adapted
  dsimp only
  rw [if_pos (hratio.le.trans order), Arith.minNum_real]

/-- The first iteration judges with the length of the step if that is smaller than the radius. -/
theorem min_le_judgedRadius : min s.radius t.stepNorm ≤ s.judgedRadius t := by
  unfold judgedRadius
  split
  · exact (Arith.minNum_real _ _).ge
  · exact min_le_left _ _

theorem judgedRadius_le : s.judgedRadius t ≤ s.radius := by
  unfold judgedRadius
  split
  · rw [Arith.minNum_real]
    exact min_le_left _ _
  · exact le_rfl

theorem shrinksTo_of_rejected (tuning : criteria.tuning.error? = none) (hs : 0 ≤ s.radius)
    (ht : t.Nonneg) (h : (s.judge criteria t).2.accepted = false) :
    s.ShrinksTo t (s.judge criteria t).1 := by
  have hkept {β : Type} {x y : β} :
      (if (s.judge criteria t).2.accepted = true then x else y) = y := by
    rw [h]
    exact if_neg Bool.false_ne_true
  have hlow : 0.1 ≤ t.shrinkFactor s.residualNorm := Trial.tenth_le_shrinkFactor
  have hhigh : t.shrinkFactor s.residualNorm ≤ 0.5 := Trial.shrinkFactor_le_half
  have hpos : 0 < t.shrinkFactor s.residualNorm := Trial.shrinkFactor_pos
  have hstep : t.stepNorm ≤ t.stepNorm / 0.1 :=
    le_div_self ht.stepNorm (by norm_num) (by norm_num)
  have hreach : min s.radius t.stepNorm ≤ min (s.judgedRadius t) (t.stepNorm / 0.1) :=
    le_min min_le_judgedRadius ((min_le_right _ _).trans hstep)
  have hlimit : min (s.judgedRadius t) (t.stepNorm / 0.1) ≤ s.radius :=
    (min_le_left _ _).trans judgedRadius_le
  have hmin : 0 ≤ min s.radius t.stepNorm := le_min hs ht.stepNorm
  have radius := radius_judge criteria s t
  have damping := damping_judge criteria s t
  rw [adapted_of_rejected tuning h] at radius damping
  constructor
  · exact (residualNorm_judge criteria s t).trans hkept
  · exact (pointNorm_judge criteria s t).trans hkept
  · exact gradientNorm_judge criteria s t
  · exact (iteration_judge criteria s t).trans hkept
  · rw [radius]
    exact mul_le_mul hlow hreach hmin hpos.le
  · rw [radius]
    calc t.shrinkFactor s.residualNorm * min (s.judgedRadius t) (t.stepNorm / 0.1)
        ≤ 0.5 * s.radius := mul_le_mul hhigh hlimit (hmin.trans hreach) (by norm_num)
      _ = s.radius / 2 := by ring
  · rw [damping, le_div_iff₀ hpos]
    calc 2 * t.damping * t.shrinkFactor s.residualNorm
        ≤ 2 * t.damping * 0.5 :=
          mul_le_mul_of_nonneg_left hhigh (mul_nonneg two_pos.le ht.damping)
      _ = t.damping := by ring
  · rw [damping, div_le_iff₀ hpos]
    calc t.damping = 10 * t.damping * 0.1 := by ring
      _ ≤ 10 * t.damping * t.shrinkFactor s.residualNorm :=
        mul_le_mul_of_nonneg_left hlow (mul_nonneg (by norm_num) ht.damping)

theorem ShrinksTo.radius_nonneg (h : s.ShrinksTo t s') (hs : 0 ≤ s.radius) (ht : t.Nonneg) :
    0 ≤ s'.radius :=
  (mul_nonneg (by norm_num) (le_min hs ht.stepNorm)).trans h.le_radius

/-- After a trial that leaves the run going the radius is larger than what the step tests allow. -/
theorem radius_gt_of_termination (h : (s.judge criteria t).2.termination = none) :
    max criteria.stepTolerance Arith.epsilon * (s.judge criteria t).1.pointNorm <
      (s.judge criteria t).1.radius := by
  have hmeets : ∀ test, ¬(⟨s, .trial t⟩ : Turn ℝ).Meets criteria test :=
    Turn.termination_eq_none_iff.mp h
  rcases max_choice criteria.stepTolerance Arith.epsilon with hmax | hmax <;> rw [hmax]
  · exact not_le.mp (hmeets .step)
  · exact not_le.mp (hmeets .stepPrecision)

/-- Trials that are rejected one after the other halve the radius every time, and it stays above the
precision of the point. -/
theorem Rejects.precision_lt (h : s.Rejects criteria trials s')
    (tuning : criteria.tuning.error? = none) (hs : 0 ≤ s.radius) (ht : ∀ t ∈ trials, t.Nonneg)
    (nonempty : trials ≠ []) :
    max criteria.stepTolerance Arith.epsilon * s.pointNorm * 2 ^ trials.length < s.radius := by
  induction h with
  | nil => exact absurd rfl nonempty
  | @cons s next s' t trials rejected rest ih =>
    obtain ⟨htrial, htrials⟩ := List.forall_mem_cons.mp ht
    obtain rfl : (s.judge criteria t).1 = next := congrArg Prod.fst rejected
    have hshrinks := shrinksTo_of_rejected tuning hs htrial (congrArg (·.2.accepted) rejected)
    have hhalf := hshrinks.radius_le
    rw [List.length_cons, pow_succ]
    rcases eq_or_ne trials [] with rfl | hmore
    · have hlast := radius_gt_of_termination (congrArg (·.2.termination) rejected)
      rw [hshrinks.pointNorm_eq] at hlast
      rw [List.length_nil]
      linarith
    · have hrest := ih (hshrinks.radius_nonneg hs htrial) htrials hmore
      rw [hshrinks.pointNorm_eq] at hrest
      linarith

/-- The number of trials that can be rejected one after the other depends on the radius and the size
of the point only. -/
theorem exists_rejects_limit (tuning : criteria.tuning.error? = none) (hpoint : 0 < s.pointNorm) :
    ∃ limit, ∀ trials s', 0 ≤ s.radius → (∀ t ∈ trials, t.Nonneg) →
      s.Rejects criteria trials s' → trials.length ≤ limit := by
  have hprecision : 0 < max criteria.stepTolerance Arith.epsilon * s.pointNorm :=
    mul_pos (lt_max_of_lt_right Arith.epsilon_pos) hpoint
  obtain ⟨limit, hlimit⟩ := pow_unbounded_of_one_lt
    (s.radius / (max criteria.stepTolerance Arith.epsilon * s.pointNorm)) one_lt_two
  rw [div_lt_iff₀' hprecision] at hlimit
  refine ⟨limit, ?_⟩
  intro trials s' hs ht h
  rcases eq_or_ne trials [] with rfl | nonempty
  · exact Nat.zero_le limit
  · have hpow : (2 : ℝ) ^ trials.length < 2 ^ limit :=
      lt_of_mul_lt_mul_left ((h.precision_lt tuning hs ht nonempty).trans hlimit) hprecision.le
    exact ((pow_lt_pow_iff_right₀ one_lt_two).mp hpow).le

end TrustRegion

structure Trying (α σ : Type) (m n : Nat) where
  run : Run α σ m n
  factor : Triangular α m n
  trust : TrustRegion α

namespace Trying

section Scalar

variable {α : Type} [Scalar α]

def advance (a : Trying α σ m n) : Advance α σ m n :=
  .continues a.run (.attempt a.factor a.trust)

/-- The next attempt from the same point, if the trial is rejected and the run goes on. -/
def retried? (t : Task α σ m n) (a : Trying α σ m n) : Option (Trying α σ m n) :=
  match a.run.attempt t a.factor a.trust with
  | .continues run (.attempt factor trust) => some ⟨run, factor, trust⟩
  | _ => none

def after? (t : Task α σ m n) : Nat → Trying α σ m n → Option (Trying α σ m n)
  | 0, a => some a
  | k + 1, a => (a.retried? t).bind (after? t k)

variable {t : Task α σ m n} {a a' : Trying α σ m n}

theorem advance_of_retried? (h : a.retried? t = some a') :
    a.run.advance t (.attempt a.factor a.trust) = a'.advance := by
  unfold retried? at h
  split at h
  · rename_i step
    cases h
    exact step
  · cases h

/-- An attempt that is followed by another one is rejected and leaves the run going. -/
theorem rejected_of_retried? (h : a.retried? t = some a') :
    let found := a.run.search t a.factor a.trust
    let tried := (a.run.proposed found).evaluated ((a.run.proposed found).trialReply t)
    ∃ residuals, tried.judgement t a.trust found.damping residuals = (a'.trust, ⟨false, none⟩) := by
  intro found tried
  obtain ⟨run', factor', trust'⟩ := a'
  have hstep : a.run.attempt t a.factor a.trust = .continues run' (.attempt factor' trust') :=
    advance_of_retried? h
  rcases a.run.attempt_cases t a.factor a.trust with
    ⟨_, -, step⟩ | ⟨_, _, -, step⟩ | ⟨_, -, -, step⟩ | ⟨residuals, -, step⟩ <;> rw [step] at hstep
  · cases hstep
  · cases hstep
  · cases hstep
  rcases tried.judge_cases t found.factor a.trust found.damping residuals with
    ⟨-, ⟨_, -, step⟩ | ⟨-, step⟩⟩ | ⟨rejected, ⟨_, -, step⟩ | ⟨goes, step⟩⟩ <;>
    rw [step] at hstep <;> cases hstep
  exact ⟨residuals, Prod.ext rfl (by rw [← rejected, ← goes])⟩

end Scalar

variable [RealNorm] {t : Task ℝ σ m n} {l : Launch ℝ σ m n} {a a' : Trying ℝ σ m n}

/-- What the trust region is told of an attempt that is followed by another one. -/
theorem judged_of_retried? (valid : t.IsValid) (prepared : a.run.Prepared a.trust)
    (h : a.retried? t = some a') :
    ∃ trial : Trial ℝ, trial.Nonneg ∧
      a.trust.observe t.criteria (.trial trial) = (a'.trust, ⟨false, none⟩) := by
  obtain ⟨residuals, rejected⟩ := rejected_of_retried? h
  refine ⟨_, ⟨zero_le_norm _, zero_le_norm _, zero_le_norm _, ?_, zero_le_norm _⟩, rejected⟩
  exact Subproblem.zero_le_damping_search (p := a.run.subproblem t a.trust) prepared.radius_pos
    (Tuning.searchTolerance_pos valid.tuning) prepared.damping_nonneg

/-- The rejected attempts of a run are rejections of its trust region. -/
theorem rejects_of_after? (valid : t.IsValid) {committed : List (Evaluation ℝ m n)} {k : Nat}
    (h : t.Reaches l committed a.advance) (hafter : a.after? t k = some a') :
    ∃ trials, trials.length = k ∧ (∀ t ∈ trials, t.Nonneg) ∧
      a.trust.Rejects t.criteria trials a'.trust := by
  induction k generalizing a committed with
  | zero =>
    cases hafter
    exact ⟨[], rfl, by simp, .nil⟩
  | succ k ih =>
    obtain ⟨next, hnext, hafter⟩ := Option.bind_eq_some_iff.mp hafter
    obtain ⟨trial, nonneg, rejected⟩ :=
      judged_of_retried? valid (h.prepared valid rfl a.trust rfl) hnext
    have hreached : t.Reaches l _ next.advance := advance_of_retried? hnext ▸ h.step
    obtain ⟨trials, rfl, htrials, hrejects⟩ := ih hreached hafter
    exact ⟨trial :: trials, rfl, List.forall_mem_cons.mpr ⟨nonneg, htrials⟩,
      .cons rejected hrejects⟩

end Trying

/-- Rejections shrink the trust region geometrically. A rejected trial changes nothing but radius
and damping. The radius at least halves, but a tenth of it remains if the step was as long, and the
damping of the trial grows two- to tenfold. Doubled with every rejection, the precision of the point
still stays below the radius at the beginning. So at a point of positive size a run rejects a
limited number of trials one after the other, and the limit does not depend on how many evaluations
it may make. -/
theorem Criteria.rejections_shrink_trust_region [RealNorm] (criteria : Criteria ℝ)
    (tuning : criteria.tuning.error? = none) :
    (∀ (s : TrustRegion ℝ) (t : Trial ℝ), 0 < s.radius → 0 < s.residualNorm → t.Nonneg →
      (s.observe criteria (.trial t)).2.accepted = false →
      s.ShrinksTo t (s.observe criteria (.trial t)).1) ∧
    (∀ (s : TrustRegion ℝ) trials s', 0 < s.radius → 0 < s.residualNorm →
      (∀ t ∈ trials, t.Nonneg) → trials ≠ [] → s.Rejects criteria trials s' →
      max criteria.stepTolerance Arith.epsilon * s.pointNorm * 2 ^ trials.length < s.radius) ∧
    ∀ trust : TrustRegion ℝ, 0 < trust.pointNorm → ∃ limit,
      (∀ trials s', 0 < trust.radius → 0 < trust.residualNorm → (∀ t ∈ trials, t.Nonneg) →
        trust.Rejects criteria trials s' → trials.length ≤ limit) ∧
      ∀ (s : Settings ℝ) (problem : Problem ℝ σ)
        (valid : s.error? problem.residualCount n = none), s.criteria = criteria →
        let t := s.task problem n valid
        ∀ l committed (a : Trying ℝ σ problem.residualCount n), a.trust = trust →
          t.Reaches l committed a.advance →
          (∀ k a', a.after? t k = some a' → ∃ trials, trials.length = k ∧
            (∀ t ∈ trials, t.Nonneg) ∧ trust.Rejects criteria trials a'.trust) ∧
          a.after? t (limit + 1) = none := by
  refine ⟨?_, ?_, ?_⟩
  · intro s t hs _ ht
    exact TrustRegion.shrinksTo_of_rejected tuning hs.le ht
  · intro s trials s' hs _ ht nonempty h
    exact h.precision_lt tuning hs.le ht nonempty
  · intro trust hpoint
    obtain ⟨limit, hlimit⟩ := TrustRegion.exists_rejects_limit tuning hpoint
    refine ⟨limit, fun trials s' hs _ => hlimit trials s' hs.le, ?_⟩
    rintro s problem valid rfl t l committed a rfl hreached
    have hvalid : t.IsValid := Settings.isValid_task valid
    have hrejects {k : Nat} {a' : Trying ℝ σ problem.residualCount n}
        (h : a.after? t k = some a') := Trying.rejects_of_after? hvalid hreached h
    refine ⟨fun k a' => hrejects, ?_⟩
    rw [Option.eq_none_iff_forall_ne_some]
    intro a' hafter
    obtain ⟨trials, hlength, nonneg, rejects⟩ := hrejects hafter
    have hradius : 0 < a.trust.radius := (hreached.prepared hvalid rfl a.trust rfl).radius_pos
    have := hlimit trials _ hradius.le nonneg rejects
    omega

/-- A run that starts away from the origin begins its first trial at a point of positive size. -/
theorem Run.pointNorm_pos_of_factorize {t : Task ℝ σ m n} {told r : Run ℝ σ m n}
    {jacobian : Mat ℝ m n} {residualNorm : ℝ} {factor : Triangular ℝ m n} {trust : TrustRegion ℝ}
    (valid : t.IsValid)
    (h : told.factorize t jacobian (.fresh residualNorm) = .continues r (.attempt factor trust))
    (hpoint : told.point.get ≠ 0) : 0 < trust.pointNorm := by
  let columnNorms := (QR.factorize true jacobian).columnNorms
  have hnorms (j : Fin n) : 0 ≤ columnNorms j :=
    (zero_le_norm _).trans_eq (QR.columnNorms_eq_norm ..).symm
  have hpos : 0 < scaledNorm (initialScaling t columnNorms) told.point := by
    obtain ⟨j, hj⟩ := Function.ne_iff.mp hpoint
    rw [scaledNorm_eq_length, length_pos, Function.ne_iff]
    exact ⟨j, mul_ne_zero (initialScaling_pos valid hnorms j).ne' hj⟩
  rcases told.factorize_cases t jacobian (.fresh residualNorm) with ⟨-, step⟩ | ⟨-, step⟩ <;>
    rw [step] at h <;> cases h
  exact hpos

def TrustRegion.ofUnit : TrustRegion ℝ where
  radius := 10
  damping := 0
  residualNorm := 1
  pointNorm := 1
  gradientNorm := 1
  iteration := 2

def Trial.doubling : Trial ℝ where
  residualNorm := 2
  stepNorm := 2
  linearNorm := 1
  damping := 1
  pointNorm := 1
  budgetExhausted := false

theorem Trial.doubling_nonneg : doubling.Nonneg := by
  constructor <;> norm_num [doubling]

theorem Trial.actualReduction_doubling : doubling.actualReduction 1 = -3 := by
  norm_num [doubling, actualReduction]

theorem TrustRegion.doubling_rejected :
    (ofUnit.observe (Settings.standard : Settings ℝ).criteria (.trial .doubling)).2.accepted =
      false := by
  have hpredicted : Trial.doubling.predictedReduction 1 = 9 := by
    norm_num [Trial.doubling, Trial.predictedReduction, Trial.linearShare, Trial.dampingShare]
  apply decide_eq_false
  change ¬(0.0001 : ℝ) ≤ Trial.doubling.gainRatio 1
  norm_num [Trial.gainRatio, hpredicted, Trial.actualReduction_doubling]

/-- No test holds after the trial, as residuals and radius are far from their tolerances. -/
theorem TrustRegion.doubling_continues :
    (ofUnit.observe (Settings.standard : Settings ℝ).criteria (.trial .doubling)).2.termination =
      none := by
  set criteria := (Settings.standard : Settings ℝ).criteria with hcriteria
  have hshrinks : ofUnit.ShrinksTo .doubling (ofUnit.judge criteria .doubling).1 :=
    shrinksTo_of_rejected Tuning.error?_standard (by norm_num [ofUnit]) Trial.doubling_nonneg
      doubling_rejected
  have hfunction : criteria.functionTolerance < 0.2 := by
    norm_num [hcriteria, Settings.criteria, Settings.standard, Settings.standardTolerance]
  have hepsilon : (Arith.epsilon : ℝ) < 0.2 := by
    change (2 : ℝ) ^ (-52 : ℤ) < 0.2
    norm_num
  have hgrown {tolerance : ℝ} (h : tolerance < 0.2) :
      ¬Trial.doubling.ReducesWithin tolerance 1 := by
    rintro ⟨hactual, -⟩
    norm_num [Trial.actualReduction_doubling] at hactual
    linarith
  have hopen {tolerance : ℝ} (h : tolerance < 0.2) :
      ¬(ofUnit.judge criteria .doubling).1.radius ≤
        tolerance * (ofUnit.judge criteria .doubling).1.pointNorm := by
    rw [hshrinks.pointNorm_eq, not_le]
    refine lt_of_lt_of_le ?_ hshrinks.le_radius
    norm_num [ofUnit, Trial.doubling] at h ⊢
    exact h
  change (⟨ofUnit, .trial .doubling⟩ : Turn ℝ).termination criteria = none
  rw [Turn.termination_eq_none_iff]
  intro test
  cases test with
  | gradient => exact id
  | function => exact hgrown hfunction
  | step => exact hopen hfunction
  | budget => exact Bool.false_ne_true
  | functionPrecision => exact hgrown hepsilon
  | stepPrecision => exact hopen hepsilon
  | gradientPrecision => exact not_le.mpr (hepsilon.trans (by norm_num [ofUnit]))

/-- The first trial in the valley of Rosenbrock, from a point other than the origin. -/
theorem Settings.rosenbrock_first_trial :
    let t := (standard : Settings ℝ).task Problems.rosenbrock 2 (error?_standard two_pos le_rfl)
    ∃ l committed r factor trust, launch? () #[0, 1] (.zeros 2 2) = some l ∧
      t.Reaches l committed (.continues r (.attempt factor trust)) ∧ 0 < trust.pointNorm := by
  intro t
  let residuals : Vec ℝ 2 := ⟨#v[10.0 * (1 - 0 * 0), 1 - 0]⟩
  obtain ⟨l, launched, hpoint, first⟩ : ∃ l, launch? () #[0, 1] (.zeros 2 2) = some l ∧
      l.point = .ofArray #[0, 1] ∧ (l.reply t).answer = .done residuals.toArray :=
    exists_launch?_of_first (Workspace.coherent_zeros 2 2) rfl
  let jacobian : Mat ℝ 2 2 :=
    ((((Mat.fill 2 2 0).set 0 0 (-20.0 * 0)).set 0 1 10.0).set 1 0 (-1)).set 1 1 0
  have second : ((l.started t residuals).jacobianReply t (.fill 2 2 0)).answer =
      .done ⟨2, 2, jacobian⟩ := by
    unfold Run.jacobianReply Launch.started
    rw [hpoint]
    rfl
  have hgradient : jacobian.toMatrix.col 0 ⬝ᵥ residuals.get ≠ 0 := by
    simp [jacobian, residuals, dotProduct, Mat.toMatrix, Mat.set_apply, Vec.get]
  obtain ⟨r, factor, trust, hfactorize, hreached⟩ :=
    Task.Reaches.first_attempt first second rfl rfl hgradient
  refine ⟨l, _, r, factor, trust, launched, hreached, ?_⟩
  refine Run.pointNorm_pos_of_factorize (isValid_task _) hfactorize ?_
  change l.point.get ≠ 0
  rw [hpoint]
  exact fun hzero => one_ne_zero (congrFun hzero 1)

/-- A trial that doubles the residual norm is rejected, and the first trials in the valley of
Rosenbrock come to an end. -/
theorem Criteria.doubling_shrinks_trust_region :
    let s : Settings ℝ := .standard
    let t := s.task Problems.rosenbrock 2 (Settings.error?_standard two_pos le_rfl)
    let trust := TrustRegion.ofUnit
    let told := trust.observe s.criteria (.trial .doubling)
    (told.2 = ⟨false, none⟩ ∧ trust.ShrinksTo .doubling told.1 ∧
      max s.stepTolerance Arith.epsilon * trust.pointNorm * 2 ^ 1 < trust.radius) ∧
    ∃ l committed a limit, t.Reaches l committed (Trying.advance a) ∧ 0 < a.trust.pointNorm ∧
      a.after? t (limit + 1) = none := by
  intro s t trust told
  obtain ⟨single, chain, runs⟩ :=
    @rejections_shrink_trust_region Unit 2 _ s.criteria Tuning.error?_standard
  have verdict : told.2 = ⟨false, none⟩ := by
    rw [← TrustRegion.doubling_rejected, ← TrustRegion.doubling_continues]
  have hradius : 0 < trust.radius := by
    norm_num [trust, TrustRegion.ofUnit]
  have hresiduals : 0 < trust.residualNorm := one_pos
  refine ⟨⟨verdict, ?_, ?_⟩, ?_⟩
  · exact single trust .doubling hradius hresiduals Trial.doubling_nonneg
      TrustRegion.doubling_rejected
  · exact chain trust [.doubling] told.1 hradius hresiduals
      (List.forall_mem_singleton.mpr Trial.doubling_nonneg) (List.cons_ne_nil _ _)
      (.cons (Prod.ext rfl verdict) .nil)
  · obtain ⟨l, committed, r, factor, trust, -, hreached, hpoint⟩ := Settings.rosenbrock_first_trial
    obtain ⟨limit, -, hlimit⟩ := runs trust hpoint
    exact ⟨l, committed, ⟨r, factor, trust⟩, limit, hreached, hpoint,
      (hlimit s _ _ rfl l committed ⟨r, factor, trust⟩ rfl hreached).2⟩

end LeastSquares
