import LeastSquares.Proofs.Descent
import LeastSquares.Proofs.GradientTest
import LeastSquares.Proofs.SearchedSteps

namespace LeastSquares

open Matrix

variable {σ : Type} {m n : Nat}

section History

variable {α : Type}

def Event.differentiated? : Event α → Option (Jacobian α)
  | .jacobian _ _ written => written
  | _ => none

namespace History

def jacobians (h : History α) : List (Jacobian α) :=
  h.toList.filterMap Event.differentiated?

def lastJacobian? (h : History α) : Option (Jacobian α) :=
  (h.toList.filterMap Event.differentiated?).getLast?

variable {h h' : History α}

theorem jacobians_push {point : Array α} {given written : Jacobian α} :
    jacobians (h.push (.jacobian point given (some written))) = jacobians h ++ [written] := by
  simp [jacobians, Event.differentiated?]

theorem lastJacobian?_push {point : Array α} {given written : Jacobian α} :
    lastJacobian? (h.push (.jacobian point given (some written))) = some written :=
  (congrArg List.getLast? jacobians_push).trans (List.getLast?_concat ..)

theorem Extends.jacobians_eq (hext : h.Extends h' fun e => e.differentiated? = none) :
    jacobians h' = jacobians h := by
  obtain ⟨new, rfl, hnew⟩ := hext
  have hnone : new.filterMap Event.differentiated? = [] := List.filterMap_eq_nil_iff.mpr hnew
  simp [jacobians, hnone]

end History

namespace Run

theorem jacobians_log (r : Run α σ m n) (records : List (LogRecord α)) :
    (r.log records).history.jacobians = r.history.jacobians :=
  (History.extends_log records fun _ => rfl).jacobians_eq

theorem jacobians_evaluated (r : Run α σ m n) (reply : Reply σ (Array α)) :
    (r.evaluated reply).history.jacobians = r.history.jacobians := by
  apply History.Extends.jacobians_eq
  exact History.extends_push rfl

theorem jacobians_reported (r : Run α σ m n) (iteration : Nat) (reply : Reply σ Unit) :
    (r.reported iteration reply).history.jacobians = r.history.jacobians := by
  apply History.Extends.jacobians_eq
  exact History.extends_push rfl

/-- A Jacobian that is factored is the last one in the history. -/
theorem jacobians_told [Scalar α] {t : Task α σ m n} {r told : Run α σ m n}
    {matrix jacobian : Mat α m n} {iteration : Nat}
    (answer : (r.jacobianReply t matrix).answer = .done ⟨m, n, jacobian⟩) :
    let called := r.differentiated matrix (r.jacobianReply t matrix)
    told = called ∨ told = called.reported iteration (called.reportReply t iteration) →
      told.history.jacobians = r.history.jacobians ++ [⟨m, n, jacobian⟩] := by
  intro called htold
  have hcalled : called.history.jacobians = r.history.jacobians ++ [⟨m, n, jacobian⟩] := by
    unfold called differentiated
    rw [answer]
    exact History.jacobians_push
  rcases htold with rfl | rfl
  · exact hcalled
  · exact (jacobians_reported called _ _).trans hcalled

end Run

end History

namespace Triangular

/-- The product with `R`, as the library adds it up. -/
theorem mulPermuted_get (f : Triangular ℝ m n) (v : Vec ℝ n) :
    (f.mulPermuted v).get = f.r.toMatrix *ᵥ f.permute v.get := by
  funext i
  have hsum : f.mulPermuted v i =
      ((indicesFrom n i).map fun j => f.square i j * v (f.permutation j)).sum := by
    rw [mulPermuted, Vec.ofFn_apply, List.sum_eq_foldl, List.foldl_map]
  refine hsum.trans ?_
  rw [sum_indicesFrom, f.isUpper_r.mulVec_apply]
  apply Finset.sum_congr rfl
  intro j _
  split
  · rename_i hj
    exact congrArg (· * v (f.permutation j)) (f.r_apply hj).symm
  · rfl

theorem Models.congr {f f' : Triangular ℝ m n} {q : Vec ℝ n} {k : Nat}
    {a : Matrix (Fin k) (Fin n) ℝ} {b : Fin k → ℝ} (h : f.Models q a b) (hr : f'.r = f.r)
    (hp : f'.permutation = f.permutation) : f'.Models q a b := by
  obtain ⟨injective, gram, gradient⟩ := h
  constructor <;> rw [hp]
  · exact injective
  · rw [hr]
    exact gram
  · rw [hr]
    exact gradient

end Triangular

/-- The reduction and the slope of a linear model from the numbers of a trial that is orthogonal to
its own damped residuals. -/
theorem Trial.predictions {t : Trial ℝ} {b u : Fin m → ℝ} (hb : 0 < length b)
    (hlinear : t.linearNorm ^ 2 = u ⬝ᵥ u)
    (henergy : u ⬝ᵥ u + √t.damping ^ 2 * t.stepNorm ^ 2 = -(u ⬝ᵥ b)) :
    t.predictedReduction (length b) = 1 - length (b + u) ^ 2 / length b ^ 2 ∧
      t.directionalDerivative (length b) = (b ⬝ᵥ u) / length b ^ 2 := by
  have hshares : t.linearShare (length b) * t.linearShare (length b) = u ⬝ᵥ u / length b ^ 2 := by
    rw [linearShare, ← pow_two, div_pow, hlinear]
  have hdamping : t.dampingShare (length b) * t.dampingShare (length b) =
      √t.damping ^ 2 * t.stepNorm ^ 2 / length b ^ 2 := by
    rw [dampingShare, ← pow_two, div_pow, mul_pow, Arith.sqrt_real]
  have hsquare : length (b + u) ^ 2 = length b ^ 2 + 2 * (u ⬝ᵥ b) + u ⬝ᵥ u := by
    rw [length_sq, length_sq, add_dotProduct, dotProduct_add, dotProduct_add, dotProduct_comm b u]
    ring
  have hne : length b ^ 2 ≠ 0 := (pow_pos hb 2).ne'
  have hdot : u ⬝ᵥ b = -(u ⬝ᵥ u + √t.damping ^ 2 * t.stepNorm ^ 2) := by
    rw [henergy, neg_neg]
  constructor
  · rw [predictedReduction, hshares, hdamping, hsquare, hdot]
    field_simp
    norm_num
    ring
  · rw [directionalDerivative, hshares, hdamping, dotProduct_comm b u, hdot]
    ring

/-- The linear change of a step that a search returns has the length that the Jacobian gives it. -/
theorem SearchOutcome.IsSound.norm_mulPermuted {f : Triangular ℝ m n} {p : Subproblem ℝ n}
    {out : SearchOutcome ℝ m n} {k : Nat} {a : Matrix (Fin k) (Fin n) ℝ} {b : Fin k → ℝ}
    (h : out.IsSound f p) (hm : f.Models p.projected a b) :
    norm (out.factor.mulPermuted out.step) = length (a *ᵥ out.step.get) := by
  rw [norm_eq_length, Triangular.mulPermuted_get, h.r_eq, length_eq_sqrt, length_eq_sqrt,
    ← hm.change_dot_self]
  unfold Triangular.permute
  rw [h.permutation_eq]

/-- The factor of a trial stands for the Jacobian that the problem wrote last and for the residuals
at the current point. -/
def Run.Linearized (r : Run ℝ σ m n) (factor : Triangular ℝ m n) (a : Mat ℝ m n) : Prop :=
  r.history.lastJacobian? = some ⟨m, n, a⟩ ∧
    factor.Models r.buffers.projected a.toMatrix r.residuals.get

namespace Run

variable {t : Task ℝ σ m n} {r r' : Run ℝ σ m n} {factor factor' : Triangular ℝ m n}
  {trust trust' : TrustRegion ℝ} {a : Mat ℝ m n}

theorem Linearized.predictions (h : r.Linearized factor a) (hb : 0 < length r.residuals.get)
    (reply : Reply σ (Array ℝ)) (residualNorm : ℝ) :
    let found := r.search t factor trust
    let trial := ((r.proposed found).evaluated reply).trial t found.damping residualNorm
    let b := r.residuals.get
    let u := a.toMatrix *ᵥ found.step.get
    trial.predictedReduction (length b) = 1 - length (b + u) ^ 2 / length b ^ 2 ∧
      trial.directionalDerivative (length b) = (b ⬝ᵥ u) / length b ^ 2 := by
  intro found trial b u
  obtain ⟨-, hmodels⟩ := h
  have hsound : found.IsSound factor (r.subproblem t trust) :=
    Subproblem.search_isSound hmodels.injective
  have henergy := hsound.isStep.energy hmodels
  refine Trial.predictions hb ?_ ?_
  · change norm (found.factor.mulPermuted found.step) ^ 2 = u ⬝ᵥ u
    rw [hsound.norm_mulPermuted hmodels, length_sq]
  · change u ⬝ᵥ u + √found.damping ^ 2 * scaledNorm r.buffers.scaling found.step ^ 2 = _
    rw [scaledNorm_eq_length, length_sq]
    exact henergy

theorem linearized_of_factorize {told : Run ℝ σ m n} {progress : Progress ℝ}
    (hlast : told.history.lastJacobian? = some ⟨m, n, a⟩)
    (h : told.factorize t a progress = .continues r (.attempt factor trust)) :
    r.Linearized factor a := by
  rcases told.factorize_cases t a progress with ⟨-, step⟩ | ⟨-, step⟩ <;> rw [step] at h <;> cases h
  exact ⟨(congrArg List.getLast? (jacobians_log _ _)).trans hlast,
    QR.models_factorize true a told.residuals t.size_le⟩

theorem Linearized.of_rejected (h : r.Linearized factor a)
    (hstep : r.attempt t factor trust = .continues r' (.attempt factor' trust')) :
    r'.Linearized factor' a := by
  obtain ⟨hlast, hmodels⟩ := h
  obtain ⟨residuals, -, rfl, rfl, rfl⟩ := rejected_of_attempt hstep
  have hsound : (r.search t factor trust).IsSound factor (r.subproblem t trust) :=
    Subproblem.search_isSound hmodels.injective
  refine ⟨?_, hmodels.congr hsound.r_eq hsound.permutation_eq⟩
  rw [← hlast]
  apply congrArg List.getLast?
  exact (jacobians_log _ _).trans ((jacobians_evaluated _ _).trans (jacobians_log r _))

end Run

/-- What holds when a Jacobian was factored, and goes on to hold when a trial is rejected, holds at
every trial. -/
theorem Task.Reaches.attempt_induction {t : Task ℝ σ m n} {l : Launch ℝ σ m n}
    {P : Run ℝ σ m n → Triangular ℝ m n → Prop}
    (factored : ∀ (told : Run ℝ σ m n) jacobian progress r factor trust,
      told.history.lastJacobian? = some ⟨m, n, jacobian⟩ →
      told.factorize t jacobian progress = .continues r (.attempt factor trust) → P r factor)
    (rejected : ∀ (r : Run ℝ σ m n) factor trust r' factor' trust', P r factor →
      r.attempt t factor trust = .continues r' (.attempt factor' trust') → P r' factor')
    {committed : List (Evaluation ℝ m n)} {a : Advance ℝ σ m n} (h : t.Reaches l committed a)
    {r : Run ℝ σ m n} {factor : Triangular ℝ m n} {trust : TrustRegion ℝ}
    (ha : a = .continues r (.attempt factor trust)) : P r factor := by
  induction h generalizing r factor trust with
  | start => cases ha
  | @step committed before phase h ih =>
    cases phase with
    | linearize matrix progress =>
      obtain ⟨jacobian, told, answer, htold, hstep⟩ := Run.factorize_of_linearize ha
      refine factored told jacobian progress r factor trust ?_ hstep
      exact (congrArg List.getLast? (Run.jacobians_told answer htold)).trans
        (List.getLast?_concat ..)
    | attempt factor trust => exact rejected _ _ _ _ _ _ (ih rfl) ha

/-- At every trial the factor stands for the last Jacobian and the residuals at the point. -/
theorem Task.Reaches.linearized {t : Task ℝ σ m n} {l : Launch ℝ σ m n}
    {committed : List (Evaluation ℝ m n)} {a : Advance ℝ σ m n} (h : t.Reaches l committed a)
    {r : Run ℝ σ m n} {factor : Triangular ℝ m n} {trust : TrustRegion ℝ}
    (ha : a = .continues r (.attempt factor trust)) :
    ∃ jacobian, r.Linearized factor jacobian := by
  refine attempt_induction (P := fun r factor => ∃ jacobian, r.Linearized factor jacobian)
    ?_ ?_ h ha
  · intro told jacobian progress r factor trust hlast hstep
    exact ⟨jacobian, Run.linearized_of_factorize hlast hstep⟩
  · rintro r factor trust r' factor' trust' ⟨jacobian, hlinearized⟩ hstep
    exact ⟨jacobian, hlinearized.of_rejected hstep⟩

/-- Every trial of a run predicts what the linear model predicts, whatever the rank of the Jacobian.
So the predicted reduction is between zero and one and the slope is not positive. -/
theorem Settings.trials_predict_linear_model (s : Settings ℝ) (problem : Problem ℝ σ)
    (valid : s.error? problem.residualCount n = none) (l : Launch ℝ σ problem.residualCount n)
    (committed : List (Evaluation ℝ problem.residualCount n))
    (r : Run ℝ σ problem.residualCount n) (factor : Triangular ℝ problem.residualCount n)
    (trust : TrustRegion ℝ) :
    let t := s.task problem n valid
    t.Reaches l committed (.continues r (.attempt factor trust)) →
    ∃ jacobian : Mat ℝ problem.residualCount n,
      r.history.lastJacobian? = some ⟨problem.residualCount, n, jacobian⟩ ∧
      let found := r.search t factor trust
      let b := r.residuals.get
      let u := jacobian.toMatrix *ᵥ found.step.get
      0 < length b ∧ trust.residualNorm = length b ∧
      ∀ reply residualNorm,
        let trial := ((r.proposed found).evaluated reply).trial t found.damping residualNorm
        let predicted := trial.predictedReduction trust.residualNorm
        let slope := trial.directionalDerivative trust.residualNorm
        predicted = 1 - length (b + u) ^ 2 / length b ^ 2 ∧ slope = (b ⬝ᵥ u) / length b ^ 2 ∧
          0 ≤ predicted ∧ predicted ≤ 1 ∧ slope ≤ 0 := by
  intro t h
  obtain ⟨jacobian, hlinearized⟩ := h.linearized rfl
  refine ⟨jacobian, hlinearized.1, ?_⟩
  intro found b u
  have hcurrent : trust.residualNorm = length b :=
    h.residualNorm_eq.trans (norm_eq_length r.residuals)
  have hpos : 0 < length b := hcurrent ▸ h.residualNorm_pos (zero_le_gradientTolerance valid) rfl
  refine ⟨hpos, hcurrent, ?_⟩
  intro reply residualNorm trial predicted slope
  obtain ⟨hmodel, hmodel'⟩ := hlinearized.predictions hpos reply residualNorm
  have hpredicted : predicted = 1 - length (b + u) ^ 2 / length b ^ 2 :=
    (congrArg trial.predictedReduction hcurrent).trans hmodel
  have hslope : slope = (b ⬝ᵥ u) / length b ^ 2 :=
    (congrArg trial.directionalDerivative hcurrent).trans hmodel'
  refine ⟨hpredicted, hslope, Trial.zero_le_predictedReduction, ?_, ?_⟩
  · rw [hpredicted]
    exact sub_le_self _ (div_nonneg (sq_nonneg _) (sq_nonneg _))
  · exact Trial.directionalDerivative_nonpos

/-- Without a gradient tolerance a run goes on to a trial unless its residuals are orthogonal to
every column of the Jacobian. -/
theorem Run.factorize_attempts {t : Task ℝ σ m n} {r : Run ℝ σ m n} {a : Mat ℝ m n}
    {progress : Progress ℝ} (tolerance : t.criteria.gradientTolerance = 0)
    (hnorm : progress.residualNorm = norm r.residuals) {j : Fin n}
    (hgradient : a.toMatrix.col j ⬝ᵥ r.residuals.get ≠ 0) :
    ∃ r' factor trust, r.factorize t a progress = .continues r' (.attempt factor trust) := by
  have hresidual :
      (r.resumed t (QR.factorize true a).columnNorms progress).1.residualNorm = norm r.residuals :=
    (residualNorm_resumed t r _ progress).trans hnorm
  have hpos := QR.gradientNorm_pos a r.residuals t.size_le hgradient
  rw [← hresidual] at hpos
  rcases r.factorize_cases t a progress with ⟨small, -⟩ | ⟨-, step⟩
  · rw [tolerance] at small
    exact absurd small (not_le.mpr hpos)
  · exact ⟨_, _, _, step⟩

/-- A run that neither reports nor has a gradient tolerance goes on from its first Jacobian to a
trial, unless the residuals are orthogonal to every column. -/
theorem Task.Reaches.first_attempt {t : Task ℝ σ m n} {l : Launch ℝ σ m n} {residuals : Vec ℝ m}
    {jacobian : Mat ℝ m n} (first : (l.reply t).answer = .done residuals.toArray)
    (second : ((l.started t residuals).jacobianReply t (.fill m n 0)).answer =
      .done ⟨m, n, jacobian⟩)
    (quiet : t.reportEvery = 0) (tolerance : t.criteria.gradientTolerance = 0) {j : Fin n}
    (hgradient : jacobian.toMatrix.col j ⬝ᵥ residuals.get ≠ 0) :
    ∃ r factor trust,
      ((l.started t residuals).differentiated (.fill m n 0)
        ((l.started t residuals).jacobianReply t (.fill m n 0))).factorize t jacobian
          (.fresh (norm residuals)) = .continues r (.attempt factor trust) ∧
      t.Reaches l [⟨l.point, residuals⟩] (.continues r (.attempt factor trust)) := by
  set called := (l.started t residuals).differentiated (.fill m n 0)
    ((l.started t residuals).jacobianReply t (.fill m n 0)) with hcalled
  obtain ⟨r, factor, trust, hfactorize⟩ : ∃ r factor trust,
      called.factorize t jacobian (.fresh (norm residuals)) =
        .continues r (.attempt factor trust) :=
    Run.factorize_attempts tolerance rfl hgradient
  refine ⟨r, factor, trust, hfactorize, ?_⟩
  have due : Run.reportDue t (Progress.fresh (norm residuals)).iteration = false := by
    rw [Run.reportDue, quiet]
    rfl
  have hstep : (l.started t residuals).advance t (.first residuals) =
      .continues r (.attempt factor trust) :=
    (Run.linearize_of_done second due).trans hfactorize
  have hreached := (Task.Reaches.start first).step
  rwa [hstep] at hreached

/-- What a run that starts at the origin begins its first trial with. -/
theorem Run.of_factorize_at_origin {t : Task ℝ σ m n} {told r : Run ℝ σ m n} {jacobian : Mat ℝ m n}
    {residualNorm : ℝ} {factor : Triangular ℝ m n} {trust : TrustRegion ℝ}
    (h : told.factorize t jacobian (.fresh residualNorm) = .continues r (.attempt factor trust))
    (origin : told.point.get = 0) :
    let columnNorms := (QR.factorize true jacobian).columnNorms
    r.problem = told.problem ∧
      r.buffers.scaling = raisedScaling t (initialScaling t columnNorms) columnNorms ∧
      trust.radius = t.stepBound := by
  intro columnNorms
  have hnorm (scaling : Vec ℝ n) : scaledNorm scaling told.point = 0 := by
    rw [scaledNorm_eq_length, origin]
    convert length_zero
    exact funext fun i => mul_zero _
  rcases told.factorize_cases t jacobian (.fresh residualNorm) with ⟨-, step⟩ | ⟨-, step⟩ <;>
    rw [step] at h <;> cases h
  refine ⟨rfl, rfl, ?_⟩
  change (if t.stepBound * scaledNorm (initialScaling t columnNorms) told.point == 0 then _
    else _) = _
  rw [hnorm, mul_zero, if_pos (beq_self_eq_true _)]

/-- The first trial in the valley of Rosenbrock from the origin. -/
theorem Settings.rosenbrock_trial_predicts :
    let s : Settings ℝ := .standard
    let problem : Problem ℝ Unit := Problems.rosenbrock
    let t := s.task problem 2 (error?_standard two_pos le_rfl)
    ∃ l committed r factor trust, t.Reaches l committed (.continues r (.attempt factor trust)) ∧
      ∃ jacobian : Mat ℝ problem.residualCount 2,
        r.history.lastJacobian? = some ⟨problem.residualCount, 2, jacobian⟩ ∧
        let found := r.search t factor trust
        let b := r.residuals.get
        let u := jacobian.toMatrix *ᵥ found.step.get
        ∀ reply residualNorm,
          let trial := ((r.proposed found).evaluated reply).trial t found.damping residualNorm
          trial.predictedReduction trust.residualNorm =
            1 - length (b + u) ^ 2 / length b ^ 2 := by
  intro s problem t
  let residuals : Vec ℝ 2 := ⟨#v[10.0 * (0 - 0 * 0), 1 - 0]⟩
  obtain ⟨l, -, hpoint, first⟩ : ∃ l, launch? () #[0, 0] (.zeros 2 2) = some l ∧
      l.point = .ofArray #[0, 0] ∧ (l.reply t).answer = .done residuals.toArray :=
    exists_launch?_of_first (Workspace.coherent_zeros 2 2) rfl
  let jacobian : Mat ℝ 2 2 :=
    ((((Mat.fill 2 2 0).set 0 0 (-20.0 * 0)).set 0 1 10.0).set 1 0 (-1)).set 1 1 0
  have answer : ((l.started t residuals).jacobianReply t (.fill 2 2 0)).answer =
      .done ⟨2, 2, jacobian⟩ := by
    unfold Run.jacobianReply Launch.started
    rw [hpoint]
    rfl
  have hstart := Task.Reaches.start first
  obtain ⟨r, factor, trust, hstep⟩ : ∃ r factor trust,
      (l.started t residuals).advance t (.first residuals) =
        .continues r (.attempt factor trust) := by
    let called := (l.started t residuals).differentiated (.fill 2 2 0)
      ((l.started t residuals).jacobianReply t (.fill 2 2 0))
    have hgradient : jacobian.toMatrix.col 0 ⬝ᵥ called.residuals.get ≠ 0 := by
      change jacobian.toMatrix.col 0 ⬝ᵥ residuals.get ≠ 0
      simp [jacobian, residuals, dotProduct, Mat.toMatrix, Mat.set_apply, Vec.get]
    obtain ⟨r, factor, trust, hstep⟩ : ∃ r factor trust,
        called.factorize t jacobian (.fresh (norm residuals)) =
          .continues r (.attempt factor trust) :=
      Run.factorize_attempts rfl rfl hgradient
    exact ⟨r, factor, trust, (Run.linearize_of_done answer rfl).trans hstep⟩
  have hreached := hstep ▸ hstart.step
  obtain ⟨jacobian, hlast, -, -, htrial⟩ :=
    trials_predict_linear_model s problem (error?_standard two_pos le_rfl) l _ r factor trust
      hreached
  refine ⟨l, _, r, factor, trust, hreached, jacobian, hlast, ?_⟩
  intro found b u reply residualNorm
  exact (htrial reply residualNorm).1

end LeastSquares
