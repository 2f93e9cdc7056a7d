import LeastSquares.Proofs.Callbacks
import LeastSquares.Proofs.DescentDirections
import LeastSquares.Proofs.LinearProblems
import LeastSquares.Proofs.Noninterference

namespace LeastSquares

open Matrix

variable {σ : Type} {m n : Nat}

/-- Whether the residuals that a problem writes are a function of the point. -/
abbrev Problem.Computes (p : Problem ℝ σ) (f : Vec ℝ n → Vec ℝ m) : Prop :=
  p.Writes (fun x values => values = f x) fun _ (_ : Mat ℝ m n) => True

namespace Trial

variable {t : Trial ℝ} {current threshold : ℝ}

theorem predictedReduction_pos (hmoves : t.predictedReduction current ≠ 0) :
    0 < t.predictedReduction current :=
  lt_of_le_of_ne zero_le_predictedReduction hmoves.symm

theorem gainRatio_of_moves (hmoves : t.predictedReduction current ≠ 0) :
    t.gainRatio current = t.actualReduction current / t.predictedReduction current := by
  rw [gainRatio, if_neg (by simpa using hmoves)]

/-- A gain ratio that is not negative means that the residual norm did not grow. -/
theorem residualNorm_le_of_gainRatio (hcurrent : 0 < current)
    (hmoves : t.predictedReduction current ≠ 0) (h : 0 ≤ t.gainRatio current) :
    t.residualNorm ≤ current := by
  rw [gainRatio_of_moves hmoves] at h
  have hactual : 0 ≤ t.actualReduction current := by
    by_contra hneg
    exact not_lt.mpr h (div_neg_of_neg_of_pos (not_le.mp hneg) (predictedReduction_pos hmoves))
  unfold actualReduction at hactual
  split at hactual
  · have hratio : t.residualNorm / current ≤ 1 := by
      by_contra hlarge
      have := one_lt_mul_of_lt_of_le (not_le.mp hlarge) (not_le.mp hlarge).le
      linarith
    rwa [div_le_one hcurrent] at hratio
  · norm_num at hactual

/-- A gain ratio below the threshold means that the sum of squares is hardly smaller. -/
theorem sq_le_of_gainRatio (hcurrent : 0 < current) (hmoves : t.predictedReduction current ≠ 0)
    (hpredicted : t.predictedReduction current ≤ 1) (hthreshold : 0 ≤ threshold)
    (h : t.gainRatio current < threshold) :
    (1 - threshold) * current ^ 2 ≤ t.residualNorm ^ 2 := by
  have hsq : 0 < current ^ 2 := pow_pos hcurrent 2
  have hactual : t.actualReduction current < threshold := by
    rw [gainRatio_of_moves hmoves, div_lt_iff₀ (predictedReduction_pos hmoves)] at h
    exact h.trans_le (mul_le_of_le_one_right hthreshold hpredicted)
  unfold actualReduction at hactual
  split at hactual
  · have hshare : 1 - threshold < t.residualNorm ^ 2 / current ^ 2 := by
      rw [← pow_two, div_pow] at hactual
      linarith
    exact ((lt_div_iff₀ hsq).mp hshare).le
  · rename_i hlarge
    have hgrew : current ≤ t.residualNorm := by
      norm_num at hlarge
      linarith
    nlinarith [mul_nonneg hthreshold hsq.le]

end Trial

namespace Task.Reaches

variable {t : Task ℝ σ m n} {l : Launch ℝ σ m n} {committed : List (Evaluation ℝ m n)}
  {f : Vec ℝ n → Vec ℝ m}

/-- A trial that predicts no reduction finds the residuals that are known at the point. -/
theorem residuals_of_still (computes : t.problem.Computes f)
    {r : Run ℝ σ m n} {factor : Triangular ℝ m n} {trust : TrustRegion ℝ}
    (h : t.Reaches l committed (.continues r (.attempt factor trust)))
    (still : (r.search t factor trust).step.get = 0) {residuals : Vec ℝ m}
    (answer : ((r.proposed (r.search t factor trust)).trialReply t).answer =
      .done residuals.toArray) : residuals = r.residuals := by
  have hpoint : (r.proposed (r.search t factor trust)).buffers.trialPoint = r.point := by
    ext i
    have hmoved : (r.proposed (r.search t factor trust)).buffers.trialPoint i =
        r.point i + (r.search t factor trust).step i := Vec.ofFn_apply _ i
    rw [hmoved, congrFun still i, Pi.zero_apply, add_zero]
  rw [computes.residuals _ _ _ _ answer, hpoint, h.values_of_current computes]

/-- What a trial says of its residuals: they are not larger than the present ones if it is accepted,
and hardly smaller if it is rejected. -/
theorem residuals_of_trial (computes : t.problem.Computes f)
    (tolerance : 0 ≤ t.criteria.gradientTolerance)
    (threshold : 0 ≤ t.criteria.tuning.acceptanceThreshold)
    {r : Run ℝ σ m n} {factor : Triangular ℝ m n} {trust : TrustRegion ℝ}
    (h : t.Reaches l committed (.continues r (.attempt factor trust))) {residuals : Vec ℝ m} :
    let found := r.search t factor trust
    let reply := (r.proposed found).trialReply t
    let judged := ((r.proposed found).evaluated reply).judgement t trust found.damping residuals
    reply.answer = .done residuals.toArray →
    (judged.2.accepted = true → norm residuals ≤ norm r.residuals) ∧
      (judged.2.accepted = false →
        (1 - t.criteria.tuning.acceptanceThreshold) * norm r.residuals ^ 2 ≤
          norm residuals ^ 2) := by
  intro found reply judged answer
  let trial := ((r.proposed found).evaluated reply).trial t found.damping (norm residuals)
  have hcurrent : trust.residualNorm = norm r.residuals := h.residualNorm_eq
  have hpos : 0 < norm r.residuals := hcurrent ▸ h.residualNorm_pos tolerance rfl
  obtain ⟨jacobian, hlinearized⟩ := h.linearized rfl
  have haccepted : judged.2.accepted =
      decide (t.criteria.tuning.acceptanceThreshold ≤ trial.gainRatio (norm r.residuals)) := by
    rw [← hcurrent]
    rfl
  rw [haccepted, decide_eq_true_eq, decide_eq_false_iff_not, not_le]
  by_cases hmoves : trial.predictedReduction (norm r.residuals) = 0
  · have hstill : found.step.get = 0 := by
      rw [norm_eq_length] at hmoves hpos
      exact hlinearized.step_eq_zero hpos reply (norm residuals) hmoves
    rw [h.residuals_of_still computes hstill answer]
    refine ⟨fun _ => le_rfl, fun _ => ?_⟩
    exact mul_le_of_le_one_left (sq_nonneg _) (sub_le_self _ threshold)
  · refine ⟨fun haccept => ?_, fun hreject => ?_⟩
    · exact Trial.residualNorm_le_of_gainRatio hpos hmoves (threshold.trans haccept)
    · have hpredicted : trial.predictedReduction (norm r.residuals) ≤ 1 := by
        rw [norm_eq_length] at hpos ⊢
        rw [(hlinearized.predictions hpos reply (norm residuals)).1]
        exact sub_le_self _ (div_nonneg (sq_nonneg _) (sq_nonneg _))
      exact Trial.sq_le_of_gainRatio hpos hmoves hpredicted threshold hreject

/-- The residual norms of the evaluations that a run committed to do not grow. -/
theorem pairwise_le (computes : t.problem.Computes f)
    (tolerance : 0 ≤ t.criteria.gradientTolerance)
    (threshold : 0 ≤ t.criteria.tuning.acceptanceThreshold) {a : Advance ℝ σ m n}
    (h : t.Reaches l committed a) :
    committed.Pairwise fun later earlier => norm later.residuals ≤ norm earlier.residuals := by
  refine h.pairwise_of_step (fun first second => first.trans second) ?_
  intro committed r phase c h hc
  obtain ⟨factor, trust, rfl, answer, -, accepted, -⟩ := Run.committed?_eq_some hc
  exact (h.residuals_of_trial computes tolerance threshold answer).1 accepted

/-- Every evaluation of a run is hardly better than one that the run committed to. -/
theorem evaluation_bounded (computes : t.problem.Computes f)
    (tolerance : 0 ≤ t.criteria.gradientTolerance)
    (threshold : 0 ≤ t.criteria.tuning.acceptanceThreshold) {a : Advance ℝ σ m n}
    (h : t.Reaches l committed a)
    (unfaulted : ∀ finished fault, a = .ends finished → finished.result ≠ .error fault)
    {point written : Array ℝ} (hmem : .residuals point (some written) ∈ a.remains.history.calls) :
    ∃ c ∈ committed, (1 - t.criteria.tuning.acceptanceThreshold) * norm c.residuals ^ 2 ≤
      Scalar.norm written.toList ^ 2 := by
  have hshare (x : ℝ) : (1 - t.criteria.tuning.acceptanceThreshold) * x ^ 2 ≤ x ^ 2 :=
    mul_le_of_le_one_left (sq_nonneg x) (sub_le_self 1 threshold)
  have hnorm (v : Vec ℝ m) : Scalar.norm v.toArray.toList = norm v := by
    rw [Vec.toList_toArray]
    rfl
  induction h with
  | @start residuals answer =>
    refine ⟨_, List.mem_singleton_self _, ?_⟩
    obtain ⟨hmem, -⟩ := History.mem_calls.mp hmem
    have hsame := Array.mem_singleton.mp hmem
    rw [answer] at hsame
    cases hsame
    rw [hnorm]
    exact hshare _
  | @step committed r phase h ih =>
    rw [Array.mem_def, Run.calls_advance] at hmem
    rcases List.mem_append.mp hmem with hmem | hmem
    · obtain ⟨c, hc, hbound⟩ := ih (fun _ _ hends => nomatch hends) (Array.mem_def.mpr hmem)
      exact ⟨c, List.mem_append_right _ hc, hbound⟩
    · cases phase with
      | linearize matrix progress =>
        rcases List.mem_cons.mp hmem with hmem | hmem
        · cases hmem
        · obtain ⟨_, -, hmem⟩ := Option.map_eq_some_iff.mp (Option.mem_toList.mp hmem)
          cases hmem
      | attempt factor trust =>
        have hsame := List.mem_singleton.mp hmem
        rcases r.attempt_cases t factor trust with
          ⟨_, -, step⟩ | ⟨_, _, answer, -⟩ | ⟨_, -, -, step⟩ | ⟨residuals, answer, -⟩
        · exact absurd rfl (unfaulted _ _ step)
        · rw [answer] at hsame
          cases hsame
        · exact absurd rfl (unfaulted _ _ step)
        · obtain ⟨haccept, hreject⟩ := h.residuals_of_trial computes tolerance threshold answer
          rw [Run.committed?_of_done answer]
          rw [answer] at hsame
          cases hsame
          rw [hnorm]
          split
          · exact ⟨_, List.mem_cons_self .., hshare _⟩
          · rename_i hrejected
            obtain ⟨c, earlier, rfl, hat⟩ := h.at_head
            obtain rfl := hat.current_eq
            exact ⟨_, List.mem_cons_self .., hreject (Bool.not_eq_true _ ▸ hrejected)⟩

end Task.Reaches

/-- Closing a run calls for no residuals. -/
theorem Finished.residuals_of_close {f : Finished ℝ σ} {problem : Problem ℝ σ} {reportEvery : Nat}
    {point : Array ℝ} {written : Option (Array ℝ)}
    (h : .residuals point written ∈ (f.close problem reportEvery).history) :
    .residuals point written ∈ f.remains.history.calls := by
  obtain ⟨-, new, hhistory, hnew⟩ := f.close_extends problem reportEvery
  rw [hhistory] at h
  rcases Array.mem_append.mp h with h | h
  · exact History.mem_calls.mpr ⟨h, rfl⟩
  · rcases hnew _ (by simpa using h) with ⟨_, hclosing⟩ | ⟨_, hclosing⟩
    · cases hclosing
    · cases hclosing

/-- No evaluation that a minimization committed to has smaller residuals than its report. Those of
the other evaluations have a sum of squares that is smaller by no more than the acceptance threshold
allows. So with the threshold zero the report is the best of all. -/
theorem Settings.report_is_best_up_to_threshold (s : Settings ℝ) (problem : Problem ℝ σ)
    (state : σ) (x : Array ℝ) (workspace : Workspace ℝ)
    (valid : s.error? problem.residualCount x.size = none) (coherent : workspace.Coherent)
    (f : Vec ℝ x.size → Vec ℝ problem.residualCount) (computes : problem.Computes f)
    (residuals : Vec ℝ problem.residualCount)
    (first : (problem.residuals state x
      (workspace.prepared problem.residualCount x.size).residuals).answer =
        .done residuals.toArray) :
    let t := s.task problem x.size valid
    let out := s.minimizeWith problem state x workspace
    ∃ l committed, launch? state x workspace = some l ∧
      t.Reaches l committed (.ends (t.run l)) ∧
      ∀ report, out.result = .ok report →
        (∀ c ∈ committed, report.residualNorm ≤ norm c.residuals) ∧
        ∀ point written, .residuals point (some written) ∈ out.history →
          (1 - s.tuning.acceptanceThreshold) * report.residualNorm ^ 2 ≤
            Scalar.norm written.toList ^ 2 := by
  intro t out
  obtain ⟨l, launched, -, first⟩ := exists_launch?_of_first (t := t) coherent first
  obtain ⟨later, h⟩ := Task.reaches_run first
  refine ⟨l, _, launched, h, ?_⟩
  intro report hreport
  have hout : out = (t.run l).close problem s.reportEvery := minimizeWith_eq_close valid launched
  rw [hout] at hreport ⊢
  have tolerance : 0 ≤ t.criteria.gradientTolerance := zero_le_gradientTolerance valid
  have threshold : 0 ≤ t.criteria.tuning.acceptanceThreshold :=
    (Tuning.thresholds_of_error? (tuning_of_error? valid)).1
  have hbest : ∀ c ∈ later ++ [⟨l.point, residuals⟩], report.residualNorm ≤ norm c.residuals := by
    have hpairwise := h.pairwise_le computes tolerance threshold
    obtain ⟨last, earlier, heq, hat⟩ := h.at_head
    rw [heq] at hpairwise ⊢
    rw [((Finished.close_endsAt hat problem s.reportEvery).report_eq report hreport).2]
    intro c hc
    rcases List.mem_cons.mp hc with rfl | hc
    · exact le_rfl
    · exact (List.pairwise_cons.mp hpairwise).1 c hc
  refine ⟨hbest, ?_⟩
  intro point written hmem
  have unfaulted (fault : Fault) : (t.run l).result ≠ .error fault := by
    intro hfault
    exact nomatch hreport.symm.trans (Finished.close_of_error hfault)
  obtain ⟨c, hc, hbound⟩ := h.evaluation_bounded computes tolerance threshold
    (by rintro _ fault ⟨⟩; exact unfaulted fault) (Finished.residuals_of_close hmem)
  have hnonneg : 0 ≤ report.residualNorm := by
    obtain ⟨last, _, -, hat⟩ := h.at_head
    rw [((Finished.close_endsAt hat problem s.reportEvery).report_eq report hreport).2]
    exact zero_le_norm _
  have hsq : report.residualNorm ^ 2 ≤ norm c.residuals ^ 2 := by
    have := hbest c hc
    gcongr
  rcases le_total s.tuning.acceptanceThreshold 1 with hle | hge
  · exact (mul_le_mul_of_nonneg_left hsq (sub_nonneg.mpr hle)).trans hbound
  · exact (mul_nonpos_of_nonpos_of_nonneg (sub_nonpos.mpr hge) (sq_nonneg _)).trans (sq_nonneg _)

/-- A problem without state computes a function of the point. -/
theorem Problem.computes_ofFunctions (residualCount : Nat)
    (residuals : Array ℝ → Except Fault (Array ℝ))
    (jacobian : Array ℝ → Jacobian ℝ → Except Fault (Jacobian ℝ)) :
    ∃ f : Vec ℝ n → Vec ℝ m, (ofFunctions residualCount residuals jacobian).Computes f := by
  classical
  let f (x : Vec ℝ n) : Vec ℝ m :=
    if h : ∃ values : Vec ℝ m, residuals x.toArray = .ok values.toArray then h.choose
    else .fill m 0
  refine ⟨f, ?_, fun _ _ _ _ => trivial⟩
  intro _ x buffer written answer
  have hwritten : residuals x.toArray = .ok written.toArray := by
    change (Reply.ofExcept () (residuals x.toArray)).answer = _ at answer
    cases hresult : residuals x.toArray with
    | error fault =>
      rw [hresult] at answer
      cases answer
    | ok values =>
      rw [hresult] at answer
      exact congrArg Except.ok (Answer.done.inj answer)
  have hexists : ∃ values : Vec ℝ m, residuals x.toArray = .ok values.toArray := ⟨written, hwritten⟩
  have hchosen : residuals x.toArray = .ok (f x).toArray := by
    rw [show f x = hexists.choose from dif_pos hexists]
    exact hexists.choose_spec
  exact Vec.toArray_injective (Except.ok.inj (hwritten.symm.trans hchosen))

/-- In the valley of Rosenbrock from the origin. -/
theorem Settings.rosenbrock_report_is_best_up_to_threshold :
    let s : Settings ℝ := .standard
    let t := s.task Problems.rosenbrock 2 (error?_standard two_pos le_rfl)
    let out := s.minimizeWith Problems.rosenbrock () #[0, 0] (.zeros 2 2)
    ∃ l committed, launch? () #[0, 0] (.zeros 2 2) = some l ∧
      t.Reaches l committed (.ends (t.run l)) ∧
      ∀ report, out.result = .ok report →
        (∀ c ∈ committed, report.residualNorm ≤ norm c.residuals) ∧
        ∀ point written, .residuals point (some written) ∈ out.history →
          (1 - 0.0001) * report.residualNorm ^ 2 ≤ Scalar.norm written.toList ^ 2 := by
  intro s t out
  let residuals : Vec ℝ 2 := ⟨#v[10.0 * (0 - 0 * 0), 1 - 0]⟩
  obtain ⟨f, computes⟩ : ∃ f : Vec ℝ 2 → Vec ℝ 2,
      (Problems.rosenbrock : Problem ℝ Unit).Computes f :=
    Problem.computes_ofFunctions _ _ _
  exact report_is_best_up_to_threshold s Problems.rosenbrock () #[0, 0] (.zeros 2 2)
    (error?_standard two_pos le_rfl) (Workspace.coherent_zeros 2 2) f computes residuals rfl

def Outcome.IsBeaten (out : Outcome ℝ σ) : Prop :=
  ∃ report, out.result = .ok report ∧ ∃ point written,
    .residuals point (some written) ∈ out.history ∧
      Scalar.norm written.toList < report.residualNorm

/-- A rejected trial that ends its run leaves a report on the residuals at the old point, even if
its own are smaller. -/
theorem Settings.isBeaten_of_rejected {s : Settings ℝ} {problem : Problem ℝ σ} {state : σ}
    {x : Array ℝ} {workspace : Workspace ℝ} (valid : s.error? problem.residualCount x.size = none)
    (quiet : s.reportEvery = 0) {l : Launch ℝ σ problem.residualCount x.size}
    (launched : launch? state x workspace = some l)
    {committed : List (Evaluation ℝ problem.residualCount x.size)}
    {r : Run ℝ σ problem.residualCount x.size} {factor : Triangular ℝ problem.residualCount x.size}
    {trust : TrustRegion ℝ} {residuals : Vec ℝ problem.residualCount} :
    let t := s.task problem x.size valid
    let found := r.search t factor trust
    let reply := (r.proposed found).trialReply t
    let judged := ((r.proposed found).evaluated reply).judgement t trust found.damping residuals
    t.Reaches l committed (.continues r (.attempt factor trust)) →
    reply.answer = .done residuals.toArray → norm residuals < norm r.residuals →
    judged.2.accepted = false → (∃ termination, judged.2.termination = some termination) →
    (s.minimizeWith problem state x workspace).IsBeaten := by
  rintro t found reply judged h answer smaller rejected ⟨termination, ended⟩
  let tried := (r.proposed found).evaluated reply
  let stayed := tried.stayed residuals judged.1
  have hends : r.advance t (.attempt factor trust) = stayed.halt termination (some judged.1) := by
    refine (Run.attempt_of_done answer).trans ?_
    rcases tried.judge_cases t found.factor trust found.damping residuals with
      ⟨accepted, -⟩ | ⟨-, ⟨_, hother, step⟩ | ⟨goes, -⟩⟩
    · exact nomatch rejected.symm.trans accepted
    · obtain rfl := Option.some.inj (ended.symm.trans hother)
      exact step
    · exact nomatch ended.symm.trans goes
  have hout : s.minimizeWith problem state x workspace =
      stayed.remains.closed ⟨termination, some judged.1⟩ := by
    rw [minimizeWith_eq_close valid launched, quiet]
    rw [(h.run_eq rfl).trans (Run.complete_of_ends hends)]
    exact Finished.close_of_quiet rfl problem
  rw [hout]
  refine ⟨_, rfl, tried.buffers.trialPoint.toArray, residuals.toArray, ?_, ?_⟩
  · have hpushed : tried.history = (r.proposed found).history.push
        (.residuals tried.buffers.trialPoint.toArray (some residuals.toArray)) := by
      change Array.push _ _ = _
      rw [answer]
      rfl
    have hmem : .residuals tried.buffers.trialPoint.toArray (some residuals.toArray) ∈
        tried.history := hpushed ▸ Array.mem_push_self
    exact Array.mem_append_left _ (Array.mem_append_left _ hmem)
  · change _ < Scalar.norm r.residuals.toArray.toList
    rw [Vec.toList_toArray, Vec.toList_toArray]
    exact smaller

def Problems.bent (c : ℝ) : Problem ℝ Unit :=
  .ofFunctions 1
    (fun x => do
      let u ← component x 0
      return #[1 + u + c * (u * u)])
    (fun x jacobian => do
      let u ← component x 0
      jacobian.set 0 0 (1 + 2 * c * u))

theorem Problems.bent_residuals (c : ℝ) (x : Vec ℝ 1) (buffer : Array ℝ) :
    ((bent c).residuals () x.toArray buffer).answer =
      .done (Vec.fill 1 (1 + x 0 + c * (x 0 * x 0))).toArray := by
  have hcomponent : component x.toArray 0 = .ok (x 0) :=
    component_eq_ok (Nat.lt_of_lt_of_eq one_pos (Vec.size_toArray x).symm)
  change (Reply.ofExcept () ((component x.toArray 0).bind fun u =>
    .ok #[1 + u + c * (u * u)])).answer = _
  rw [hcomponent]
  rfl

theorem Problems.bent_jacobian (c : ℝ) (x : Vec ℝ 1) :
    ((bent c).jacobian () x.toArray ⟨1, 1, .fill 1 1 0⟩).answer =
      .done ⟨1, 1, .fill 1 1 (1 + 2 * c * x 0)⟩ := by
  have hcomponent : component x.toArray 0 = .ok (x 0) :=
    component_eq_ok (Nat.lt_of_lt_of_eq one_pos (Vec.size_toArray x).symm)
  change (Reply.ofExcept () ((component x.toArray 0).bind fun u =>
    Jacobian.set ⟨1, 1, .fill 1 1 0⟩ 0 0 (1 + 2 * c * u))).answer = _
  rw [hcomponent]
  rfl

/-- A problem with a memory: its residual is one in the first call and zero later. -/
def Problems.forgetful (slope : ℝ) : Problem ℝ Bool where
  residualCount := 1
  residuals called _ _ := ⟨true, .done #[if called then 0 else 1]⟩
  jacobian called _ _ := ⟨called, .done ⟨1, 1, .fill 1 1 slope⟩⟩

/-- In a wide trust region a search steps to the root of a linear model with value and slope one. -/
theorem Subproblem.search_of_unit {f : Triangular ℝ 1 1} {p : Subproblem ℝ 1} {estimate : ℝ}
    {oldStep : Vec ℝ 1} {buffers : SearchBuffers ℝ 1}
    (hm : f.Models p.projected (Mat.fill 1 1 1).toMatrix (Vec.fill 1 1).get)
    (regular : ∀ j, Arith.epsilon < |f.r j j|) (scaling : p.scaling.get = fun _ => 1)
    (wide : 1 - p.radius ≤ p.tuning.searchTolerance * p.radius) :
    (p.search f estimate oldStep buffers).step 0 = -1 := by
  have hfull (step : Vec ℝ 1) (h : f.IsStep p.scaling p.projected 0 step) : step 0 = -1 := by
    have hnormal := congrFun (h.normalOf_eq hm regular) 0
    simpa [normalOf, mulVec, dotProduct, Mat.toMatrix, scale, mul_apply] using hnormal
  have hdamping : (p.search f estimate oldStep buffers).damping = 0 := by
    refine damping_search_of_inside hm.injective fun step h => ?_
    have hlength : length (scale p.scaling.get step.get) = 1 := by
      rw [length_eq_sqrt, scaling, dotProduct, Fin.sum_univ_one, scale, hfull step h]
      norm_num
    rwa [hlength]
  exact hfull _ (hdamping ▸ (search_isSound hm.injective).isStep)

noncomputable def Settings.brief : Settings ℝ :=
  { Settings.standard with maxEvaluations := some 2, scaling := .fixed #[1] }

theorem Settings.error?_brief : brief.error? 1 1 = none := by
  simp [brief, error?, toleranceError?, isTolerance, isFactor, standard, standardTolerance,
    Scaling.error?, Tuning.error?_standard]
  norm_num

theorem Problems.bent_residuals_zero (c : ℝ) (buffer : Array ℝ) :
    ((bent c).residuals () #[0] buffer).answer = .done (Vec.fill 1 1).toArray := by
  refine (bent_residuals c (.ofArray #[0]) buffer).trans ?_
  change Answer.done (Vec.fill 1 (1 + 0 + c * (0 * 0))).toArray = _
  rw [mul_zero, mul_zero, add_zero, add_zero]

theorem Vec.get_ofArray_zero : (Vec.ofArray #[(0 : ℝ)]).get = 0 := by
  funext i
  fin_cases i
  rfl

/-- From the origin the first trial is the root of the linear model, however the residual bends. -/
theorem Settings.bent_first_trial (c : ℝ) :
    let t : Task ℝ Unit 1 1 := brief.task (Problems.bent c) 1 error?_brief
    ∃ l committed r factor trust, launch? () #[0] (.zeros 1 1) = some l ∧
      t.Reaches l committed (.continues r (.attempt factor trust)) ∧
      r.residuals = .fill 1 1 ∧ r.evaluations = 1 ∧ r.Linearized factor (.fill 1 1 1) ∧
      let found := r.search t factor trust
      found.step 0 = -1 ∧ (r.proposed found).buffers.trialPoint 0 = -1 := by
  intro t
  obtain ⟨l, launched, hpoint, first⟩ : ∃ l, launch? () #[0] (.zeros 1 1) = some l ∧
      l.point = .ofArray #[0] ∧ (l.reply t).answer = .done (Vec.fill 1 1).toArray :=
    exists_launch?_of_first (Workspace.coherent_zeros 1 1) (Problems.bent_residuals_zero c _)
  have horigin : l.point.get = 0 := hpoint ▸ Vec.get_ofArray_zero
  have second : ((l.started t (.fill 1 1)).jacobianReply t (.fill 1 1 0)).answer =
      .done ⟨1, 1, .fill 1 1 1⟩ := by
    refine (Problems.bent_jacobian c l.point).trans ?_
    rw [horigin, Pi.zero_apply, mul_zero, add_zero]
  have hgradient : (Mat.fill 1 1 1).toMatrix.col 0 ⬝ᵥ (Vec.fill 1 (1 : ℝ)).get ≠ 0 := by
    simp [dotProduct]
  obtain ⟨r, factor, trust, hfactorize, hreached⟩ :=
    Task.Reaches.first_attempt first second rfl rfl hgradient
  obtain ⟨-, hscaling, hradius⟩ := Run.of_factorize_at_origin hfactorize horigin
  obtain ⟨_, _, heq, hat⟩ := hreached.at_head
  cases heq
  have hresiduals : r.residuals = .fill 1 1 := congrArg Evaluation.residuals hat.current_eq
  have hlinearized : r.Linearized factor (.fill 1 1 1) := by
    refine Run.linearized_of_factorize ?_ hfactorize
    unfold Run.differentiated
    rw [second]
    exact History.lastJacobian?_push
  have hstep : (r.search t factor trust).step 0 = -1 := by
    refine Subproblem.search_of_unit (hresiduals ▸ hlinearized.2) (fun j => ?_) ?_ ?_
    · rw [Run.factor_of_factorize hfactorize, abs_r_single, abs_one]
      exact Arith.epsilon_lt_one
    · rw [Run.subproblem, hscaling]
      funext i
      fin_cases i
      rfl
    · change 1 - trust.radius ≤ 0.1 * trust.radius
      rw [hradius]
      norm_num [t, brief, task, standard]
  refine ⟨l, _, r, factor, trust, launched, hreached, hresiduals,
    (Run.factorize_continues hfactorize).1, hlinearized, hstep, ?_⟩
  have hzero : r.point 0 = 0 :=
    (congrArg (Evaluation.point · 0) hat.current_eq).trans (congrFun horigin 0)
  refine (Vec.ofFn_apply _ 0).trans ?_
  rw [hzero, hstep, zero_add]

/-- A residual that is bent so much that its first trial gains too little to be accepted. -/
theorem Settings.bent_isBeaten {c : ℝ} (hpos : 0 < c) (hsmall : c < 1)
    (hgain : 1 - c * c < 0.0001) :
    (brief.minimizeWith (Problems.bent c) () #[0] (.zeros 1 1)).IsBeaten := by
  obtain ⟨l, _, r, factor, trust, launched, hreached, hresiduals, hevaluations, hlinearized, hstep,
    hpoint⟩ := bent_first_trial c
  let t : Task ℝ Unit 1 1 := brief.task (Problems.bent c) 1 error?_brief
  let found := r.search t factor trust
  let tried := r.proposed found
  have answer : (tried.trialReply t).answer = .done (Vec.fill 1 c).toArray := by
    refine (Problems.bent_residuals c tried.buffers.trialPoint r.trialResiduals).trans ?_
    rw [hpoint, show 1 + -1 + c * (-1 * -1) = c by ring]
  have hnorm : norm r.residuals = 1 := by
    rw [hresiduals, norm_single, Vec.fill_apply, abs_one]
  have hnorm' : norm (Vec.fill 1 c) = c := by
    rw [norm_single, Vec.fill_apply, abs_of_pos hpos]
  have hsmaller : norm (Vec.fill 1 c) < norm r.residuals := by
    rwa [hnorm, hnorm']
  let trial := (tried.evaluated (tried.trialReply t)).trial t found.damping (norm (Vec.fill 1 c))
  have hpredicted : trial.predictedReduction 1 = 1 := by
    have hlength : length r.residuals.get = 1 := (norm_eq_length _).symm.trans hnorm
    have hsolved : r.residuals.get + (Mat.fill 1 1 1).toMatrix *ᵥ found.step.get = 0 := by
      rw [hresiduals]
      funext i
      fin_cases i
      simp [mulVec, dotProduct, Mat.toMatrix, found, t, hstep]
    have hmodel : trial.predictedReduction (length r.residuals.get) =
        1 - length (r.residuals.get + (Mat.fill 1 1 1).toMatrix *ᵥ found.step.get) ^ 2 /
          length r.residuals.get ^ 2 :=
      (hlinearized.predictions (hlength.symm ▸ one_pos) (tried.trialReply t) _).1
    rw [hlength, hsolved, length_zero] at hmodel
    exact hmodel.trans (by norm_num)
  have hactual : trial.actualReduction 1 = 1 - c * c := by
    have hresidual : trial.residualNorm = c := hnorm'
    have htenth : 0.1 * c < 1 := by
      norm_num
      linarith
    rw [Trial.actualReduction, hresidual, if_pos htenth, div_one]
  have hratio : trial.gainRatio trust.residualNorm < 0.0001 := by
    rwa [show trust.residualNorm = 1 from hreached.residualNorm_eq.trans hnorm, Trial.gainRatio,
      hpredicted, hactual, if_neg (by norm_num), div_one]
  have hexhausted : trial.budgetExhausted = true := by
    apply decide_eq_true
    change 2 ≤ r.evaluations + 1
    rw [hevaluations]
  exact isBeaten_of_rejected error?_brief rfl launched hreached answer hsmaller
    (decide_eq_false (not_le.mpr hratio)) (Option.isSome_iff_exists.mp
      (TrustRegion.judge_termination_isSome_of_budgetExhausted hexhausted))

/-- A derivative that counts as zero leads back to the start, where a problem with a memory finds
other residuals. -/
theorem Settings.forgetful_isBeaten :
    (standard.minimizeWith (Problems.forgetful (2 ^ (-60 : ℤ))) false #[0]
      (.zeros 1 1)).IsBeaten := by
  have valid : (standard : Settings ℝ).error? 1 1 = none := error?_standard one_pos le_rfl
  let t : Task ℝ Bool 1 1 := standard.task (Problems.forgetful (2 ^ (-60 : ℤ))) 1 valid
  obtain ⟨l, launched, hpoint, first⟩ : ∃ l, launch? false #[0] (.zeros 1 1) = some l ∧
      l.point = .ofArray #[0] ∧ (l.reply t).answer = .done (Vec.fill 1 1).toArray :=
    exists_launch?_of_first (Workspace.coherent_zeros 1 1) rfl
  have hgradient :
      (Mat.fill 1 1 (2 ^ (-60 : ℤ))).toMatrix.col 0 ⬝ᵥ (Vec.fill 1 (1 : ℝ)).get ≠ 0 := by
    simp [dotProduct]
  obtain ⟨r, factor, trust, hfactorize, hreached⟩ :=
    Task.Reaches.first_attempt first rfl rfl rfl hgradient
  have horigin : l.point.get = 0 := hpoint ▸ Vec.get_ofArray_zero
  obtain ⟨hproblem, -, hradius⟩ := Run.of_factorize_at_origin hfactorize horigin
  obtain ⟨_, _, heq, hat⟩ := hreached.at_head
  cases heq
  have hresiduals : r.residuals = .fill 1 1 := congrArg Evaluation.residuals hat.current_eq
  obtain ⟨jacobian, hlinearized⟩ := hreached.linearized rfl
  have hblind : ¬factor.SeesGradient jacobian.toMatrix r.residuals.get := by
    rw [Run.factor_of_factorize hfactorize]
    exact Triangular.not_seesGradient abs_r_tiny
  let found := r.search t factor trust
  have hstill : found.step.get = 0 := by
    refine Subproblem.search_step_eq_zero hlinearized.2 hblind ?_
      (Tuning.searchTolerance_pos Tuning.error?_standard)
    change 0 < trust.radius
    rw [hradius]
    norm_num [t, task, standard]
  let tried := r.proposed found
  have answer : (tried.trialReply t).answer = .done (Vec.fill 1 0).toArray := by
    change Answer.done #[if r.problem then (0 : ℝ) else 1] = _
    rw [hproblem]
    rfl
  have hsmaller : norm (Vec.fill 1 0) < norm r.residuals := by
    rw [hresiduals, norm_single, norm_single, Vec.fill_apply, Vec.fill_apply]
    norm_num
  let trial := (tried.evaluated (tried.trialReply t)).trial t found.damping (norm (Vec.fill 1 0))
  obtain ⟨hstep, hlinear⟩ : trial.stepNorm = 0 ∧ trial.linearNorm = 0 :=
    Run.trial_of_still hstill _ _
  have hrejected : ¬0.0001 ≤ trial.gainRatio trust.residualNorm := by
    rw [Trial.gainRatio, Trial.predictedReduction_of_still hstep hlinear, if_pos (by simp)]
    norm_num
  refine isBeaten_of_rejected valid rfl launched hreached answer hsmaller
    (decide_eq_false hrejected) ?_
  refine TrustRegion.termination_of_still ?_ ?_ (hreached.pointNorm_nonneg rfl trust rfl)
    (zero_le_norm _) hstep hlinear
  · norm_num [t, task, criteria, standard, Tuning.standard]
  · norm_num [t, task, criteria, standard, standardTolerance]

/-- A report may be beaten, whether its residuals are a function of the point and a rejected trial
gained too little, or whether they change at one point. -/
theorem Settings.rejected_trials_beat_reports :
    let bent := Problems.bent (1 - 1 / 2 ^ 20)
    let forgetful := Problems.forgetful (2 ^ (-60 : ℤ))
    (brief.error? 1 1 = none ∧ (∃ f : Vec ℝ 1 → Vec ℝ 1, bent.Computes f) ∧
      (bent.residuals () #[0] #[0]).answer = .done #[1] ∧
      (brief.minimizeWith bent () #[0] (.zeros 1 1)).IsBeaten) ∧
    (standard : Settings ℝ).error? 1 1 = none ∧
      (forgetful.residuals false #[0] #[0]).answer = .done #[1] ∧
      (standard.minimizeWith forgetful false #[0] (.zeros 1 1)).IsBeaten := by
  intro bent forgetful
  refine ⟨⟨error?_brief, Problem.computes_ofFunctions _ _ _, Problems.bent_residuals_zero _ _, ?_⟩,
    error?_standard one_pos le_rfl, rfl, forgetful_isBeaten⟩
  exact bent_isBeaten (by norm_num) (by norm_num) (by norm_num)

end LeastSquares
