import LeastSquares.Proofs.Calls
import LeastSquares.Proofs.Units

namespace LeastSquares

open Matrix

variable {σ : Type} {m n : Nat}

/-- Scaled lengths are the same in all units. -/
theorem scaledNorm_units {c : Fin n → ℝ} {d d' x x' : Vec ℝ n} (hd : d'.get = scale c d.get)
    (hx : scale c x'.get = x.get) : scaledNorm d' x' = scaledNorm d x := by
  rw [scaledNorm_eq_length, scaledNorm_eq_length, hd, ← hx]
  congr 1
  funext i
  unfold scale
  ring

def Answer.map {β γ : Type} (f : β → γ) : Answer β → Answer γ
  | .done output => .done (f output)
  | .aborted abort output => .aborted abort (f output)
  | .faulted fault => .faulted fault

def Reply.map {β γ : Type} (f : β → γ) (r : Reply σ β) : Reply σ γ :=
  ⟨r.state, r.answer.map f⟩

theorem Answer.output?_map {β γ : Type} (f : β → γ) (a : Answer β) :
    (a.map f).output? = a.output?.map f := by
  cases a <;> rfl

noncomputable def Problem.inUnits (p : Problem ℝ σ) (u : Units) : Problem ℝ σ where
  residualCount := p.residualCount
  residuals s y buffer := p.residuals s (u.restore y) buffer
  jacobian s y given := (p.jacobian s (u.restore y) given).map u.jacobian
  report s iteration y values := p.report s iteration (u.restore y) values

noncomputable def Task.inUnits (t : Task ℝ σ m n) (u : Units) : Task ℝ σ m n :=
  { t with problem := t.problem.inUnits u }

noncomputable def Launch.inUnits (l : Launch ℝ σ m n) (u : Units) : Launch ℝ σ m n :=
  { l with point := u.measured l.point }

noncomputable def Run.inUnits (r : Run ℝ σ m n) (u : Units) (buffers : Buffers ℝ m n)
    (history : History ℝ) : Run ℝ σ m n :=
  { r with point := u.measured r.point, buffers, history }

noncomputable def Event.inUnits (u : Units) : Event ℝ → Event ℝ
  | residuals point written => residuals (u.measure point) written
  | jacobian point given written => jacobian (u.measure point) given (written.map u.jacobian)
  | report iteration point values => report iteration (u.measure point) values
  | log record => log record

def History.InUnits (u : Units) (h h' : History ℝ) : Prop :=
  h'.calls.toList = h.calls.toList.map (Event.inUnits u)

namespace History.InUnits

variable {u : Units} {h h' : History ℝ}

theorem push (same : h.InUnits u h') {e : Event ℝ} (call : e.record? = none) :
    InUnits u (h.push e) (h'.push (e.inUnits u)) := by
  have call' : (e.inUnits u).record? = none := by
    cases e with
    | log => cases call
    | residuals => rfl
    | jacobian => rfl
    | report => rfl
  rw [InUnits, calls_push _ _ call', calls_push _ _ call, List.map_append, same]
  rfl

theorem log (same : h.InUnits u h') (records records' : List (LogRecord ℝ)) :
    InUnits u (h ++ (records.map Event.log).toArray) (h' ++ (records'.map Event.log).toArray) := by
  rw [InUnits, calls_log, calls_log]
  exact same

end History.InUnits

/-- Whether two runs leave the same behind, each in its own units and with its own buffers. -/
structure Remains.InUnits (u : Units) (r r' : Remains ℝ σ) : Prop where
  problem : r'.problem = r.problem
  point : r'.point = u.measure r.point
  residuals : r'.workspace.residuals = r.workspace.residuals
  evaluations : r'.evaluations = r.evaluations
  jacobianEvaluations : r'.jacobianEvaluations = r.jacobianEvaluations
  calls : r.history.InUnits u r'.history

structure Halt.Matches (h h' : Halt ℝ) : Prop where
  termination : h'.termination = h.termination
  iteration : h'.iteration = h.iteration

structure Finished.InUnits (u : Units) (f f' : Finished ℝ σ) : Prop where
  fault : ∀ fault, f.result = .error fault → f'.result = .error fault
  halt : ∀ halt, f.result = .ok halt → ∃ halt', f'.result = .ok halt' ∧ halt.Matches halt'
  remains : f.remains.InUnits u f'.remains

structure Outcome.InUnits (u : Units) (out out' : Outcome ℝ σ) : Prop where
  result : out'.result = out.result
  point : out'.point = u.measure out.point
  problem : out'.problem = out.problem
  calls : out.history.InUnits u out'.history

/-- What the next steps of two runs have in common: the scaling factors, once there are any, and the
linear model of a trial, each in its own units. The rest of the buffers is written before it is
read. -/
inductive Phase.InUnits (u : Units) (r : Run ℝ σ m n) (b : Buffers ℝ m n) :
    Phase ℝ m n → Phase ℝ m n → Prop
  | linearize {matrix : Mat ℝ m n} {progress : Progress ℝ}
    (scaling : progress.trust?.isSome → b.scaling.get = scale (u.sizes n) r.buffers.scaling.get) :
    InUnits u r b (.linearize matrix progress) (.linearize matrix progress)
  | attempt {factor factor' : Triangular ℝ m n} {trust trust' : TrustRegion ℝ}
    {a : Matrix (Fin m) (Fin n) ℝ} (same : trust' = trust)
    (scaling : b.scaling.get = scale (u.sizes n) r.buffers.scaling.get)
    (models : factor.Models r.buffers.projected a r.residuals.get)
    (models' : factor'.Models b.projected (a * diagonal (u.sizes n)) r.residuals.get) :
    InUnits u r b (.attempt factor trust) (.attempt factor' trust')

inductive Advance.InUnits (u : Units) : Advance ℝ σ m n → Advance ℝ σ m n → Prop
  | continues {r : Run ℝ σ m n} {phase phase' : Phase ℝ m n} {b : Buffers ℝ m n} {h : History ℝ}
    (calls : r.history.InUnits u h) (same : phase.InUnits u r b phase') :
    InUnits u (.continues r phase) (.continues (r.inUnits u b h) phase')
  | ends {f f' : Finished ℝ σ} (h : f.InUnits u f') : InUnits u (.ends f) (.ends f')

namespace Run

variable {u : Units} {t : Task ℝ σ m n} {r : Run ℝ σ m n} {b : Buffers ℝ m n} {h : History ℝ}

theorem remains_inUnits (calls : r.history.InUnits u h) :
    r.remains.InUnits u (r.inUnits u b h).remains :=
  ⟨rfl, u.toArray_measured r.point, rfl, rfl, rfl, calls⟩

theorem fault_inUnits (calls : r.history.InUnits u h) (b : Buffers ℝ m n) (fault : Fault) :
    (r.fault fault).InUnits u ((r.inUnits u b h).fault fault) :=
  .ends ⟨fun _ hfault => hfault, (fun _ hhalt => nomatch hhalt), remains_inUnits calls⟩

theorem halt_inUnits (calls : r.history.InUnits u h) (b : Buffers ℝ m n) (termination : Termination)
    {trust trust' : Option (TrustRegion ℝ)}
    (same : Halt.iteration ⟨termination, trust'⟩ = Halt.iteration ⟨termination, trust⟩) :
    (r.halt termination trust).InUnits u ((r.inUnits u b h).halt termination trust') := by
  refine .ends ⟨(fun _ hfault => nomatch hfault), fun halt hhalt => ?_, remains_inUnits calls⟩
  cases hhalt
  exact ⟨_, rfl, rfl, same⟩

theorem jacobianReply_inUnits (matrix : Mat ℝ m n) :
    (r.inUnits u b h).jacobianReply (t.inUnits u) matrix =
      (r.jacobianReply t matrix).map u.jacobian := by
  change ((t.problem.jacobian r.problem (u.restore (u.measured r.point).toArray) _).map _) = _
  rw [u.toArray_measured, u.restore_measure]
  rfl

theorem reportReply_inUnits (iteration : Nat) :
    (r.inUnits u b h).reportReply (t.inUnits u) iteration = r.reportReply t iteration := by
  change t.problem.report r.problem iteration (u.restore (u.measured r.point).toArray) _ = _
  rw [u.toArray_measured, u.restore_measure]
  rfl

theorem trialReply_inUnits (htrial : b.trialPoint = u.measured r.buffers.trialPoint) :
    (r.inUnits u b h).trialReply (t.inUnits u) = r.trialReply t := by
  change t.problem.residuals r.problem (u.restore b.trialPoint.toArray) r.trialResiduals = _
  rw [htrial, u.toArray_measured, u.restore_measure]
  rfl

theorem differentiated_inUnits (calls : r.history.InUnits u h) (b : Buffers ℝ m n)
    (matrix : Mat ℝ m n) (reply : Reply σ (Jacobian ℝ)) :
    ∃ h', (r.differentiated matrix reply).history.InUnits u h' ∧
      (r.inUnits u b h).differentiated matrix (reply.map u.jacobian) =
        (r.differentiated matrix reply).inUnits u b h' := by
  refine ⟨_, calls.push (e := .jacobian r.point.toArray ⟨m, n, matrix⟩ reply.answer.output?) rfl,
    ?_⟩
  unfold differentiated inUnits Event.inUnits
  simp only [Reply.map, Answer.output?_map, u.toArray_measured]

theorem reported_inUnits (calls : r.history.InUnits u h) (b : Buffers ℝ m n) (iteration : Nat)
    (reply : Reply σ Unit) :
    ∃ h', (r.reported iteration reply).history.InUnits u h' ∧
      (r.inUnits u b h).reported iteration reply = (r.reported iteration reply).inUnits u b h' := by
  refine ⟨_, calls.push (e := .report iteration r.point.toArray r.residuals.toArray) rfl, ?_⟩
  unfold reported inUnits Event.inUnits
  simp only [u.toArray_measured]

theorem evaluated_inUnits (calls : r.history.InUnits u h)
    (htrial : b.trialPoint = u.measured r.buffers.trialPoint) (reply : Reply σ (Array ℝ)) :
    ∃ h', (r.evaluated reply).history.InUnits u h' ∧
      (r.inUnits u b h).evaluated reply = (r.evaluated reply).inUnits u b h' := by
  refine ⟨_, calls.push (e := .residuals r.buffers.trialPoint.toArray reply.answer.output?) rfl,
    ?_⟩
  unfold evaluated inUnits Event.inUnits
  simp only [htrial, u.toArray_measured]

variable {columnNorms columnNorms' scaling scaling' : Vec ℝ n}

theorem initialScaling_of_adaptive (adaptive : t.fixedScaling = none)
    (columns : ∀ j, columnNorms j ≠ 0) : initialScaling t columnNorms = columnNorms := by
  ext j
  unfold initialScaling
  rw [adaptive]
  refine (Vec.map_apply _ _ j).trans (if_neg ?_)
  simpa using columns j

theorem raisedScaling_inUnits (adaptive : t.fixedScaling = none)
    (norms : columnNorms'.get = scale (u.sizes n) columnNorms.get)
    (factors : scaling'.get = scale (u.sizes n) scaling.get) :
    (raisedScaling (t.inUnits u) scaling' columnNorms').get =
      scale (u.sizes n) (raisedScaling t scaling columnNorms).get := by
  have hraised {t : Task ℝ σ m n} (adaptive : t.fixedScaling = none) (scaling columnNorms : Vec ℝ n)
      (j : Fin n) : (raisedScaling t scaling columnNorms).get j =
        max (scaling j) (columnNorms j) := by
    unfold raisedScaling
    rw [adaptive]
    exact (Vec.ofFn_apply _ j).trans (Arith.maxNum_real _ _)
  funext j
  have hnorm : columnNorms' j = u.size j * columnNorms j := congrFun norms j
  have hfactor : scaling' j = u.size j * scaling j := congrFun factors j
  refine (hraised (t := t.inUnits u) adaptive scaling' columnNorms' j).trans ?_
  rw [hnorm, hfactor, scale, hraised adaptive]
  exact (mul_max_of_nonneg _ _ (u.size_pos j).le).symm

/-- A new factorization without zero columns goes on with the same trust region. -/
theorem resumed_inUnits (adaptive : t.fixedScaling = none) {progress : Progress ℝ}
    (norms : columnNorms'.get = scale (u.sizes n) columnNorms.get)
    (columns : ∀ j, columnNorms j ≠ 0)
    (factors : progress.trust?.isSome → b.scaling.get = scale (u.sizes n) r.buffers.scaling.get) :
    let resumed := r.resumed t columnNorms progress
    let resumed' := (r.inUnits u b h).resumed (t.inUnits u) columnNorms' progress
    resumed'.1 = resumed.1 ∧ resumed'.2.get = scale (u.sizes n) resumed.2.get := by
  cases progress with
  | underway trust => exact ⟨rfl, factors rfl⟩
  | fresh residualNorm =>
    have columns' (j : Fin n) : columnNorms' j ≠ 0 := by
      have hnorm : columnNorms' j = u.size j * columnNorms j := congrFun norms j
      rw [hnorm]
      exact mul_ne_zero (u.size_pos j).ne' (columns j)
    have hinitial := initialScaling_of_adaptive adaptive columns
    have hinitial' : initialScaling (t.inUnits u) columnNorms' = columnNorms' :=
      initialScaling_of_adaptive (t := t.inUnits u) adaptive columns'
    have hpoint : scaledNorm columnNorms' (u.measured r.point) = scaledNorm columnNorms r.point :=
      scaledNorm_units norms (u.scale_measured r.point)
    intro resumed resumed'
    have hresumed : resumed =
        (TrustRegion.initial t.stepBound (scaledNorm columnNorms r.point) residualNorm,
          columnNorms) := by
      change (TrustRegion.initial t.stepBound (scaledNorm (initialScaling t columnNorms) r.point)
        residualNorm, initialScaling t columnNorms) = _
      rw [hinitial]
    have hresumed' : resumed' =
        (TrustRegion.initial t.stepBound (scaledNorm columnNorms r.point) residualNorm,
          columnNorms') := by
      change (TrustRegion.initial t.stepBound (scaledNorm (initialScaling (t.inUnits u)
        columnNorms') (u.measured r.point)) residualNorm,
          initialScaling (t.inUnits u) columnNorms') = _
      rw [hinitial', hpoint]
    rw [hresumed, hresumed']
    exact ⟨rfl, norms⟩

theorem iteration_resumed (t : Task ℝ σ m n) (r : Run ℝ σ m n) (columnNorms : Vec ℝ n)
    (progress : Progress ℝ) :
    (r.resumed t columnNorms progress).1.iteration = progress.iteration := by
  cases progress <;> rfl

theorem factorize_inUnits (adaptive : t.fixedScaling = none) (calls : r.history.InUnits u h)
    {jacobian : Mat ℝ m n} {progress : Progress ℝ}
    (factors : progress.trust?.isSome → b.scaling.get = scale (u.sizes n) r.buffers.scaling.get)
    (regular : ∀ r' factor trust,
      r.factorize t jacobian progress = .continues r' (.attempt factor trust) → factor.IsRegular) :
    (r.factorize t jacobian progress).InUnits u
      ((r.inUnits u b h).factorize (t.inUnits u) (u.derivatives jacobian) progress) := by
  have hsize := t.size_le
  let qr := QR.factorize true jacobian
  let qr' := QR.factorize true (u.derivatives jacobian)
  have norms : qr'.columnNorms.get = scale (u.sizes n) qr.columnNorms.get :=
    funext (QR.columnNorms_derivatives u jacobian)
  have hgradient : (qr'.triangular hsize).gradientNorm
        ((qr'.applyTranspose r.residuals).leading hsize) qr'.columnNorms
          ((r.inUnits u b h).resumed (t.inUnits u) qr'.columnNorms progress).1.residualNorm =
      (qr.triangular hsize).gradientNorm ((qr.applyTranspose r.residuals).leading hsize)
        qr.columnNorms (r.resumed t qr.columnNorms progress).1.residualNorm := by
    rw [residualNorm_resumed, residualNorm_resumed]
    exact Triangular.gradientNorm_derivatives u jacobian r.residuals hsize _
  have announced (trust trust' : TrustRegion ℝ) (scaling scaling' : Vec ℝ n) :
      ((r.factored t qr scaling).announced trust).history.InUnits u
        (((r.inUnits u b h).factored (t.inUnits u) qr' scaling').announced trust').history :=
    calls.log _ _
  rcases r.factorize_cases t jacobian progress with ⟨small, step⟩ | ⟨large, step⟩ <;>
    rcases (r.inUnits u b h).factorize_cases (t.inUnits u) (u.derivatives jacobian) progress with
      ⟨small', step'⟩ | ⟨large', step'⟩
  · rw [step, step']
    refine halt_inUnits (r := (r.factored t qr _).announced _) (announced _ _ _ _) _ _ ?_
    exact (iteration_resumed _ _ _ _).trans (iteration_resumed _ _ _ _).symm
  · exact absurd (hgradient.trans_le small) large'
  · exact absurd (hgradient.symm.trans_le small') large
  · have columns := QR.columnNorms_ne_zero (regular _ _ _ step)
    obtain ⟨hresumed, hscaling⟩ := resumed_inUnits (h := h) adaptive norms columns factors
    rw [step, step']
    refine .continues (announced _ _ _ _) (.attempt ?_
      (raisedScaling_inUnits adaptive norms hscaling)
      (QR.models_factorize true jacobian r.residuals hsize) ?_)
    · exact congrArg₂ (fun (trust : TrustRegion ℝ) gradientNorm => { trust with gradientNorm })
        hresumed hgradient
    · rw [← u.toMatrix_derivatives]
      exact QR.models_factorize true (u.derivatives jacobian) r.residuals hsize

theorem inform_inUnits (adaptive : t.fixedScaling = none) (calls : r.history.InUnits u h)
    {jacobian : Mat ℝ m n} {progress : Progress ℝ}
    (factors : progress.trust?.isSome → b.scaling.get = scale (u.sizes n) r.buffers.scaling.get)
    (regular : ∀ r' factor trust,
      r.inform t jacobian progress = .continues r' (.attempt factor trust) → factor.IsRegular) :
    (r.inform t jacobian progress).InUnits u
      ((r.inUnits u b h).inform (t.inUnits u) (u.derivatives jacobian) progress) := by
  obtain ⟨h', calls', told⟩ :=
    reported_inUnits calls b progress.iteration (r.reportReply t progress.iteration)
  rcases r.inform_cases t jacobian progress with ⟨due, step⟩ | ⟨due, cases⟩
  · have step' : (r.inUnits u b h).inform (t.inUnits u) (u.derivatives jacobian) progress =
        (r.inUnits u b h).factorize (t.inUnits u) (u.derivatives jacobian) progress :=
      if_neg (Bool.not_eq_true _ ▸ due)
    rw [step']
    rw [step] at regular ⊢
    exact factorize_inUnits adaptive calls factors regular
  · have step' : (r.inUnits u b h).inform (t.inUnits u) (u.derivatives jacobian) progress = _ :=
      if_pos due
    dsimp only at step'
    rw [reportReply_inUnits, told] at step'
    rcases cases with ⟨fault, answer, step⟩ | ⟨abort, _, answer, step⟩ | ⟨answer, step⟩ <;>
      rw [answer] at step' <;> rw [step', step]
    · exact fault_inUnits calls' b fault
    · exact halt_inUnits calls' b _ rfl
    · exact factorize_inUnits adaptive calls' factors (step ▸ regular)

theorem linearize_inUnits (adaptive : t.fixedScaling = none) (calls : r.history.InUnits u h)
    {matrix : Mat ℝ m n} {progress : Progress ℝ}
    (factors : progress.trust?.isSome → b.scaling.get = scale (u.sizes n) r.buffers.scaling.get)
    (regular : ∀ r' factor trust,
      r.linearize t matrix progress = .continues r' (.attempt factor trust) → factor.IsRegular) :
    (r.linearize t matrix progress).InUnits u
      ((r.inUnits u b h).linearize (t.inUnits u) matrix progress) := by
  obtain ⟨h', calls', called⟩ :=
    differentiated_inUnits calls b matrix (r.jacobianReply t matrix)
  have step' : (r.inUnits u b h).linearize (t.inUnits u) matrix progress = _ := rfl
  conv_rhs at step' => unfold linearize
  dsimp only at step'
  rw [jacobianReply_inUnits, called] at step'
  rcases r.linearize_cases t matrix progress with
    ⟨fault, answer, step⟩ | ⟨abort, _, answer, step⟩ | ⟨written, answer, shape, step⟩ |
    ⟨jacobian, answer, step⟩ <;>
    simp only [Reply.map, answer, Answer.map] at step' <;> rw [step', step]
  · exact fault_inUnits calls' b fault
  · exact halt_inUnits calls' b _ rfl
  · rw [u.toMat?_jacobian, shape]
    exact fault_inUnits calls' b _
  · rw [u.toMat?_jacobian, Jacobian.toMat?_mk]
    exact inform_inUnits adaptive calls' factors (step ▸ regular)

end Run

structure Buffers.SharesTrial (u : Units) (b b' : Buffers ℝ m n) : Prop where
  scaling : b'.scaling.get = scale (u.sizes n) b.scaling.get
  step : scale (u.sizes n) b'.step.get = b.step.get
  trialPoint : b'.trialPoint = u.measured b.trialPoint
  linearChange : norm b'.linearChange = norm b.linearChange

namespace Run

variable {u : Units} {t : Task ℝ σ m n} {r : Run ℝ σ m n} {b : Buffers ℝ m n} {h : History ℝ}
  {factor factor' : Triangular ℝ m n} {trust : TrustRegion ℝ} {a : Matrix (Fin m) (Fin n) ℝ}

/-- The searches of two trials match. -/
theorem search_inUnits (scaling : b.scaling.get = scale (u.sizes n) r.buffers.scaling.get)
    (models : factor.Models r.buffers.projected a r.residuals.get)
    (models' : factor'.Models b.projected (a * diagonal (u.sizes n)) r.residuals.get)
    (regular : factor.IsRegular) (regular' : factor'.IsRegular) :
    (r.search t factor trust).Matches (u.sizes n)
      ((r.inUnits u b h).search (t.inUnits u) factor' trust) := by
  have hmatches : (r.subproblem t trust).Matches (u.sizes n) a r.residuals.get
      ((r.inUnits u b h).subproblem (t.inUnits u) trust) factor factor' :=
    ⟨u.sizes_ne_zero, models, models', regular, regular', scaling, rfl, rfl⟩
  exact hmatches.search _ _ _ _ _

theorem judgement_inUnits (shares : r.buffers.SharesTrial u b) (damping : ℝ) (residuals : Vec ℝ m) :
    (r.inUnits u b h).judgement (t.inUnits u) trust damping residuals =
      r.judgement t trust damping residuals := by
  have htrial : (r.inUnits u b h).trial (t.inUnits u) damping (norm residuals) =
      r.trial t damping (norm residuals) := by
    have hstep : scaledNorm b.scaling b.step = scaledNorm r.buffers.scaling r.buffers.step :=
      scaledNorm_units shares.scaling shares.step
    have hpoint : scaledNorm b.scaling b.trialPoint =
        scaledNorm r.buffers.scaling r.buffers.trialPoint :=
      scaledNorm_units shares.scaling (shares.trialPoint ▸ u.scale_measured _)
    unfold Run.trial inUnits
    rw [hstep, hpoint, shares.linearChange]
    rfl
  unfold judgement
  rw [htrial]
  rfl

theorem judge_inUnits (calls : r.history.InUnits u h) (shares : r.buffers.SharesTrial u b)
    (models : factor.Models r.buffers.projected a r.residuals.get)
    (models' : factor'.Models b.projected (a * diagonal (u.sizes n)) r.residuals.get)
    (damping : ℝ) (residuals : Vec ℝ m) :
    (r.judge t factor trust damping residuals).InUnits u
      ((r.inUnits u b h).judge (t.inUnits u) factor' trust damping residuals) := by
  have hmoved : (r.inUnits u b h).moved residuals = (r.moved residuals).inUnits u b h := by
    unfold moved inUnits
    rw [shares.trialPoint]
  unfold judge
  rw [judgement_inUnits shares]
  generalize r.judgement t trust damping residuals = judged
  have stayed : (r.stayed residuals judged.1).history.InUnits u
      ((r.inUnits u b h).stayed residuals judged.1).history := calls.log _ _
  dsimp only
  rw [hmoved]
  cases judged.2.accepted with
  | true =>
    simp only [if_true]
    split
    · exact halt_inUnits (r := r.moved residuals) calls b _ rfl
    · exact .continues (r := r.moved residuals) calls (.linearize fun _ => shares.scaling)
  | false =>
    simp only [Bool.false_eq_true, if_false]
    split
    · exact halt_inUnits (r := r.stayed residuals judged.1) stayed b _ rfl
    · exact .continues (r := r.stayed residuals judged.1) stayed
        (.attempt rfl shares.scaling models models')

/-- The trial points are the same, each in its own units, and so is what they are judged by. -/
theorem proposed_inUnits (calls : r.history.InUnits u h)
    (scaling : b.scaling.get = scale (u.sizes n) r.buffers.scaling.get)
    (models : factor.Models r.buffers.projected a r.residuals.get)
    (models' : factor'.Models b.projected (a * diagonal (u.sizes n)) r.residuals.get)
    {found found' : SearchOutcome ℝ m n} (same : found.Matches (u.sizes n) found')
    (sound : found.IsSound factor (r.subproblem t trust))
    (sound' : found'.IsSound factor' ((r.inUnits u b h).subproblem (t.inUnits u) trust)) :
    ∃ b' h', (r.proposed found).history.InUnits u h' ∧
      (r.inUnits u b h).proposed found' = (r.proposed found).inUnits u b' h' ∧
      (r.proposed found).buffers.SharesTrial u b' ∧ b'.projected = b.projected := by
  refine ⟨_, _, calls.log found.log found'.log, rfl, ⟨scaling, same.step, ?_, ?_⟩, rfl⟩
  · refine u.measured_of_scale (funext fun i => ?_)
    have hstep : u.size i * found'.step i = found.step i := congrFun same.step i
    have hpoint : u.size i * u.measured r.point i = r.point i :=
      congrFun (u.scale_measured r.point) i
    have hmoved : (r.proposed found).buffers.trialPoint i = r.point i + found.step i :=
      Vec.ofFn_apply _ i
    have hmoved' : ((r.inUnits u b h).proposed found').buffers.trialPoint i =
        u.measured r.point i + found'.step i := Vec.ofFn_apply _ i
    change u.size i * ((r.inUnits u b h).proposed found').buffers.trialPoint i =
      (r.proposed found).buffers.trialPoint i
    rw [hmoved, hmoved', mul_add, hpoint, hstep]
  · refine (sound'.norm_mulPermuted models').trans ((sound.norm_mulPermuted models).trans ?_).symm
    rw [mulVec_units, same.step]

theorem attempt_inUnits (calls : r.history.InUnits u h)
    (scaling : b.scaling.get = scale (u.sizes n) r.buffers.scaling.get)
    (models : factor.Models r.buffers.projected a r.residuals.get)
    (models' : factor'.Models b.projected (a * diagonal (u.sizes n)) r.residuals.get)
    (regular : factor.IsRegular) (regular' : factor'.IsRegular) :
    (r.attempt t factor trust).InUnits u
      ((r.inUnits u b h).attempt (t.inUnits u) factor' trust) := by
  have same : (r.search t factor trust).Matches (u.sizes n)
      ((r.inUnits u b h).search (t.inUnits u) factor' trust) :=
    search_inUnits scaling models models' regular regular'
  have sound : (r.search t factor trust).IsSound factor (r.subproblem t trust) :=
    Subproblem.search_isSound models.injective
  have sound' : ((r.inUnits u b h).search (t.inUnits u) factor' trust).IsSound factor'
      ((r.inUnits u b h).subproblem (t.inUnits u) trust) :=
    Subproblem.search_isSound models'.injective
  obtain ⟨b', h', calls', proposed, shares, hprojected⟩ :=
    proposed_inUnits calls scaling models models' same sound sound'
  have found_models := models.congr sound.r_eq sound.permutation_eq
  have found_models' := models'.congr sound'.r_eq sound'.permutation_eq
  rw [← hprojected] at found_models'
  unfold attempt
  dsimp only
  rw [proposed, same.damping]
  generalize r.search t factor trust = found at *
  generalize (r.inUnits u b h).search (t.inUnits u) factor' trust = found' at *
  rw [trialReply_inUnits shares.trialPoint]
  generalize (r.proposed found).trialReply t = reply
  obtain ⟨h'', calls'', tried⟩ := evaluated_inUnits calls' shares.trialPoint reply
  rw [tried]
  cases reply.answer with
  | faulted fault => exact fault_inUnits calls'' b' fault
  | aborted abort buffer =>
    exact halt_inUnits (r := { (r.proposed found).evaluated reply with trialResiduals := buffer })
      calls'' b' _ rfl
  | done written =>
    dsimp only
    split
    · exact fault_inUnits calls'' b' _
    · exact judge_inUnits (r := (r.proposed found).evaluated reply) calls'' shares found_models
        found_models' _ _

end Run

end LeastSquares
