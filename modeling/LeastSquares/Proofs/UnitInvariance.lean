import LeastSquares.Proofs.LinearProblems
import LeastSquares.Proofs.Noninterference
import LeastSquares.Proofs.UnitSteps

namespace LeastSquares

open Matrix

variable {σ : Type} {m n : Nat}

/-- Whether no diagonal element of the factors that a run goes on with counts as zero. -/
def Task.StaysRegular (t : Task ℝ σ m n) (l : Launch ℝ σ m n) : Prop :=
  ∀ committed r factor trust,
    t.Reaches l committed (.continues r (.attempt factor trust)) → factor.IsRegular

namespace Run

variable {u : Units} {t : Task ℝ σ m n} {r : Run ℝ σ m n} {b : Buffers ℝ m n} {h : History ℝ}
  {l l' : Launch ℝ σ m n} {committed committed' : List (Evaluation ℝ m n)}
  {phase phase' : Phase ℝ m n}

/-- A step does the same in all units. -/
theorem advance_inUnits (adaptive : t.fixedScaling = none) (calls : r.history.InUnits u h)
    (same : phase.InUnits u r b phase')
    (regular : t.StaysRegular l) (regular' : (t.inUnits u).StaysRegular l')
    (reached : t.Reaches l committed (.continues r phase))
    (reached' : (t.inUnits u).Reaches l' committed' (.continues (r.inUnits u b h) phase')) :
    (r.advance t phase).InUnits u ((r.inUnits u b h).advance (t.inUnits u) phase') := by
  cases same with
  | @linearize matrix progress factors =>
    refine linearize_inUnits adaptive calls factors fun r' factor trust step => ?_
    have next := reached.step
    change t.Reaches l _ (r.linearize t matrix progress) at next
    rw [step] at next
    exact regular _ _ _ _ next
  | attempt same scaling models models' =>
    subst same
    exact attempt_inUnits calls scaling models models' (regular _ _ _ _ reached)
      (regular' _ _ _ _ reached')

/-- So does a whole run, step by step. -/
theorem complete_inUnits (adaptive : t.fixedScaling = none) (calls : r.history.InUnits u h)
    (same : phase.InUnits u r b phase')
    (regular : t.StaysRegular l) (regular' : (t.inUnits u).StaysRegular l')
    (reached : t.Reaches l committed (.continues r phase))
    (reached' : (t.inUnits u).Reaches l' committed' (.continues (r.inUnits u b h) phase')) :
    (r.complete t phase).InUnits u ((r.inUnits u b h).complete (t.inUnits u) phase') := by
  fun_induction Run.complete t r phase generalizing b h phase' committed committed' with
  | case1 r phase finished hstep =>
    have hsame := advance_inUnits adaptive calls same regular regular' reached reached'
    rw [hstep] at hsame
    generalize hstep' : (r.inUnits u b h).advance (t.inUnits u) phase' = a at hsame
    cases hsame with
    | ends hends => rwa [complete_of_ends hstep']
  | case2 r phase r' next hstep _ ih =>
    have hsame := advance_inUnits adaptive calls same regular regular' reached reached'
    have hnext := reached.step
    have hnext' := reached'.step
    rw [hstep] at hsame hnext
    generalize hstep' : (r.inUnits u b h).advance (t.inUnits u) phase' = a at hsame hnext'
    cases hsame with
    | continues calls same =>
      rw [complete_of_continues hstep']
      exact ih calls same hnext hnext'

end Run

namespace Launch

variable {u : Units} {t : Task ℝ σ m n} {l : Launch ℝ σ m n}

theorem reply_inUnits : (l.inUnits u).reply (t.inUnits u) = l.reply t := by
  change t.problem.residuals l.problem (u.restore (u.measured l.point).toArray) l.residuals = _
  rw [u.toArray_measured, u.restore_measure]
  rfl

theorem called_inUnits (output : Option (Array ℝ)) :
    History.InUnits u #[.residuals l.point.toArray output]
      #[.residuals (l.inUnits u).point.toArray output] := by
  change _ = [Event.residuals (u.measure l.point.toArray) output]
  rw [← u.toArray_measured]
  rfl

theorem remains_inUnits (residuals : Array ℝ) :
    (l.remains t residuals).InUnits u ((l.inUnits u).remains (t.inUnits u) residuals) := by
  unfold remains
  rw [reply_inUnits]
  exact ⟨rfl, u.toArray_measured l.point, rfl, rfl, rfl, called_inUnits _⟩

end Launch

/-- Launched in other units, a run ends alike. -/
theorem Task.run_inUnits {u : Units} {t : Task ℝ σ m n} {l : Launch ℝ σ m n}
    (adaptive : t.fixedScaling = none) (regular : t.StaysRegular l)
    (regular' : (t.inUnits u).StaysRegular (l.inUnits u)) :
    (t.run l).InUnits u ((t.inUnits u).run (l.inUnits u)) := by
  have hreply : (l.inUnits u).reply (t.inUnits u) = l.reply t := Launch.reply_inUnits
  unfold run
  rw [hreply]
  cases answer : (l.reply t).answer with
  | faulted fault =>
    exact ⟨fun _ hfault => hfault, (fun _ hhalt => nomatch hhalt), Launch.remains_inUnits _⟩
  | aborted abort written =>
    exact ⟨(fun _ hfault => nomatch hfault), fun _ hhalt => ⟨_, hhalt, rfl, rfl⟩,
      Launch.remains_inUnits _⟩
  | done written =>
    dsimp only
    cases size : Vec.ofArray? m written with
    | none =>
      exact ⟨fun _ hfault => hfault, (fun _ hhalt => nomatch hhalt), Launch.remains_inUnits _⟩
    | some residuals =>
      rw [Vec.eq_of_ofArray? size] at answer
      have answer' := (congrArg Reply.answer hreply).trans answer
      have hstarted : (l.inUnits u).started (t.inUnits u) residuals =
          (l.started t residuals).inUnits u l.buffers
            ((l.inUnits u).started (t.inUnits u) residuals).history := by
        unfold Launch.started
        rw [hreply]
        rfl
      have calls : (l.started t residuals).history.InUnits u
          ((l.inUnits u).started (t.inUnits u) residuals).history := by
        unfold Launch.started
        rw [hreply]
        exact Launch.called_inUnits _
      have reached' := Task.Reaches.start answer'
      dsimp only
      rw [hstarted] at reached' ⊢
      exact Run.complete_inUnits adaptive calls (.linearize fun h => nomatch h) regular regular'
        (Task.Reaches.start answer) reached'

namespace Remains.InUnits

variable {u : Units} {r r' : Remains ℝ σ}

theorem faulted (h : r.InUnits u r') (fault : Fault) :
    (r.faulted fault).InUnits u (r'.faulted fault) :=
  ⟨rfl, h.point, h.problem, h.calls.log [] []⟩

theorem reported (h : r.InUnits u r') (iteration : Nat) (reply : Reply σ Unit) :
    (r.reported iteration reply).InUnits u (r'.reported iteration reply) := by
  refine ⟨rfl, h.point, h.residuals, h.evaluations, h.jacobianEvaluations, ?_⟩
  unfold Remains.reported
  rw [h.point, h.residuals]
  exact h.calls.push (e := .report iteration r.point r.workspace.residuals) rfl

theorem closed (h : r.InUnits u r') {halt halt' : Halt ℝ} (same : halt.Matches halt') :
    (r.closed halt).InUnits u (r'.closed halt') := by
  have hreport : r'.report halt' = r.report halt := by
    unfold Remains.report
    rw [h.residuals, h.evaluations, h.jacobianEvaluations, same.termination, halt.accepted_eq,
      halt'.accepted_eq, same.iteration]
  unfold Remains.closed
  rw [hreport]
  exact ⟨rfl, h.point, h.problem, h.calls.log _ _⟩

end Remains.InUnits

theorem Finished.InUnits.close {u : Units} {f f' : Finished ℝ σ} (h : f.InUnits u f')
    (problem : Problem ℝ σ) (reportEvery : Nat) :
    (f.close problem reportEvery).InUnits u (f'.close (problem.inUnits u) reportEvery) := by
  unfold Finished.close
  cases hresult : f.result with
  | error fault =>
    rw [h.fault fault hresult]
    exact h.remains.faulted fault
  | ok halt =>
    obtain ⟨halt', hresult', same⟩ := h.halt halt hresult
    have hreply : (problem.inUnits u).report f'.remains.problem halt'.iteration f'.remains.point
          f'.remains.workspace.residuals =
        problem.report f.remains.problem halt.iteration f.remains.point
          f.remains.workspace.residuals := by
      rw [h.remains.problem, h.remains.point, h.remains.residuals, same.iteration]
      change problem.report _ _ (u.restore (u.measure _)) _ = _
      rw [u.restore_measure]
    rw [hresult']
    dsimp only
    rw [hreply, same.iteration]
    split
    · exact h.remains.closed same
    · have told := h.remains.reported halt.iteration (problem.report f.remains.problem
        halt.iteration f.remains.point f.remains.workspace.residuals)
      split
      · exact told.faulted _
      · exact told.closed same
      · exact told.closed same

def Launch.at? (m : Nat) (state : σ) (point : Vec ℝ n) (workspace : Workspace ℝ) :
    Option (Launch ℝ σ m n) :=
  let prepared := workspace.prepared m n
  (prepared.buffers? m n).map fun buffers =>
    { problem := state
      point
      buffers
      residuals := prepared.residuals
      trialResiduals := prepared.trialResiduals }

theorem Launch.at?_measured (u : Units) (m : Nat) (state : σ) (point : Vec ℝ n)
    (workspace : Workspace ℝ) :
    at? m state (u.measured point) workspace =
      (at? m state point workspace).map fun l => l.inUnits u := by
  unfold at?
  rw [Option.map_map]
  rfl

namespace Settings

/-- Whether no diagonal element of the factors that a minimization goes on with counts as zero. -/
def StaysRegular (s : Settings ℝ) (problem : Problem ℝ σ) (state : σ) (x : Array ℝ)
    (workspace : Workspace ℝ) : Prop :=
  ∀ (valid : s.error? problem.residualCount x.size = none) l, launch? state x workspace = some l →
    (s.task problem x.size valid).StaysRegular l

variable {s : Settings ℝ} {problem : Problem ℝ σ} {state : σ} {x : Array ℝ}
  {workspace : Workspace ℝ}

theorem launch?_eq_at? (m : Nat) :
    launch? state x workspace = Launch.at? m state (.ofArray x) workspace := by
  unfold launch? Launch.at?
  dsimp only
  cases (workspace.prepared m x.size).buffers? m x.size <;> rfl

/-- A minimization whose workspace lacks buffers faults, any other one closes a run. The number of
parameters is that of the point, however it is written. -/
theorem minimizeWith_at (state : σ) (workspace : Workspace ℝ) (point : Vec ℝ n)
    (hx : x = point.toArray) (valid : s.error? problem.residualCount n = none) :
    (Launch.at? problem.residualCount state point workspace = none →
      s.minimizeWith problem state x workspace =
        { result := .error (.faulted .shapeMismatch), point := x, problem := state, workspace
          history := #[] }) ∧
    ∀ l, Launch.at? problem.residualCount state point workspace = some l →
      s.minimizeWith problem state x workspace =
          ((s.task problem n valid).run l).close problem s.reportEvery ∧
        (s.StaysRegular problem state x workspace → (s.task problem n valid).StaysRegular l) := by
  obtain rfl : x.size = n := by rw [hx, Vec.size_toArray]
  obtain rfl : point = .ofArray x := Vec.toArray_injective hx.symm
  rw [← launch?_eq_at?]
  refine ⟨fun missing => ?_, fun l launched =>
    ⟨minimizeWith_eq_close valid launched, fun regular => regular valid l launched⟩⟩
  unfold minimizeWith
  dsimp only
  split
  · rename_i invalid
    rw [valid] at invalid
    cases invalid
  · rw [missing]

/-- With scaling factors that follow the Jacobian, a minimization does the same in all units of the
parameters: it calls the problem at the same points and reports the same. In exact arithmetic this
holds as long as no column counts as dependent. -/
theorem run_independent_of_units (u : Units) (s : Settings ℝ)
    (adaptive : s.scaling = .adaptive) (problem : Problem ℝ σ) (state : σ) (x : Array ℝ)
    (workspace : Workspace ℝ) (regular : s.StaysRegular problem state x workspace)
    (regular' : s.StaysRegular (problem.inUnits u) state (u.measure x) workspace) :
    (s.minimizeWith problem state x workspace).InUnits u
      (s.minimizeWith (problem.inUnits u) state (u.measure x) workspace) := by
  cases valid : s.error? problem.residualCount x.size with
  | some error =>
    have valid' : s.error? (problem.inUnits u).residualCount (u.measure x).size = some error := by
      rw [u.size_measure]
      exact valid
    rw [minimizeWith_of_error valid, minimizeWith_of_error valid']
    exact ⟨rfl, rfl, rfl, rfl⟩
  | none =>
    let point : Vec ℝ x.size := .ofArray x
    have hx : x = point.toArray := rfl
    have hx' : u.measure x = (u.measured point).toArray := (u.toArray_measured point).symm
    have valid' : s.error? (problem.inUnits u).residualCount x.size = none := valid
    obtain ⟨hmissing, hlaunched⟩ := minimizeWith_at state workspace point hx valid
    obtain ⟨hmissing', hlaunched'⟩ := minimizeWith_at state workspace (u.measured point) hx' valid'
    have hmeasured := Launch.at?_measured u problem.residualCount state point workspace
    cases launched : Launch.at? problem.residualCount state point workspace with
    | none =>
      rw [launched] at hmeasured
      rw [hmissing launched, hmissing' hmeasured]
      exact ⟨rfl, rfl, rfl, rfl⟩
    | some l =>
      rw [launched] at hmeasured
      obtain ⟨hout, hregular⟩ := hlaunched l launched
      obtain ⟨hout', hregular'⟩ := hlaunched' _ hmeasured
      have hadaptive : (s.task problem x.size valid).fixedScaling = none := by
        change s.fixedScaling? x.size = none
        rw [fixedScaling?, adaptive]
      rw [hout, hout']
      exact (Task.run_inUnits hadaptive (hregular regular) (hregular' regular')).close problem
        s.reportEvery

end Settings

/-- A Jacobian in other units is one of the original problem. -/
theorem Problem.exists_of_jacobian_inUnits {p : Problem ℝ σ} {u : Units} {state : σ} {y : Vec ℝ n}
    {written : Mat ℝ m n}
    (answer : ((p.inUnits u).jacobian state y.toArray ⟨m, n, .fill m n 0⟩).answer =
      .done ⟨m, n, written⟩) :
    ∃ (x : Vec ℝ n) (a : Mat ℝ m n),
      (p.jacobian state x.toArray ⟨m, n, .fill m n 0⟩).answer = .done ⟨m, n, a⟩ ∧
        written = u.derivatives a := by
  let x : Vec ℝ n := .ofFn fun i => u.size i * y i
  have hy : y = u.measured x := u.measured_of_scale (funext fun i => (Vec.ofFn_apply _ i).symm)
  change ((p.jacobian state (u.restore y.toArray) _).map u.jacobian).answer = _ at answer
  rw [hy, u.toArray_measured, u.restore_measure] at answer
  refine ⟨x, ?_⟩
  generalize p.jacobian state x.toArray ⟨m, n, .fill m n 0⟩ = reply at answer ⊢
  obtain ⟨_, output | _ | _⟩ := reply
  · obtain ⟨k, l, entries⟩ := output
    cases answer
    exact ⟨entries, rfl, rfl⟩
  · cases answer
  · cases answer

abbrev Problem.IsSteep (p : Problem ℝ σ) (m : Nat) : Prop :=
  p.Writes (fun (_ : Vec ℝ 1) (_ : Vec ℝ m) => True) fun _ a => ∀ j, 1 < length (a.toMatrix.col j)

theorem Problem.IsSteep.inUnits {p : Problem ℝ σ} (steep : p.IsSteep m) {u : Units}
    (large : 1 ≤ u.size 0) : (p.inUnits u).IsSteep m := by
  refine ⟨fun _ _ _ _ _ => trivial, fun state y written answer j => ?_⟩
  obtain ⟨x, a, original, rfl⟩ := exists_of_jacobian_inUnits answer
  obtain rfl := Subsingleton.elim j 0
  rw [u.col_derivatives, length_smul, abs_of_pos (u.size_pos _)]
  exact one_lt_mul_of_le_of_lt large (steep.jacobian state x a original 0)

/-- With one parameter, columns that are not short keep every factor regular. -/
theorem Task.Reaches.isRegular_of_steep {t : Task ℝ σ m n} (single : n = 1)
    (steep : t.problem.IsSteep m) {l : Launch ℝ σ m n} {committed : List (Evaluation ℝ m n)}
    {r : Run ℝ σ m n} {factor : Triangular ℝ m n} {trust : TrustRegion ℝ}
    (h : t.Reaches l committed (.continues r (.attempt factor trust))) : factor.IsRegular := by
  subst single
  obtain ⟨jacobian, hlast, hmodels⟩ := h.linearized rfl
  obtain ⟨_, hsteep⟩ := h.derivatives_of_lastJacobian? steep hlast
  intro j
  have hgram : factor.r j j ^ 2 = length (jacobian.toMatrix.col (factor.permutation j)) ^ 2 := by
    rw [length_sq, hmodels.gram j j, dotProduct, Fin.sum_univ_one, Subsingleton.elim j 0]
    exact pow_two _
  rw [← sq_abs] at hgram
  rw [(sq_eq_sq₀ (abs_nonneg _) (length_nonneg _)).mp hgram]
  exact Arith.epsilon_lt_one.trans (hsteep _)

theorem Settings.staysRegular_of_steep (s : Settings ℝ) {problem : Problem ℝ σ} {x : Array ℝ}
    (single : x.size = 1) (steep : problem.IsSteep problem.residualCount) (state : σ)
    (workspace : Workspace ℝ) : s.StaysRegular problem state x workspace :=
  fun _ _ _ _ _ _ _ h => h.isRegular_of_steep single steep

theorem Problems.slopeFit_isSteep : (slopeFit ⟨#[2], #[-1], rfl⟩ : Problem ℝ Unit).IsSteep 1 := by
  refine ⟨fun _ _ _ _ _ => trivial, fun state x written answer j => ?_⟩
  obtain rfl := (slopeFit_isLinear ⟨#[(2 : ℝ)], #[-1], rfl⟩).jacobian state x written answer
  let sample : Mat ℝ 1 1 := .ofFn fun i _ => Vec.ofArray #[(2 : ℝ)] i
  change 1 < length (sample.toMatrix.col j)
  have hentry (i : Fin 1) : sample.toMatrix.col j i = 2 := by
    obtain rfl := Subsingleton.elim i 0
    exact Mat.ofFn_apply _ 0 j
  rw [length_eq_sqrt, dotProduct, Fin.sum_univ_one, hentry, Real.sqrt_mul_self zero_le_two]
  exact one_lt_two

/-- The fit of one sample, with a slope that is measured in units of three. -/
theorem Settings.slopeFit_independent_of_units :
    let u : Units := ⟨fun _ => 3, fun _ => three_pos⟩
    let s : Settings ℝ := .standard
    let problem : Problem ℝ Unit := Problems.slopeFit ⟨#[2], #[-1], rfl⟩
    s.scaling = .adaptive ∧ s.StaysRegular problem () #[6] (.zeros 1 1) ∧
      s.StaysRegular (problem.inUnits u) () (u.measure #[6]) (.zeros 1 1) ∧
      (s.minimizeWith problem () #[6] (.zeros 1 1)).InUnits u
        (s.minimizeWith (problem.inUnits u) () (u.measure #[6]) (.zeros 1 1)) := by
  intro u s problem
  have regular : s.StaysRegular problem () #[6] (.zeros 1 1) :=
    s.staysRegular_of_steep rfl Problems.slopeFit_isSteep () _
  have regular' : s.StaysRegular (problem.inUnits u) () (u.measure #[6]) (.zeros 1 1) :=
    s.staysRegular_of_steep (u.size_measure _) (Problems.slopeFit_isSteep.inUnits (by norm_num [u]))
      () _
  exact ⟨rfl, regular, regular',
    run_independent_of_units u s rfl problem () #[6] (.zeros 1 1) regular regular'⟩

end LeastSquares
