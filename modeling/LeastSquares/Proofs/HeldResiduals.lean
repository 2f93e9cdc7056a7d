import LeastSquares.Problems.Interrupted
import LeastSquares.Proofs.Noninterference

namespace LeastSquares

variable {α σ : Type} {m n : Nat}

/-- Whether the first evaluation of a run aborts and leaves its buffer as it was. -/
def Problem.AbortsFirst (p : Problem α σ) (state : σ) (x : Array α) (abort : Abort) : Prop :=
  ∀ buffer : Array α, buffer.size = p.residualCount →
    (p.residuals state x buffer).answer = .aborted abort buffer

namespace Problems

/-- An interrupted call leaves its output as it was. -/
theorem keepsDimensions_interrupted {p : Problem α σ} (h : p.KeepsDimensions m n)
    (plan : List Interruption) : (interrupted plan p).KeepsDimensions m n where
  residuals := by
    intro s x buffer hx hbuffer
    unfold interrupted
    dsimp only
    split
    · exact hbuffer
    · exact h.residuals s.inner x buffer hx hbuffer
  jacobian := by
    intro s x given hx
    unfold interrupted
    dsimp only
    split
    · exact ⟨rfl, rfl⟩
    · exact h.jacobian s.inner x given hx
  report := by
    intro s iteration x residuals hx hresiduals
    unfold interrupted
    dsimp only
    split
    · trivial
    · exact h.report s.inner iteration x residuals hx hresiduals

theorem abortsFirst_interrupted {plan : List Interruption} {abort : Abort}
    (h : planned plan .residuals 0 = some abort) (p : Problem α σ) (s : σ) (x : Array α) :
    (interrupted plan p).AbortsFirst (.start s) x abort := by
  intro buffer _
  unfold interrupted Interruptible.start
  dsimp only
  rw [h]

end Problems

namespace Workspace

variable [Zero α] {w : Workspace α}

theorem Fits.prepared_eq (h : w.Fits m n) : w.prepared m n = w :=
  if_pos ⟨h.scaling, h.residuals⟩

theorem residuals_prepared_eq_zeros_iff :
    (w.prepared m n).residuals = .replicate m 0 ↔
      (w.scaling.size = n → w.residuals.size = m → w.residuals = .replicate m 0) := by
  unfold Workspace.prepared
  split
  · rename_i hsizes
    exact ⟨fun held _ _ => held, fun held => held hsizes.1 hsizes.2⟩
  · rename_i hsizes
    exact ⟨fun _ hn hm => absurd ⟨hn, hm⟩ hsizes, fun _ => rfl⟩

end Workspace

variable [Scalar α]

def Report.ofFirstAbort (abort : Abort) (residuals : Array α) : Report α :=
  let residualNorm := Scalar.norm residuals.toList
  { termination := .aborted abort.status
    evaluations := 1
    jacobianEvaluations := 0
    iterations := 0
    residualNorm
    objective := 0.5 * residualNorm * residualNorm
    residuals }

theorem Report.ofFirstAbort_inj {abort : Abort} {residuals residuals' : Array α} :
    (ofFirstAbort abort residuals : Report α) = ofFirstAbort abort residuals' ↔
      residuals = residuals' :=
  ⟨fun h => congrArg Report.residuals h, fun h => congrArg (ofFirstAbort abort) h⟩

/-- A run that is stopped in its first Jacobian holds the residuals at its start. -/
theorem Task.residuals_run_of_jacobian_aborted {t : Task α σ m n} {l : Launch α σ m n}
    {residuals : Vec α m} (first : (l.reply t).answer = .done residuals.toArray) {abort : Abort}
    {left : Jacobian α}
    (second : ((l.started t residuals).jacobianReply t (.fill m n 0)).answer =
      .aborted abort left) :
    (t.run l).remains.workspace.residuals = residuals.toArray := by
  have stopped : (l.started t residuals).advance t (.first residuals) =
      ((l.started t residuals).differentiated (.fill m n 0)
        ((l.started t residuals).jacobianReply t (.fill m n 0))).halt
          (.aborted abort.status) none := by
    unfold Phase.first Run.advance Run.linearize
    dsimp only
    rw [second]
    rfl
  unfold run
  rw [first]
  simp only [Vec.ofArray?_toArray]
  rw [Run.complete_of_ends stopped]
  rfl

namespace Settings

variable {s : Settings α} {problem : Problem α σ} {state : σ} {x : Array α} {w : Workspace α}
variable {k l : Nat}

theorem valid_of_report {report : Report α}
    (h : (s.minimizeWith problem state x w).result = .ok report) :
    s.error? problem.residualCount x.size = none := by
  cases valid : s.error? problem.residualCount x.size with
  | none => rfl
  | some error =>
    rw [minimizeWith_of_error valid] at h
    cases h

/-- What a run reports is what its workspace holds. -/
theorem residuals_workspace_of_report (fits : w.Fits k l) {report : Report α}
    (h : (s.minimizeWith problem state x w).result = .ok report) :
    (s.minimizeWith problem state x w).workspace.residuals = report.residuals := by
  have valid := valid_of_report h
  obtain ⟨launch, launched, -⟩ := exists_launch? fits.coherent problem.residualCount state x
  rw [minimizeWith_eq_close valid launched] at h ⊢
  rw [Finished.workspace_close]
  cases hresult : ((s.task problem x.size valid).run launch).result with
  | error fault =>
    rw [Finished.close_of_error hresult] at h
    cases h
  | ok halt =>
    rcases Finished.close_cases hresult problem s.reportEvery with
      ⟨left, hleft, closed⟩ | ⟨fault, -, closed⟩ <;> rw [closed] at h <;> cases h
    rcases hleft with rfl | rfl
    · rfl
    · rfl

/-- A run that is stopped in its first Jacobian leaves the residuals at its start. -/
theorem residuals_workspace_of_jacobian_aborted (fits : w.Fits k l)
    (valid : s.error? problem.residualCount x.size = none)
    (residuals : Vec α problem.residualCount)
    (first : (problem.residuals state x
      (w.prepared problem.residualCount x.size).residuals).answer = .done residuals.toArray)
    {abort : Abort}
    (second : ∀ given, (problem.jacobian (problem.residuals state x
      (w.prepared problem.residualCount x.size).residuals).state x given).answer =
        .aborted abort given) :
    (s.minimizeWith problem state x w).workspace.residuals = residuals.toArray := by
  obtain ⟨launch, launched, -⟩ := exists_launch? fits.coherent problem.residualCount state x
  obtain ⟨hproblem, hpoint, hresiduals, -⟩ := launch?_eq_some launched
  let t := s.task problem x.size valid
  have reply : launch.reply t = problem.residuals state x
      (w.prepared problem.residualCount x.size).residuals := by
    unfold Launch.reply
    rw [hproblem, hpoint, hresiduals]
    rfl
  have stopped :
      ((launch.started t residuals).jacobianReply t (.fill problem.residualCount x.size 0)).answer =
        .aborted abort ⟨problem.residualCount, x.size, .fill problem.residualCount x.size 0⟩ := by
    unfold Run.jacobianReply Launch.started
    rw [reply, hpoint]
    exact second _
  rw [minimizeWith_eq_close valid launched, Finished.workspace_close]
  exact Task.residuals_run_of_jacobian_aborted (reply ▸ first) stopped

theorem minimizeWith_of_abortsFirst (fits : w.Fits k l)
    (valid : s.error? problem.residualCount x.size = none)
    (keeps : problem.KeepsDimensions problem.residualCount x.size) {abort : Abort}
    (aborts : problem.AbortsFirst state x abort) :
    (s.minimizeWith problem state x w).result =
      .ok (.ofFirstAbort abort (w.prepared problem.residualCount x.size).residuals) := by
  obtain ⟨launch, launched, -⟩ := exists_launch? fits.coherent problem.residualCount state x
  obtain ⟨hproblem, hpoint, hresiduals, htrial⟩ := launch?_eq_some launched
  have prepared := fits.prepared problem.residualCount x.size
  let t := s.task problem x.size valid
  have answer : (launch.reply t).answer = .aborted abort launch.residuals := by
    rw [Launch.reply, hproblem, hpoint]
    exact aborts launch.residuals (hresiduals ▸ prepared.residuals)
  have run : t.run launch =
      ⟨.ok ⟨.aborted abort.status, none⟩, launch.remains t launch.residuals⟩ := by
    unfold Task.run
    rw [answer]
  obtain ⟨halt, left, hhalt, hleft, closed⟩ := t.close_run launch keeps
    (hresiduals ▸ prepared.residuals) (htrial ▸ prepared.trialResiduals) s.reportEvery
  rw [run] at hhalt hleft
  cases hhalt
  rw [(minimizeWith_eq_close valid launched).trans closed, ← hresiduals]
  rcases hleft with rfl | ⟨_, rfl⟩
  · rfl
  · rfl

/-- A run that is aborted in its first evaluation repeats the residuals of the last report, if that
was made for the same dimensions. -/
theorem first_abort_repeats_last_report {τ : Type} {earlier : Settings α} {problem' : Problem α τ}
    {state' : τ} {x' : Array α} (fits : w.Fits k l)
    (inPlace : problem'.AbortsInPlace problem'.residualCount x'.size) {last : Report α}
    (reported : (earlier.minimizeWith problem' state' x' w).result = .ok last)
    (residuals_eq : problem'.residualCount = problem.residualCount) (size_eq : x'.size = x.size)
    (valid : s.error? problem.residualCount x.size = none)
    (keeps : problem.KeepsDimensions problem.residualCount x.size) {abort : Abort}
    (aborts : problem.AbortsFirst state x abort) :
    (s.minimizeWith problem state x
        (earlier.minimizeWith problem' state' x' w).workspace).result =
      .ok (.ofFirstAbort abort last.residuals) := by
  have unfaulted (fault : Fault) :
      (earlier.minimizeWith problem' state' x' w).result ≠ .error (.faulted fault) := by
    rw [reported]
    exact fun h => nomatch h
  have left := minimizeWith_fits_of_valid fits (valid_of_report reported) inPlace unfaulted
  rw [residuals_eq, size_eq] at left
  rw [minimizeWith_of_abortsFirst left valid keeps aborts, left.prepared_eq,
    residuals_workspace_of_report fits reported]

/-- A run that is aborted in its first evaluation reports the residuals that its workspace holds for
its dimensions. It ends as on a new workspace exactly if these are zeros. -/
theorem first_abort_reports_held_residuals (s : Settings α) {problem : Problem α σ} {state : σ}
    {x : Array α} (valid : s.error? problem.residualCount x.size = none)
    (keeps : problem.KeepsDimensions problem.residualCount x.size) {abort : Abort}
    (aborts : problem.AbortsFirst state x abort) {w : Workspace α} (used : w.Used) :
    let zeros : Array α := .replicate problem.residualCount 0
    (s.minimize problem state x).result = .ok (.ofFirstAbort abort zeros) ∧
    (s.minimizeWith problem state x w).result =
      .ok (.ofFirstAbort abort (w.prepared problem.residualCount x.size).residuals) ∧
    ((s.minimizeWith problem state x w).result = (s.minimize problem state x).result ↔
      (w.scaling.size = x.size → w.residuals.size = problem.residualCount →
        w.residuals = zeros)) := by
  intro zeros
  obtain ⟨_, _, fits⟩ := used.fits
  have new := Workspace.fits_zeros (α := α) problem.residualCount x.size
  have fresh : (s.minimize problem state x).result = .ok (.ofFirstAbort abort zeros) := by
    rw [minimize, minimizeWith_of_abortsFirst new valid keeps aborts, new.prepared_eq]
    rfl
  have held := minimizeWith_of_abortsFirst fits valid keeps aborts
  refine ⟨fresh, held, ?_⟩
  rw [held, fresh, Except.ok.injEq, Report.ofFirstAbort_inj]
  exact Workspace.residuals_prepared_eq_zeros_iff

/-- In the valley of Rosenbrock, after a run that was stopped in its first Jacobian. -/
theorem rosenbrock_first_abort :
    let s : Settings ℝ := .standard
    let stopping (callback : Problems.Callback) : Problem ℝ _ :=
      Problems.interrupted [⟨callback, 0, .standard⟩] Problems.rosenbrock
    let earlier := stopping .jacobian
    let problem := stopping .residuals
    let w := (s.minimizeWith earlier (.start ()) #[0, 0] (.zeros 2 2)).workspace
    w.Used ∧
      (s.minimize problem (.start ()) #[0, 0]).result = .ok (.ofFirstAbort .standard #[0, 0]) ∧
      (s.minimizeWith problem (.start ()) #[0, 0] w).result =
        .ok (.ofFirstAbort .standard #[0, 1]) ∧
      (s.minimizeWith problem (.start ()) #[0, 0] w).result ≠
        (s.minimize problem (.start ()) #[0, 0]).result := by
  intro s stopping earlier problem w
  have keeps (callback : Problems.Callback) : (stopping callback).KeepsDimensions 2 2 :=
    Problems.keepsDimensions_interrupted Problems.rosenbrock_keepsDimensions _
  have valid : s.error? 2 2 = none := error?_standard two_pos le_rfl
  have new : (Workspace.zeros 2 2 : Workspace ℝ).Fits 2 2 := Workspace.fits_zeros 2 2
  have used : w.Used :=
    (Workspace.Used.new 2 2).minimize s (keeps .jacobian) (Problems.Interruptible.start ())
  have fits : w.Fits 2 2 := minimizeWith_fits_of_keeps new valid (keeps .jacobian)
  let start : Vec ℝ 2 := ⟨#v[10.0 * (0 - 0 * 0), 1 - 0]⟩
  have held : w.residuals = #[0, 1] := by
    refine (residuals_workspace_of_jacobian_aborted new valid start rfl fun _ => rfl).trans ?_
    simp [start, Vec.toArray]
  have aborts : problem.AbortsFirst (.start ()) #[0, 0] .standard :=
    Problems.abortsFirst_interrupted rfl _ _ _
  obtain ⟨fresh, stale, agree⟩ := first_abort_reports_held_residuals s valid (keeps _) aborts used
  change _ = Except.ok (Report.ofFirstAbort _ (w.prepared 2 2).residuals) at stale
  rw [fits.prepared_eq, held] at stale
  refine ⟨used, fresh, stale, ?_⟩
  intro h
  have zeros := agree.mp h fits.scaling fits.residuals
  rw [held] at zeros
  change #[0, 1] = #[0, 0] at zeros
  simp at zeros

end Settings

end LeastSquares
