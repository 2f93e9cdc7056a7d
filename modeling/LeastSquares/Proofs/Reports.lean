import LeastSquares.Proofs.Dimensions
import LeastSquares.Proofs.Real

namespace LeastSquares

variable {α σ : Type} [Scalar α] {m n : Nat}

/-- What an outcome says of the evaluation at which a run ended, after the given history. -/
structure Outcome.EndsAt (out : Outcome α σ) (c : Evaluation α m n) (h : History α) : Prop where
  point_eq : out.point = c.point.toArray
  calls : h.Extends out.history (Event.At c)
  report_eq : ∀ report, out.result = .ok report →
    report.residuals = c.residuals.toArray ∧ report.residualNorm = norm c.residuals

theorem Outcome.EndsAt.trans {out : Outcome α σ} {c : Evaluation α m n} {h h' : History α}
    (ends : out.EndsAt c h') (calls : h.Extends h' (Event.At c)) : out.EndsAt c h :=
  ⟨ends.point_eq, calls.trans ends.calls, ends.report_eq⟩

namespace Remains

variable {r : Remains α σ} {c : Evaluation α m n}

theorem faulted_endsAt (point_eq : r.point = c.point.toArray) (fault : Fault) :
    (r.faulted fault).EndsAt c r.history :=
  ⟨point_eq, History.extends_log [] fun _ => trivial, fun _ h => nomatch h⟩

theorem closed_endsAt (point_eq : r.point = c.point.toArray)
    (residuals_eq : r.workspace.residuals = c.residuals.toArray) (halt : Halt α) :
    (r.closed halt).EndsAt c r.history := by
  refine ⟨point_eq, History.extends_log _ fun _ => trivial, ?_⟩
  intro report hreport
  cases hreport
  refine ⟨residuals_eq, ?_⟩
  change Scalar.norm r.workspace.residuals.toList = norm c.residuals
  rw [residuals_eq, Vec.toList_toArray]
  rfl

end Remains

theorem Finished.close_endsAt {f : Finished α σ} {c : Evaluation α m n}
    (h : (Advance.ends f : Advance α σ m n).At c) (problem : Problem α σ) (reportEvery : Nat) :
    (f.close problem reportEvery).EndsAt c f.remains.history := by
  obtain ⟨result, r⟩ := f
  have point_eq : r.point = c.point.toArray := h.point_eq
  have residuals_eq : r.workspace.residuals = c.residuals.toArray := h.residuals_eq
  cases result with
  | error fault => exact Remains.faulted_endsAt point_eq fault
  | ok halt =>
    unfold close
    dsimp only
    split
    · exact Remains.closed_endsAt point_eq residuals_eq halt
    · let reply := problem.report r.problem halt.iteration r.point r.workspace.residuals
      have called : r.history.Extends (r.reported halt.iteration reply).history (Event.At c) :=
        History.extends_push ⟨point_eq, residuals_eq⟩
      split
      · refine Outcome.EndsAt.trans ?_ called
        exact Remains.faulted_endsAt (r := r.reported halt.iteration reply) point_eq _
      · refine Outcome.EndsAt.trans ?_ called
        exact Remains.closed_endsAt (r := r.reported halt.iteration reply) point_eq residuals_eq
          halt
      · refine Outcome.EndsAt.trans ?_ called
        exact Remains.closed_endsAt (r := r.reported halt.iteration reply) point_eq residuals_eq
          halt

namespace Settings

/-- A run whose first evaluation is complete is at the evaluation that it committed to last
whenever it calls the problem for a Jacobian or with a report, and when it ends. Point, residuals
and residual norm are those of that call, and a problem that keeps its dimensions gets a report. -/
theorem run_stays_at_last_commitment (s : Settings α) (problem : Problem α σ) (state : σ)
    (x : Array α) (workspace : Workspace α)
    (valid : s.error? problem.residualCount x.size = none) (coherent : workspace.Coherent)
    (residuals : Vec α problem.residualCount)
    (first : (problem.residuals state x
      (workspace.prepared problem.residualCount x.size).residuals).answer =
        .done residuals.toArray) :
    let t := s.task problem x.size valid
    ∃ l, launch? state x workspace = some l ∧
      (∀ committed a, t.Reaches l committed a → ∃ c earlier, committed = c :: earlier ∧ a.At c ∧
        .residuals c.point.toArray (some c.residuals.toArray) ∈ a.remains.history) ∧
      (∀ c earlier r phase, t.Reaches l (c :: earlier) (.continues r phase) →
        r.history.Extends (r.advance t phase).remains.history (Event.At c)) ∧
      ∃ c earlier, t.Reaches l (c :: earlier) (.ends (t.run l)) ∧
        (s.minimizeWith problem state x workspace).EndsAt c (t.run l).remains.history ∧
        ∀ k k', workspace.Fits k k' →
          problem.KeepsDimensions problem.residualCount x.size →
          ∃ report, (s.minimizeWith problem state x workspace).result = .ok report ∧
            report.residuals = c.residuals.toArray ∧
            report.residualNorm = norm c.residuals := by
  intro t
  obtain ⟨l, launched, -, first⟩ := exists_launch?_of_first (t := t) coherent first
  refine ⟨l, launched, ?_, ?_, ?_⟩
  · intro committed a h
    obtain ⟨c, earlier, rfl, hat⟩ := h.at_head
    exact ⟨c, earlier, rfl, hat, h.mem_history c (List.mem_cons_self ..)⟩
  · intro c earlier r phase h
    obtain ⟨step, rfl⟩ := h.stepsTo
    exact step.calls
  · obtain ⟨later, h⟩ := Task.reaches_run first
    obtain ⟨c, earlier, heq, hat⟩ := h.at_head
    rw [heq] at h
    have ends : (s.minimizeWith problem state x workspace).EndsAt c (t.run l).remains.history := by
      rw [minimizeWith_eq_close valid launched]
      exact Finished.close_endsAt hat problem s.reportEvery
    refine ⟨c, earlier, h, ends, ?_⟩
    intro k k' fits keeps
    obtain ⟨report, hreport⟩ := exists_report fits valid keeps
    exact ⟨report, hreport, ends.report_eq report hreport⟩

/-- In the valley of Rosenbrock from the origin. -/
theorem rosenbrock_stays_at_last_commitment :
    let out := Settings.standard.minimizeWith Problems.rosenbrock () #[0, 0] (.zeros 2 2)
    ∃ l c earlier report, launch? () #[0, 0] (.zeros 2 2) = some l ∧
      let t := (Settings.standard (α := ℝ)).task Problems.rosenbrock 2
        (error?_standard two_pos le_rfl)
      t.Reaches l (c :: earlier) (.ends (t.run l)) ∧ out.EndsAt c (t.run l).remains.history ∧
        out.result = .ok report ∧ report.residuals = c.residuals.toArray ∧
          report.residualNorm = norm c.residuals := by
  intro out
  obtain ⟨l, launched, -, -, c, earlier, reached, ends, reports⟩ :=
    run_stays_at_last_commitment Settings.standard Problems.rosenbrock () #[(0 : ℝ), 0]
      (.zeros 2 2) (error?_standard two_pos le_rfl) (Workspace.coherent_zeros 2 2)
      ⟨#v[10.0 * (0 - 0 * 0), 1 - 0]⟩ rfl
  obtain ⟨report, reported⟩ := reports 2 2 (Workspace.fits_zeros 2 2)
    Problems.rosenbrock_keepsDimensions
  exact ⟨l, c, earlier, report, launched, reached, ends, reported⟩

end Settings

end LeastSquares
