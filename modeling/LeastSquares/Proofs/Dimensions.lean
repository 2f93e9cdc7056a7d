import LeastSquares.Problems.Classic
import LeastSquares.Proofs.Commitment
import LeastSquares.Proofs.Workspaces

namespace LeastSquares

variable {α σ : Type} {m n : Nat}

/-- Whether a call left an output with the property, complete or not. A fault leaves none. -/
def Answer.Leaves {β : Type} (P : β → Prop) : Answer β → Prop
  | .done output => P output
  | .aborted _ output => P output
  | .faulted _ => False

/-- Whether no call for `n` parameters fails or changes the dimensions of its output. -/
structure Problem.KeepsDimensions (p : Problem α σ) (m n : Nat) : Prop where
  residuals : ∀ s (x buffer : Array α), x.size = n → buffer.size = m →
    (p.residuals s x buffer).answer.Leaves (·.size = m)
  jacobian : ∀ s (x : Array α) (given : Mat α m n), x.size = n →
    (p.jacobian s x ⟨m, n, given⟩).answer.Leaves
      fun a => a.residualCount = m ∧ a.parameterCount = n
  report : ∀ s iteration (x residuals : Array α), x.size = n → residuals.size = m →
    (p.report s iteration x residuals).answer.Leaves fun _ => True

/-- Whether a residual call that aborts leaves a buffer of the length that it was given. -/
def Problem.AbortsInPlace (p : Problem α σ) (m n : Nat) : Prop :=
  ∀ s (x buffer : Array α) abort output, x.size = n → buffer.size = m →
    (p.residuals s x buffer).answer = .aborted abort output → output.size = m

theorem Problem.KeepsDimensions.abortsInPlace {p : Problem α σ} (h : p.KeepsDimensions m n) :
    p.AbortsInPlace m n := by
  intro s x buffer abort output hx hbuffer answer
  have leaves := h.residuals s x buffer hx hbuffer
  rw [answer] at leaves
  exact leaves

/-- A problem without state keeps its dimensions if its functions do. -/
theorem Problem.keepsDimensions_ofFunctions {residualCount : Nat}
    {residuals : Array α → Except Fault (Array α)}
    {jacobian : Array α → Jacobian α → Except Fault (Jacobian α)}
    (hresiduals : ∀ x, x.size = n → ∃ values, residuals x = .ok values ∧ values.size = m)
    (hjacobian : ∀ x (given : Mat α m n), x.size = n →
      ∃ a : Mat α m n, jacobian x ⟨m, n, given⟩ = .ok ⟨m, n, a⟩) :
    (ofFunctions residualCount residuals jacobian).KeepsDimensions m n where
  residuals := by
    intro _ x buffer hx _
    obtain ⟨values, written, hsize⟩ := hresiduals x hx
    change (Reply.ofExcept () (residuals x)).answer.Leaves _
    rw [written]
    exact hsize
  jacobian := by
    intro _ x given hx
    obtain ⟨a, written⟩ := hjacobian x given hx
    change (Reply.ofExcept () (jacobian x ⟨m, n, given⟩)).answer.Leaves _
    rw [written]
    exact ⟨rfl, rfl⟩
  report := fun _ _ _ _ _ _ => trivial

theorem Problems.component_eq_ok {x : Array α} {i : Nat} (h : i < x.size) :
    component x i = .ok x[i] := by
  rw [component, Array.getElem?_eq_getElem h]

theorem Problems.rosenbrock_keepsDimensions [Arith α] :
    (rosenbrock : Problem α Unit).KeepsDimensions 2 2 := by
  refine Problem.keepsDimensions_ofFunctions ?_ ?_
  · intro x hx
    have first := component_eq_ok (x := x) (i := 0) (by omega)
    have second := component_eq_ok (x := x) (i := 1) (by omega)
    refine ⟨#[(10.0 : α) * (x[1] - x[0] * x[0]), (1 : α) - x[0]], ?_, rfl⟩
    rw [first, second]
    rfl
  · intro x given hx
    have first := component_eq_ok (x := x) (i := 0) (by omega)
    rw [first]
    exact ⟨_, rfl⟩

/-- Whether all buffers have the sizes of one pair of dimensions. -/
structure Workspace.Fits (w : Workspace α) (m n : Nat) : Prop where
  scaling : w.scaling.size = n
  projected : w.projected.size = n
  step : w.step.size = n
  trialPoint : w.trialPoint.size = n
  linearChange : w.linearChange.size = n
  columnNorms : w.columnNorms.size = n
  diagonal : w.search.diagonal.size = n
  first : w.search.first.size = n
  second : w.search.second.size = n
  residuals : w.residuals.size = m
  trialResiduals : w.trialResiduals.size = m
  reflected : w.reflected.size = m

namespace Workspace

variable {w : Workspace α}

theorem Fits.coherent (h : w.Fits m n) : w.Coherent where
  projected := h.projected.trans h.scaling.symm
  step := h.step.trans h.scaling.symm
  trialPoint := h.trialPoint.trans h.scaling.symm
  linearChange := h.linearChange.trans h.scaling.symm
  columnNorms := h.columnNorms.trans h.scaling.symm
  search := ⟨h.first.trans h.diagonal.symm, h.second.trans h.diagonal.symm⟩
  reflected := h.reflected.trans h.residuals.symm

theorem Fits.size_eq (h : w.Fits m n) : w.size = 9 * n + 3 * m := by
  unfold size SearchMemory.size
  rw [h.scaling, h.projected, h.step, h.trialPoint, h.linearChange, h.columnNorms, h.diagonal,
    h.first, h.second, h.residuals, h.trialResiduals, h.reflected]
  omega

theorem fits_ofBuffers (b : Buffers α m n) {residuals trialResiduals : Array α}
    (hresiduals : residuals.size = m) (htrial : trialResiduals.size = m) :
    (ofBuffers b residuals trialResiduals).Fits m n := by
  constructor <;> simp [ofBuffers, SearchMemory.ofBuffers, hresiduals, htrial]

variable [Zero α]

theorem fits_zeros (m n : Nat) : (zeros m n : Workspace α).Fits m n := by
  constructor <;> simp [zeros, SearchMemory.zeros]

/-- A prepared workspace has the dimensions that it was prepared for. -/
theorem Fits.prepared {k l : Nat} (h : w.Fits k l) (m n : Nat) : (w.prepared m n).Fits m n := by
  unfold Workspace.prepared
  split
  · rename_i hsizes
    obtain rfl := h.scaling.symm.trans hsizes.1
    obtain rfl := h.residuals.symm.trans hsizes.2
    exact h
  · exact fits_zeros m n

end Workspace

theorem Jacobian.exists_toMat? {a : Jacobian α}
    (h : a.residualCount = m ∧ a.parameterCount = n) : ∃ b, a.toMat? m n = some b :=
  ⟨_, dif_pos h⟩

theorem Run.remains_fits {r : Run α σ m n} (h : r.trialResiduals.size = m) :
    r.remains.workspace.Fits m n :=
  Workspace.fits_ofBuffers _ (Vec.size_toArray _) h

variable [Scalar α]

/-- What a minimization is launched with. -/
theorem Settings.launch?_eq_some {state : σ} {x : Array α} {workspace : Workspace α}
    {l : Launch α σ m x.size} (h : launch? state x workspace = some l) :
    l.problem = state ∧ l.point = .ofArray x ∧
      l.residuals = (workspace.prepared m x.size).residuals ∧
      l.trialResiduals = (workspace.prepared m x.size).trialResiduals := by
  obtain ⟨buffers, -, hl⟩ := Option.bind_eq_some_iff.mp h
  cases hl
  exact ⟨rfl, rfl, rfl, rfl⟩

namespace Run

variable {t : Task α σ m n} {r : Run α σ m n}

theorem factorize_fits (h : r.trialResiduals.size = m) (jacobian : Mat α m n)
    (progress : Progress α) : (r.factorize t jacobian progress).remains.workspace.Fits m n := by
  rcases r.factorize_cases t jacobian progress with ⟨-, step⟩ | ⟨-, step⟩ <;> rw [step]
  · exact remains_fits h
  · exact remains_fits h

theorem linearize_fits (h : r.trialResiduals.size = m) (matrix : Mat α m n)
    (progress : Progress α) : (r.linearize t matrix progress).remains.workspace.Fits m n := by
  obtain ⟨told, htold, shape⟩ := r.linearize_shape t matrix progress
  have htrial : told.trialResiduals.size = m := by
    rcases htold with rfl | rfl
    · exact h
    · exact h
  rcases shape with ⟨_, step⟩ | ⟨_, step⟩ | ⟨_, step⟩ <;> rw [step]
  · exact remains_fits htrial
  · exact remains_fits htrial
  · exact factorize_fits htrial _ _

theorem judge_fits (factor : Triangular α m n) (trust : TrustRegion α) (damping : α)
    (residuals : Vec α m) :
    (r.judge t factor trust damping residuals).remains.workspace.Fits m n := by
  rcases r.judge_cases t factor trust damping residuals with
    ⟨-, ⟨_, -, step⟩ | ⟨-, step⟩⟩ | ⟨-, ⟨_, -, step⟩ | ⟨-, step⟩⟩ <;> rw [step]
  · exact remains_fits (r := r.moved residuals) (Vec.size_toArray _)
  · exact remains_fits (r := r.moved residuals) (Vec.size_toArray _)
  · exact remains_fits (r := r.stayed residuals _) (Vec.size_toArray _)
  · exact remains_fits (r := r.stayed residuals _) (Vec.size_toArray _)

theorem attempt_fits (inPlace : t.problem.AbortsInPlace m n) (h : r.trialResiduals.size = m)
    (factor : Triangular α m n) (trust : TrustRegion α) :
    (r.attempt t factor trust).remains.workspace.Fits m n := by
  rcases r.attempt_cases t factor trust with
    ⟨_, -, step⟩ | ⟨abort, buffer, answer, step⟩ | ⟨_, -, -, step⟩ | ⟨residuals, -, step⟩ <;>
    rw [step]
  · exact remains_fits h
  · exact remains_fits (inPlace _ _ _ abort buffer (Vec.size_toArray _) h answer)
  · exact remains_fits h
  · exact judge_fits _ _ _ residuals

/-- A run that went on from a workspace with the dimensions of its problem leaves such a workspace,
whatever happens. -/
theorem advance_fits (inPlace : t.problem.AbortsInPlace m n) (h : r.trialResiduals.size = m)
    (phase : Phase α m n) : (r.advance t phase).remains.workspace.Fits m n := by
  cases phase with
  | linearize matrix progress => exact linearize_fits h matrix progress
  | attempt factor trust => exact attempt_fits inPlace h factor trust

theorem factorize_ok {jacobian : Mat α m n} {progress : Progress α} {f : Finished α σ}
    (h : r.factorize t jacobian progress = .ends f) : ∃ halt, f.result = .ok halt := by
  rcases r.factorize_cases t jacobian progress with ⟨-, step⟩ | ⟨-, step⟩ <;> rw [step] at h
  · cases h
    exact ⟨_, rfl⟩
  · cases h

theorem inform_ok (keeps : t.problem.KeepsDimensions m n) {jacobian : Mat α m n}
    {progress : Progress α} {f : Finished α σ} (h : r.inform t jacobian progress = .ends f) :
    ∃ halt, f.result = .ok halt := by
  rcases r.inform_cases t jacobian progress with
    ⟨-, step⟩ | ⟨-, ⟨_, answer, -⟩ | ⟨_, _, -, step⟩ | ⟨-, step⟩⟩
  · exact factorize_ok (step ▸ h)
  · have leaves := keeps.report r.problem progress.iteration r.point.toArray r.residuals.toArray
      (Vec.size_toArray _) (Vec.size_toArray _)
    change (r.reportReply t progress.iteration).answer.Leaves _ at leaves
    rw [answer] at leaves
    exact leaves.elim
  · rw [step] at h
    cases h
    exact ⟨_, rfl⟩
  · exact factorize_ok (step ▸ h)

theorem linearize_ok (keeps : t.problem.KeepsDimensions m n) {matrix : Mat α m n}
    {progress : Progress α} {f : Finished α σ} (h : r.linearize t matrix progress = .ends f) :
    ∃ halt, f.result = .ok halt := by
  have leaves := keeps.jacobian r.problem r.point.toArray matrix (Vec.size_toArray _)
  change (r.jacobianReply t matrix).answer.Leaves _ at leaves
  rcases r.linearize_cases t matrix progress with
    ⟨_, answer, -⟩ | ⟨_, _, -, step⟩ | ⟨_, answer, shape, -⟩ | ⟨_, -, step⟩
  · rw [answer] at leaves
    exact leaves.elim
  · rw [step] at h
    cases h
    exact ⟨_, rfl⟩
  · rw [answer] at leaves
    obtain ⟨_, hmat⟩ := Jacobian.exists_toMat? leaves
    rw [shape] at hmat
    cases hmat
  · exact inform_ok keeps (step ▸ h)

theorem attempt_ok (keeps : t.problem.KeepsDimensions m n) (htrial : r.trialResiduals.size = m)
    {factor : Triangular α m n} {trust : TrustRegion α} {f : Finished α σ}
    (h : r.attempt t factor trust = .ends f) : ∃ halt, f.result = .ok halt := by
  have leaves := keeps.residuals r.problem
    (r.proposed (r.search t factor trust)).buffers.trialPoint.toArray r.trialResiduals
    (Vec.size_toArray _) htrial
  change ((r.proposed (r.search t factor trust)).trialReply t).answer.Leaves _ at leaves
  rcases r.attempt_cases t factor trust with
    ⟨_, answer, -⟩ | ⟨_, _, -, step⟩ | ⟨_, answer, size, -⟩ | ⟨residuals, -, step⟩
  · rw [answer] at leaves
    exact leaves.elim
  · rw [step] at h
    cases h
    exact ⟨_, rfl⟩
  · rw [answer] at leaves
    obtain ⟨_, hvec⟩ := Vec.exists_ofArray? leaves
    rw [size] at hvec
    cases hvec
  · rw [step] at h
    rcases Run.judge_cases t _ _ trust _ residuals with
      ⟨-, ⟨_, -, step⟩ | ⟨-, step⟩⟩ | ⟨-, ⟨_, -, step⟩ | ⟨-, step⟩⟩ <;> rw [step] at h <;> cases h
    · exact ⟨_, rfl⟩
    · exact ⟨_, rfl⟩

/-- A problem that keeps its dimensions never makes a run fail. -/
theorem advance_ok (keeps : t.problem.KeepsDimensions m n) (htrial : r.trialResiduals.size = m)
    {phase : Phase α m n} {f : Finished α σ} (h : r.advance t phase = .ends f) :
    ∃ halt, f.result = .ok halt := by
  cases phase with
  | linearize => exact linearize_ok keeps h
  | attempt => exact attempt_ok keeps htrial h

end Run

namespace Task

variable {t : Task α σ m n} {l : Launch α σ m n} {committed : List (Evaluation α m n)}

theorem Reaches.fits (inPlace : t.problem.AbortsInPlace m n) (hl : l.trialResiduals.size = m)
    {a : Advance α σ m n} (h : t.Reaches l committed a) : a.remains.workspace.Fits m n := by
  induction h with
  | start => exact Run.remains_fits hl
  | step h ih => exact Run.advance_fits inPlace ih.trialResiduals _

theorem Reaches.ok (keeps : t.problem.KeepsDimensions m n) (hl : l.trialResiduals.size = m)
    {a : Advance α σ m n} (h : t.Reaches l committed a) {f : Finished α σ} (ha : a = .ends f) :
    ∃ halt, f.result = .ok halt := by
  cases h with
  | start => cases ha
  | step h => exact Run.advance_ok keeps (h.fits keeps.abortsInPlace hl).trialResiduals ha

/-- How a run begins: its first call fails, aborts, or leads to the first linearization. -/
theorem run_cases (t : Task α σ m n) (l : Launch α σ m n) :
    (∃ fault, (l.reply t).answer = .faulted fault ∧
      t.run l = ⟨.error fault, l.remains t l.residuals⟩) ∨
    (∃ abort written, (l.reply t).answer = .aborted abort written ∧
      t.run l = ⟨.ok ⟨.aborted abort.status, none⟩, l.remains t written⟩) ∨
    (∃ written, (l.reply t).answer = .done written ∧ Vec.ofArray? m written = none ∧
      t.run l = ⟨.error .residualCountChanged, l.remains t written⟩) ∨
    (∃ residuals : Vec α m, (l.reply t).answer = .done residuals.toArray ∧
      t.run l = Run.complete t (l.started t residuals) (.first residuals)) := by
  unfold run
  cases answer : (l.reply t).answer with
  | faulted fault => exact Or.inl ⟨fault, rfl, rfl⟩
  | aborted abort written => exact Or.inr (Or.inl ⟨abort, written, rfl, rfl⟩)
  | done written =>
    cases size : Vec.ofArray? m written with
    | none => exact Or.inr (Or.inr (Or.inl ⟨written, rfl, size, by simp only [size]⟩))
    | some residuals =>
      refine Or.inr (Or.inr (Or.inr ⟨residuals, ?_, by simp only [size]⟩))
      rw [Vec.eq_of_ofArray? size]

theorem Reaches.point_size {a : Advance α σ m n} (h : t.Reaches l committed a) :
    a.remains.point.size = n := by
  obtain ⟨c, _, -, hat⟩ := h.at_head
  rw [hat.point_eq]
  exact Vec.size_toArray _

theorem point_size_run (t : Task α σ m n) (l : Launch α σ m n) :
    (t.run l).remains.point.size = n := by
  rcases t.run_cases l with
    ⟨_, -, run⟩ | ⟨_, _, -, run⟩ | ⟨_, -, -, run⟩ | ⟨_, first, -⟩
  · rw [run]
    exact Vec.size_toArray _
  · rw [run]
    exact Vec.size_toArray _
  · rw [run]
    exact Vec.size_toArray _
  · obtain ⟨_, h⟩ := reaches_run first
    exact h.point_size

theorem run_ok (keeps : t.problem.KeepsDimensions m n) (hresiduals : l.residuals.size = m)
    (htrial : l.trialResiduals.size = m) : ∃ halt, (t.run l).result = .ok halt := by
  have leaves := keeps.residuals l.problem l.point.toArray l.residuals (Vec.size_toArray _)
    hresiduals
  change (l.reply t).answer.Leaves _ at leaves
  rcases t.run_cases l with
    ⟨_, answer, -⟩ | ⟨_, _, -, run⟩ | ⟨_, answer, size, -⟩ | ⟨_, first, -⟩
  · rw [answer] at leaves
    exact leaves.elim
  · rw [run]
    exact ⟨_, rfl⟩
  · rw [answer] at leaves
    obtain ⟨_, hvec⟩ := Vec.exists_ofArray? leaves
    rw [size] at hvec
    cases hvec
  · obtain ⟨_, h⟩ := reaches_run first
    exact h.ok keeps htrial rfl

/-- A run that halts leaves a workspace with the dimensions of its problem. -/
theorem run_fits (inPlace : t.problem.AbortsInPlace m n) (hresiduals : l.residuals.size = m)
    (htrial : l.trialResiduals.size = m) {halt : Halt α} (hhalt : (t.run l).result = .ok halt) :
    (t.run l).remains.workspace.Fits m n := by
  rcases t.run_cases l with
    ⟨_, -, run⟩ | ⟨abort, written, answer, run⟩ | ⟨_, -, -, run⟩ | ⟨_, first, -⟩
  · rw [run] at hhalt
    cases hhalt
  · rw [run]
    refine Workspace.fits_ofBuffers _ ?_ htrial
    exact inPlace _ _ _ abort written (Vec.size_toArray _) hresiduals answer
  · rw [run] at hhalt
    cases hhalt
  · obtain ⟨_, h⟩ := reaches_run first
    exact h.fits inPlace htrial

end Task

/-- How a run that halted is closed: with a last report, if there is one, that may still fail. -/
theorem Finished.close_cases {f : Finished α σ} {halt : Halt α} (h : f.result = .ok halt)
    (problem : Problem α σ) (reportEvery : Nat) :
    let reply := problem.report f.remains.problem halt.iteration f.remains.point
      f.remains.workspace.residuals
    let told := f.remains.reported halt.iteration reply
    (∃ left, (left = f.remains ∨ left = told) ∧
      f.close problem reportEvery = left.closed halt) ∨
    (∃ fault, reply.answer = .faulted fault ∧
      f.close problem reportEvery = told.faulted fault) := by
  intro reply told
  obtain ⟨_, remains⟩ := f
  cases h
  unfold close
  dsimp only
  split
  · exact Or.inl ⟨remains, Or.inl rfl, rfl⟩
  · split
    · rename_i fault answer
      exact Or.inr ⟨fault, answer, rfl⟩
    · exact Or.inl ⟨told, Or.inr rfl, rfl⟩
    · exact Or.inl ⟨told, Or.inr rfl, rfl⟩

/-- A run of a problem that keeps its dimensions ends with a report. -/
theorem Task.close_run (t : Task α σ m n) (l : Launch α σ m n)
    (keeps : t.problem.KeepsDimensions m n) (hresiduals : l.residuals.size = m)
    (htrial : l.trialResiduals.size = m) (reportEvery : Nat) :
    ∃ halt left, (t.run l).result = .ok halt ∧
      (left = (t.run l).remains ∨ ∃ reply, left = (t.run l).remains.reported halt.iteration reply) ∧
      (t.run l).close t.problem reportEvery = left.closed halt := by
  obtain ⟨halt, hhalt⟩ := run_ok keeps hresiduals htrial
  refine ⟨halt, ?_⟩
  rcases Finished.close_cases hhalt t.problem reportEvery with
    ⟨left, hleft, closed⟩ | ⟨fault, answer, -⟩
  · exact ⟨left, hhalt, hleft.imp_right fun told => ⟨_, told⟩, closed⟩
  · have leaves := keeps.report (t.run l).remains.problem halt.iteration _ _ (t.point_size_run l)
      (run_fits keeps.abortsInPlace hresiduals htrial hhalt).residuals
    rw [answer] at leaves
    exact leaves.elim

namespace Settings

variable {s : Settings α} {problem : Problem α σ} {state : σ} {x : Array α}
  {workspace : Workspace α} {k l : Nat}

theorem exists_closed (fits : workspace.Fits k l)
    (valid : s.error? problem.residualCount x.size = none)
    (keeps : problem.KeepsDimensions problem.residualCount x.size) :
    let t := s.task problem x.size valid
    ∃ launch halt left, launch? state x workspace = some launch ∧
      (t.run launch).result = .ok halt ∧
      (left = (t.run launch).remains ∨
        ∃ reply, left = (t.run launch).remains.reported halt.iteration reply) ∧
      s.minimizeWith problem state x workspace = left.closed halt := by
  intro t
  obtain ⟨launch, launched, -⟩ := exists_launch? fits.coherent problem.residualCount state x
  obtain ⟨-, -, hresiduals, htrial⟩ := launch?_eq_some launched
  have prepared := fits.prepared problem.residualCount x.size
  obtain ⟨halt, left, hhalt, hleft, closed⟩ := t.close_run launch keeps
    (hresiduals ▸ prepared.residuals) (htrial ▸ prepared.trialResiduals) s.reportEvery
  exact ⟨launch, halt, left, launched, hhalt, hleft,
    (minimizeWith_eq_close valid launched).trans closed⟩

theorem exists_report (fits : workspace.Fits k l)
    (valid : s.error? problem.residualCount x.size = none)
    (keeps : problem.KeepsDimensions problem.residualCount x.size) :
    ∃ report, (s.minimizeWith problem state x workspace).result = .ok report := by
  obtain ⟨_, _, _, -, -, -, closed⟩ := exists_closed fits valid keeps
  rw [closed]
  exact ⟨_, rfl⟩

end Settings

end LeastSquares
