import LeastSquares.Proofs.Calls
import LeastSquares.Proofs.Dimensions
import LeastSquares.Proofs.Predictions

namespace LeastSquares

/-- Whether the calls of a problem that run to their end write residuals and, into a matrix of
zeros, a Jacobian that are in the given relations to the point. -/
structure Problem.Writes {α σ : Type} [Zero α] {m n : Nat} (p : Problem α σ)
    (values : Vec α n → Vec α m → Prop) (derivatives : Vec α n → Mat α m n → Prop) : Prop where
  residuals : ∀ s (x : Vec α n) buffer (written : Vec α m),
    (p.residuals s x.toArray buffer).answer = .done written.toArray → values x written
  jacobian : ∀ s (x : Vec α n) (written : Mat α m n),
    (p.jacobian s x.toArray ⟨m, n, .fill m n 0⟩).answer = .done ⟨m, n, written⟩ →
      derivatives x written

theorem Answer.eq_done_of_output? {β : Type} {answer : Answer β} {written : β}
    (h : answer.output? = some written) : answer = .done written := by
  cases answer with
  | done =>
    cases h
    rfl
  | aborted => cases h
  | faulted => cases h

def Event.point? {α : Type} : Event α → Option (Array α)
  | .residuals point _ => some point
  | .jacobian point _ _ => some point
  | .report _ point _ => some point
  | .log _ => none

variable {α σ : Type} {m n : Nat}

theorem History.mem_calls {h : History α} {e : Event α} :
    e ∈ h.calls ↔ e ∈ h ∧ e.record?.isNone = true :=
  Array.mem_filter

theorem History.mem_calls_of_point {h : History α} {e : Event α} (he : e ∈ h) {point : Array α}
    (hpoint : point ∈ e.point?) : e ∈ h.calls := by
  refine mem_calls.mpr ⟨he, ?_⟩
  cases e with
  | log => cases hpoint
  | residuals => rfl
  | jacobian => rfl
  | report => rfl

variable [Scalar α]

/-- Closing a run leaves the point where it is. It reports there if at all, and calls the problem
for nothing else. -/
theorem Finished.close_extends (f : Finished α σ) (problem : Problem α σ) (reportEvery : Nat) :
    let out := f.close problem reportEvery
    out.point = f.remains.point ∧ f.remains.history.Extends out.history fun e =>
      (∃ record, e = .log record) ∨
        ∃ iteration, e = .report iteration f.remains.point f.remains.workspace.residuals := by
  let Closing (e : Event α) : Prop := (∃ record, e = .log record) ∨
    ∃ iteration, e = .report iteration f.remains.point f.remains.workspace.residuals
  have hlog (record : LogRecord α) : Closing (.log record) := Or.inl ⟨record, rfl⟩
  have htold (iteration : Nat) (reply : Reply σ Unit) : f.remains.history.Extends
      (f.remains.reported iteration reply).history Closing :=
    History.extends_push (Or.inr ⟨iteration, rfl⟩)
  intro out
  cases hresult : f.result with
  | error fault =>
    have hclose : out = f.remains.faulted fault := by
      change f.close problem reportEvery = _
      rw [close, hresult]
    rw [hclose]
    exact ⟨rfl, History.extends_log [] hlog⟩
  | ok halt =>
    rcases Finished.close_cases hresult problem reportEvery with
      ⟨left, rfl | rfl, hclose⟩ | ⟨fault, -, hclose⟩ <;> rw [show out = _ from hclose]
    · exact ⟨rfl, History.extends_log _ hlog⟩
    · exact ⟨rfl, (htold _ _).trans (History.extends_log _ hlog)⟩
    · exact ⟨rfl, (htold _ _).trans (History.extends_log [] hlog)⟩

namespace Task.Reaches

variable {t : Task α σ m n} {l : Launch α σ m n} {committed : List (Evaluation α m n)}

/-- A run asks for a Jacobian with a matrix of zeros. -/
theorem matrix_eq {a : Advance α σ m n} (h : t.Reaches l committed a) {r : Run α σ m n}
    {matrix : Mat α m n} {progress : Progress α}
    (ha : a = .continues r (.linearize matrix progress)) : matrix = .fill m n 0 := by
  cases h with
  | start =>
    cases ha
    rfl
  | @step _ before phase h =>
    cases phase with
    | linearize =>
      obtain ⟨-, _, _, hphase⟩ := Run.linearize_continues ha
      cases hphase
    | attempt factor trust =>
      obtain ⟨residuals, ⟨-, -, hnext⟩ | ⟨-, -, hnext⟩⟩ := Run.judged_of_attempt ha
      · cases hnext
        rfl
      · cases hnext

/-- What holds of the first call, and of the calls of a step whenever it holds of those before,
holds of every call of a run. -/
theorem call_induction {P : Event α → Prop}
    (first : P (.residuals l.point.toArray (l.reply t).answer.output?))
    (next : ∀ {committed : List (Evaluation α m n)} {r : Run α σ m n} {phase : Phase α m n},
      t.Reaches l committed (.continues r phase) → (∀ e ∈ r.history.calls, P e) →
      ∀ e ∈ r.stepCalls t phase, P e)
    {a : Advance α σ m n} (h : t.Reaches l committed a) : ∀ e ∈ a.remains.history.calls, P e := by
  induction h with
  | start answer =>
    intro e he
    obtain ⟨he, -⟩ := History.mem_calls.mp he
    rw [Array.mem_singleton.mp he]
    exact first
  | @step _ r phase h ih =>
    intro e he
    rw [Array.mem_def, Run.calls_advance] at he
    rcases List.mem_append.mp he with he | he
    · exact ih e (Array.mem_def.mpr he)
    · exact next h ih e he

variable {values : Vec α n → Vec α m → Prop} {derivatives : Vec α n → Mat α m n → Prop}

/-- The evaluations that a run commits to are written by its problem. -/
theorem values_of_committed (writes : t.problem.Writes values derivatives) {a : Advance α σ m n}
    (h : t.Reaches l committed a) : ∀ c ∈ committed, values c.point c.residuals := by
  induction h with
  | start answer =>
    intro c hc
    rw [List.mem_singleton.mp hc]
    exact writes.residuals _ _ _ _ answer
  | @step _ r phase _ ih =>
    intro c hc
    rcases List.mem_append.mp hc with hc | hc
    · obtain ⟨_, _, -, answer, hpoint, -⟩ := Run.committed?_eq_some (Option.mem_toList.mp hc)
      rw [hpoint]
      exact writes.residuals _ _ _ _ answer
    · exact ih c hc

theorem values_of_current (writes : t.problem.Writes values derivatives) {r : Run α σ m n}
    {phase : Phase α m n} (h : t.Reaches l committed (.continues r phase)) :
    values r.point r.residuals := by
  obtain ⟨c, earlier, rfl, hat⟩ := h.at_head
  obtain rfl := hat.current_eq
  exact h.values_of_committed writes _ (List.mem_cons_self ..)

/-- The last Jacobian of a run is written by its problem. -/
theorem derivatives_of_lastJacobian? (writes : t.problem.Writes values derivatives)
    {a : Advance α σ m n} (h : t.Reaches l committed a) {jacobian : Mat α m n}
    (hlast : a.remains.history.lastJacobian? = some ⟨m, n, jacobian⟩) :
    ∃ x, derivatives x jacobian := by
  let P (e : Event α) : Prop :=
    ∀ written : Mat α m n, e.differentiated? = some ⟨m, n, written⟩ → ∃ x, derivatives x written
  have hcalls : ∀ e ∈ a.remains.history.calls, P e := by
    refine h.call_induction (P := P) (fun _ he => nomatch he) ?_
    intro committed r phase h _ e he written hwritten
    cases phase with
    | linearize matrix progress =>
      rcases List.mem_cons.mp he with rfl | he
      · obtain rfl := h.matrix_eq rfl
        exact ⟨r.point, writes.jacobian _ _ _ (Answer.eq_done_of_output? hwritten)⟩
      · obtain ⟨_, -, rfl⟩ := Option.map_eq_some_iff.mp (Option.mem_toList.mp he)
        cases hwritten
    | attempt =>
      rw [List.mem_singleton.mp he] at hwritten
      cases hwritten
  obtain ⟨e, he, hwritten⟩ := List.mem_filterMap.mp (List.mem_of_getLast? hlast)
  refine hcalls e (History.mem_calls.mpr ⟨Array.mem_def.mpr he, ?_⟩) jacobian hwritten
  cases e with
  | log => cases hwritten
  | residuals => rfl
  | jacobian => rfl
  | report => rfl

end Task.Reaches

end LeastSquares
