import LeastSquares.Proofs.Commitment

namespace LeastSquares

variable {α σ : Type} {m n : Nat}

namespace History

theorem calls_push (h : History α) (e : Event α) (call : e.record? = none) :
    (calls (h.push e)).toList = h.calls.toList ++ [e] := by
  simp [calls, call]

theorem calls_log (h : History α) (records : List (LogRecord α)) :
    calls (h ++ (records.map Event.log).toArray) = h.calls := by
  have logged : (records.map Event.log).filter (fun e => e.record?.isNone) = [] := by
    simp [Event.record?]
  simp [calls, logged]

end History

namespace Run

theorem calls_announced (r : Run α σ m n) (trust : TrustRegion α) :
    (r.announced trust).history.calls = r.history.calls :=
  History.calls_log _ _

/-- How the report of a linearization ended, if there is one. It follows a Jacobian call that ran to
its end, in the iterations for which a report is due. -/
def reportAnswer? (t : Task α σ m n) (r : Run α σ m n) (matrix : Mat α m n)
    (progress : Progress α) : Option (Answer Unit) :=
  let reply := r.jacobianReply t matrix
  if (reply.answer.output?.bind (·.toMat? m n)).isSome && reportDue t progress.iteration then
    some ((r.differentiated matrix reply).reportReply t progress.iteration).answer
  else none

def linearizationCalls (t : Task α σ m n) (r : Run α σ m n) (matrix : Mat α m n)
    (progress : Progress α) : List (Event α) :=
  .jacobian r.point.toArray ⟨m, n, matrix⟩ (r.jacobianReply t matrix).answer.output? ::
    ((r.reportAnswer? t matrix progress).map fun _ =>
      .report progress.iteration r.point.toArray r.residuals.toArray).toList

variable {t : Task α σ m n} {r : Run α σ m n}

theorem reportAnswer?_of_output? {matrix : Mat α m n} {progress : Progress α}
    (h : (r.jacobianReply t matrix).answer.output?.bind (·.toMat? m n) = none) :
    r.reportAnswer? t matrix progress = none := by
  simp [reportAnswer?, h]

theorem reportAnswer?_of_done {matrix jacobian : Mat α m n} {progress : Progress α}
    (answer : (r.jacobianReply t matrix).answer = .done ⟨m, n, jacobian⟩) :
    r.reportAnswer? t matrix progress =
      if reportDue t progress.iteration then
        some ((r.differentiated matrix (r.jacobianReply t matrix)).reportReply t
          progress.iteration).answer
      else none := by
  simp [reportAnswer?, answer, Answer.output?, Jacobian.toMat?_mk]

variable [Scalar α]

theorem calls_proposed (r : Run α σ m n) (found : SearchOutcome α m n) :
    (r.proposed found).history.calls = r.history.calls :=
  History.calls_log _ _

theorem calls_stayed (r : Run α σ m n) (residuals : Vec α m) (trust : TrustRegion α) :
    (r.stayed residuals trust).history.calls = r.history.calls :=
  History.calls_log _ _

def stepCalls (t : Task α σ m n) (r : Run α σ m n) : Phase α m n → List (Event α)
  | .linearize matrix progress => r.linearizationCalls t matrix progress
  | .attempt factor trust =>
    let proposed := r.proposed (r.search t factor trust)
    [.residuals proposed.buffers.trialPoint.toArray (proposed.trialReply t).answer.output?]

theorem calls_factorize (jacobian : Mat α m n) (progress : Progress α) :
    (r.factorize t jacobian progress).remains.history.calls = r.history.calls := by
  rcases r.factorize_cases t jacobian progress with ⟨-, step⟩ | ⟨-, step⟩ <;> rw [step]
  · exact calls_announced _ _
  · exact calls_announced _ _

theorem calls_inform (jacobian : Mat α m n) (progress : Progress α) :
    (r.inform t jacobian progress).remains.history.calls.toList =
      r.history.calls.toList ++
        if reportDue t progress.iteration then
          [.report progress.iteration r.point.toArray r.residuals.toArray] else [] := by
  let told := r.reported progress.iteration (r.reportReply t progress.iteration)
  have called : told.history.calls.toList = r.history.calls.toList ++
      [.report progress.iteration r.point.toArray r.residuals.toArray] :=
    History.calls_push _ _ rfl
  rcases r.inform_cases t jacobian progress with
    ⟨due, step⟩ | ⟨due, ⟨_, -, step⟩ | ⟨_, _, -, step⟩ | ⟨-, step⟩⟩ <;> rw [step, due]
  · rw [calls_factorize, if_neg Bool.false_ne_true, List.append_nil]
  · exact called
  · exact called
  · rw [calls_factorize]
    exact called

theorem calls_linearize (matrix : Mat α m n) (progress : Progress α) :
    (r.linearize t matrix progress).remains.history.calls.toList =
      r.history.calls.toList ++ r.linearizationCalls t matrix progress := by
  let reply := r.jacobianReply t matrix
  have called : (r.differentiated matrix reply).history.calls.toList = r.history.calls.toList ++
      [.jacobian r.point.toArray ⟨m, n, matrix⟩ reply.answer.output?] :=
    History.calls_push _ _ rfl
  unfold linearizationCalls
  rcases r.linearize_cases t matrix progress with
    ⟨_, answer, step⟩ | ⟨_, _, answer, step⟩ | ⟨_, answer, shape, step⟩ | ⟨jacobian, answer, step⟩
    <;> rw [step]
  · rw [reportAnswer?_of_output? (by rw [answer]; rfl)]
    exact called
  · rw [reportAnswer?_of_output? (by rw [answer]; rfl)]
    exact called
  · rw [reportAnswer?_of_output? (by rw [answer]; exact shape)]
    exact called
  · rw [reportAnswer?_of_done answer, calls_inform, called, List.append_assoc]
    cases reportDue t progress.iteration with
    | true => rfl
    | false => rfl

theorem calls_judge (factor : Triangular α m n) (trust : TrustRegion α) (damping : α)
    (residuals : Vec α m) :
    (r.judge t factor trust damping residuals).remains.history.calls = r.history.calls := by
  rcases r.judge_cases t factor trust damping residuals with
    ⟨-, ⟨_, -, step⟩ | ⟨-, step⟩⟩ | ⟨-, ⟨_, -, step⟩ | ⟨-, step⟩⟩ <;> rw [step]
  · rfl
  · rfl
  · exact calls_stayed _ _ _
  · exact calls_stayed _ _ _

theorem calls_attempt (factor : Triangular α m n) (trust : TrustRegion α) :
    (r.attempt t factor trust).remains.history.calls.toList =
      r.history.calls.toList ++ r.stepCalls t (.attempt factor trust) := by
  let proposed := r.proposed (r.search t factor trust)
  have called : (proposed.evaluated (proposed.trialReply t)).history.calls.toList =
      r.history.calls.toList ++ r.stepCalls t (.attempt factor trust) := by
    rw [evaluated, History.calls_push _ _ rfl, calls_proposed]
    rfl
  rcases r.attempt_cases t factor trust with
    ⟨_, -, step⟩ | ⟨_, _, -, step⟩ | ⟨_, -, -, step⟩ | ⟨residuals, -, step⟩ <;> rw [step]
  · exact called
  · exact called
  · exact called
  · rw [calls_judge]
    exact called

/-- A step adds its calls to those that were made before. -/
theorem calls_advance (phase : Phase α m n) :
    (r.advance t phase).remains.history.calls.toList =
      r.history.calls.toList ++ r.stepCalls t phase := by
  cases phase with
  | linearize matrix progress => exact calls_linearize matrix progress
  | attempt factor trust => exact calls_attempt factor trust

theorem calls_prefix_complete (t : Task α σ m n) (r : Run α σ m n) (phase : Phase α m n) :
    r.history.calls.toList <+: (r.complete t phase).remains.history.calls.toList := by
  fun_induction Run.complete t r phase with
  | case1 r phase finished step =>
    have calls := calls_advance (t := t) (r := r) phase
    rw [step] at calls
    exact ⟨_, calls.symm⟩
  | case2 r phase r' next step _ ih =>
    have calls := calls_advance (t := t) (r := r) phase
    rw [step] at calls
    exact List.IsPrefix.trans ⟨_, calls.symm⟩ ih

/-- A run that goes on after a step makes the calls of the step first. -/
theorem calls_advance_prefix_complete (t : Task α σ m n) (r : Run α σ m n) (phase : Phase α m n) :
    (r.advance t phase).remains.history.calls.toList <+:
      (r.complete t phase).remains.history.calls.toList := by
  cases step : r.advance t phase with
  | ends f =>
    rw [complete_of_ends step]
    exact List.prefix_refl _
  | continues r' next =>
    rw [complete_of_continues step]
    exact calls_prefix_complete t r' next

end Run

theorem Halt.accepted_eq (halt : Halt α) : halt.accepted = halt.iteration - 1 := by
  unfold accepted iteration
  split <;> rfl

def lastReport (reportEvery iteration : Nat) (point residuals : Array α) : List (Event α) :=
  if reportEvery = 0 then [] else [.report iteration point residuals]

namespace Finished

variable [Scalar α] {f : Finished α σ} {halt : Halt α}

theorem calls_closed (r : Remains α σ) (halt : Halt α) :
    (r.closed halt).history.calls = r.history.calls :=
  History.calls_log _ _

theorem close_of_quiet (h : f.result = .ok halt) (problem : Problem α σ) :
    f.close problem 0 = f.remains.closed halt := by
  obtain ⟨_, r⟩ := f
  cases h
  rfl

/-- Closing a run that halted makes at most a last call, and how that is answered does not matter
unless it fails. -/
theorem close_of_ok (h : f.result = .ok halt) {problem : Problem α σ} (reportEvery : Nat)
    (answered : ∀ fault, (problem.report f.remains.problem halt.iteration f.remains.point
      f.remains.workspace.residuals).answer ≠ .faulted fault) :
    let out := f.close problem reportEvery
    out.result = .ok (f.remains.report halt) ∧ out.point = f.remains.point ∧
      out.history.calls.toList = f.remains.history.calls.toList ++
        lastReport reportEvery halt.iteration f.remains.point f.remains.workspace.residuals := by
  obtain ⟨_, r⟩ := f
  cases h
  have told (reply : Reply σ Unit) :
      ((r.reported halt.iteration reply).closed halt).history.calls.toList =
        r.history.calls.toList ++ [.report halt.iteration r.point r.workspace.residuals] := by
    rw [calls_closed]
    exact History.calls_push _ _ rfl
  unfold close lastReport
  dsimp only at answered ⊢
  split
  · refine ⟨rfl, rfl, ?_⟩
    rw [calls_closed, List.append_nil]
  · split
    · rename_i fault answer
      exact absurd answer (answered fault)
    · exact ⟨rfl, rfl, told _⟩
    · exact ⟨rfl, rfl, told _⟩

end Finished

end LeastSquares
