import LeastSquares.Proofs.Calls
import LeastSquares.Proofs.Effort

namespace LeastSquares

variable {α σ : Type} {m n : Nat}

/-- A call at a trial point: how it ended, and the verdict on its residuals if there are any. -/
structure Attempt (α : Type) (n : Nat) where
  point : Vec α n
  answer : Answer (Array α)
  verdict : Option Verdict

namespace Attempt

def call (a : Attempt α n) : Event α :=
  .residuals a.point.toArray a.answer.output?

structure Judged (a : Attempt α n) (residuals : Vec α m) (verdict : Verdict) : Prop where
  answer_eq : a.answer = .done residuals.toArray
  verdict_eq : a.verdict = some verdict

end Attempt

/-- Why and where a run ends, and how many steps it accepted until then. -/
structure Ending (α : Type) (m n : Nat) where
  termination : Termination
  accepted : Nat
  final : Evaluation α m n

/-- The calls at one evaluation: for the Jacobian, perhaps with a report, and at trial points, the
latest first. -/
structure Round (α : Type) (m n : Nat) where
  start : Evaluation α m n
  jacobian : Answer (Jacobian α)
  report : Option (Answer Unit)
  attempts : List (Attempt α n)

namespace Round

def tries (r : Round α m n) (a : Attempt α n) : Round α m n :=
  { r with attempts := a :: r.attempts }

def Due (reportEvery number : Nat) : Prop :=
  0 < reportEvery ∧ (number - 1) % reportEvery = 0

instance (reportEvery number : Nat) : Decidable (Due reportEvery number) :=
  inferInstanceAs (Decidable (_ ∧ _))

/-- Whether a round at an evaluation is still trying: no call was aborted and no trial accepted. -/
structure Trying (reportEvery number : Nat) (c : Evaluation α m n) (r : Round α m n) : Prop where
  start_eq : r.start = c
  jacobian_eq : ∃ a : Mat α m n, r.jacobian = .done ⟨m, n, a⟩
  report_eq : r.report = if Due reportEvery number then some (.done ()) else none
  rejected : ∀ a ∈ r.attempts, ∃ residuals : Vec α m, a.Judged residuals ⟨false, none⟩

/-- Whether rounds, the latest first, lead from one evaluation to another. Each ends with the trial
that was accepted, and the next one starts there. -/
inductive Chain (reportEvery : Nat) (first : Evaluation α m n) :
    List (Round α m n) → Evaluation α m n → Prop
  | nil : Chain reportEvery first [] first
  | next {earlier : List (Round α m n)} {c : Evaluation α m n} {r : Round α m n} {a : Attempt α n}
    {residuals : Vec α m} (chain : Chain reportEvery first earlier c)
    (trying : r.Trying reportEvery (earlier.length + 1) c)
    (judged : a.Judged residuals ⟨true, none⟩) :
    Chain reportEvery first (r.tries a :: earlier) ⟨a.point, residuals⟩

inductive Ends (reportEvery accepted : Nat) (c : Evaluation α m n) :
    Round α m n → Ending α m n → Prop
  | jacobianAborted (abort : Abort) (output : Jacobian α) :
    Ends reportEvery accepted c ⟨c, .aborted abort output, none, []⟩
      ⟨.aborted abort.status, accepted, c⟩
  | reportAborted (a : Mat α m n) (abort : Abort) (due : Due reportEvery (accepted + 1)) :
    Ends reportEvery accepted c ⟨c, .done ⟨m, n, a⟩, some (.aborted abort ()), []⟩
      ⟨.aborted abort.status, accepted, c⟩
  | converged {r : Round α m n} (trying : r.Trying reportEvery (accepted + 1) c)
    (untried : r.attempts = []) :
    Ends reportEvery accepted c r ⟨.gradientConverged, accepted, c⟩
  | trialAborted {r : Round α m n} (trying : r.Trying reportEvery (accepted + 1) c)
    (point : Vec α n) (abort : Abort) (output : Array α) :
    Ends reportEvery accepted c (r.tries ⟨point, .aborted abort output, none⟩)
      ⟨.aborted abort.status, accepted, c⟩
  | rejected {r : Round α m n} {a : Attempt α n} {residuals : Vec α m} {termination : Termination}
    (trying : r.Trying reportEvery (accepted + 1) c)
    (judged : a.Judged residuals ⟨false, some termination⟩)
    (unforced : ∀ status, termination ≠ .aborted status) :
    Ends reportEvery accepted c (r.tries a) ⟨termination, accepted, c⟩
  | accepted {r : Round α m n} {a : Attempt α n} {residuals : Vec α m} {termination : Termination}
    (trying : r.Trying reportEvery (accepted + 1) c)
    (judged : a.Judged residuals ⟨true, some termination⟩)
    (unforced : ∀ status, termination ≠ .aborted status) :
    Ends reportEvery accepted c (r.tries a) ⟨termination, accepted + 1, ⟨a.point, residuals⟩⟩

/-- The request of the problem that ends a run has a negative status. -/
theorem Ends.status_neg {reportEvery accepted : Nat} {c : Evaluation α m n} {r : Round α m n}
    {e : Ending α m n} (h : r.Ends reportEvery accepted c e) {status : Int}
    (aborted : e.termination = .aborted status) : status < 0 := by
  cases h with
  | jacobianAborted abort | reportAborted _ abort | trialAborted _ _ abort =>
    cases aborted
    exact abort.status_neg
  | converged => cases aborted
  | rejected _ _ unforced | accepted _ _ unforced => exact absurd aborted (unforced status)

variable [Zero α]

def calls (number : Nat) (r : Round α m n) : List (Event α) :=
  .jacobian r.start.point.toArray ⟨m, n, .fill m n 0⟩ r.jacobian.output? ::
    ((r.report.map fun _ =>
        .report number r.start.point.toArray r.start.residuals.toArray).toList ++
      r.attempts.reverse.map Attempt.call)

def allCalls : List (Round α m n) → List (Event α)
  | [] => []
  | r :: earlier => allCalls earlier ++ r.calls (earlier.length + 1)

theorem allCalls_tries (r : Round α m n) (a : Attempt α n) (earlier : List (Round α m n)) :
    allCalls (r.tries a :: earlier) = allCalls (r :: earlier) ++ [a.call] := by
  simp [allCalls, calls, tries]

end Round

theorem Halt.iteration_trust? (termination : Termination) (progress : Progress α) :
    (Halt.mk termination progress.trust?).iteration = progress.iteration := by
  cases progress with
  | fresh => rfl
  | underway => rfl

/-- Only the problem asks a run to stop, never a verdict. -/
theorem TrustRegion.judge_termination_ne_aborted [Arith α] (criteria : Criteria α)
    (s : TrustRegion α) (t : Trial α) (status : Int) :
    (s.judge criteria t).2.termination ≠ some (.aborted status) := by
  intro h
  rcases Option.or_eq_some_iff.mp h with h | ⟨-, h⟩
  · unfold convergence at h
    split at h <;> cases h
  · unfold limit at h
    repeat' split at h
    all_goals cases h

structure Finished.HaltsAs (f : Finished α σ) (e : Ending α m n) : Prop where
  halts : ∃ halt, f.result = .ok halt ∧ halt.termination = e.termination ∧
    halt.iteration = e.accepted + 1
  point_eq : f.remains.point = e.final.point.toArray
  residuals_eq : f.remains.workspace.residuals = e.final.residuals.toArray

theorem Run.reportDue_eq_true_iff {t : Task α σ m n} {number : Nat} :
    reportDue t number = true ↔ Round.Due t.reportEvery number := by
  simp [reportDue, Round.Due]

variable [Scalar α]

namespace Run

def opened (t : Task α σ m n) (r : Run α σ m n) (matrix : Mat α m n) (progress : Progress α) :
    Round α m n :=
  ⟨r.current, (r.jacobianReply t matrix).answer, r.reportAnswer? t matrix progress, []⟩

def attempted (t : Task α σ m n) (r : Run α σ m n) (factor : Triangular α m n)
    (trust : TrustRegion α) : Attempt α n :=
  let found := r.search t factor trust
  let reply := (r.proposed found).trialReply t
  let tried := (r.proposed found).evaluated reply
  { point := tried.buffers.trialPoint
    answer := reply.answer
    verdict := (reply.answer.output?.bind (Vec.ofArray? m)).map fun residuals =>
      (tried.judgement t trust found.damping residuals).2 }

end Run

/-- What a run reaches from the start of a task, with the rounds that it played, the latest
first. -/
inductive Task.Plays (t : Task α σ m n) (l : Launch α σ m n) :
    List (Round α m n) → Advance α σ m n → Prop
  | start {residuals : Vec α m} (h : (l.reply t).answer = .done residuals.toArray) :
    Plays t l [] (.continues (l.started t residuals) (.first residuals))
  | linearize {rounds : List (Round α m n)} {r : Run α σ m n} {matrix : Mat α m n}
    {progress : Progress α} (h : Plays t l rounds (.continues r (.linearize matrix progress))) :
    Plays t l (r.opened t matrix progress :: rounds) (r.linearize t matrix progress)
  | attempt {round : Round α m n} {earlier : List (Round α m n)} {r : Run α σ m n}
    {factor : Triangular α m n} {trust : TrustRegion α}
    (h : Plays t l (round :: earlier) (.continues r (.attempt factor trust))) :
    Plays t l (round.tries (r.attempted t factor trust) :: earlier) (r.attempt t factor trust)

def Advance.Follows (reportEvery : Nat) (first : Evaluation α m n) (rounds : List (Round α m n)) :
    Advance α σ m n → Prop
  | .continues r (.linearize matrix progress) =>
    matrix = .fill m n 0 ∧ progress.iteration = rounds.length + 1 ∧
      Round.Chain reportEvery first rounds r.current
  | .continues r (.attempt _ trust) =>
    ∃ round earlier, rounds = round :: earlier ∧ trust.iteration = earlier.length + 1 ∧
      Round.Chain reportEvery first earlier r.current ∧
      round.Trying reportEvery (earlier.length + 1) r.current
  | .ends f =>
    ∃ round earlier c e, rounds = round :: earlier ∧
      Round.Chain reportEvery first earlier c ∧ round.Ends reportEvery earlier.length c e ∧
      f.HaltsAs e

namespace Run

variable {t : Task α σ m n} {r : Run α σ m n} {first : Evaluation α m n} {round : Round α m n}
  {earlier : List (Round α m n)}

/-- A run that halts at its point ends its last round there. -/
theorem halt_follows {termination : Termination} {trust : Option (TrustRegion α)}
    (chain : Round.Chain t.reportEvery first earlier r.current)
    (ends : round.Ends t.reportEvery earlier.length r.current
      ⟨termination, earlier.length, r.current⟩)
    (hiteration : (Halt.mk termination trust).iteration = earlier.length + 1) :
    (r.halt termination trust).Follows t.reportEvery first (round :: earlier) :=
  ⟨round, earlier, r.current, _, rfl, chain, ends, ⟨_, rfl, rfl, hiteration⟩, rfl, rfl⟩

theorem factorize_follows (chain : Round.Chain t.reportEvery first earlier r.current)
    (trying : round.Trying t.reportEvery (earlier.length + 1) r.current)
    (untried : round.attempts = []) {progress : Progress α}
    (hiteration : progress.iteration = earlier.length + 1) (jacobian : Mat α m n) :
    (r.factorize t jacobian progress).Follows t.reportEvery first (round :: earlier) := by
  have hresumed (columnNorms : Vec α n) :
      (r.resumed t columnNorms progress).1.iteration = earlier.length + 1 := by
    rw [← hiteration]
    cases progress <;> rfl
  rcases r.factorize_cases t jacobian progress with ⟨-, step⟩ | ⟨-, step⟩ <;> rw [step]
  · exact halt_follows chain (.converged trying untried) (hresumed _)
  · exact ⟨round, earlier, rfl, hresumed _, chain, trying⟩

theorem linearize_follows (keeps : t.problem.KeepsDimensions m n)
    (chain : Round.Chain t.reportEvery first earlier r.current) {progress : Progress α}
    (hiteration : progress.iteration = earlier.length + 1) (matrix : Mat α m n) :
    (r.linearize t matrix progress).Follows t.reportEvery first
      (r.opened t matrix progress :: earlier) := by
  have halted {f : Finished α σ} (step : r.linearize t matrix progress = .ends f) :
      ∃ halt, f.result = .ok halt :=
    linearize_ok keeps step
  rcases r.linearize_cases t matrix progress with
    ⟨_, -, step⟩ | ⟨abort, output, answer, step⟩ | ⟨_, -, -, step⟩ | ⟨jacobian, answer, step⟩
  · obtain ⟨_, h⟩ := halted step
    cases h
  · have hopened : r.opened t matrix progress = ⟨r.current, .aborted abort output, none, []⟩ := by
      rw [opened, answer, reportAnswer?_of_output? (by rw [answer]; rfl)]
    rw [step, hopened]
    exact halt_follows (r := r.differentiated matrix _) chain (.jacobianAborted abort output)
      ((Halt.iteration_trust? _ _).trans hiteration)
  · obtain ⟨_, h⟩ := halted step
    cases h
  · let called := r.differentiated matrix (r.jacobianReply t matrix)
    have hreport : r.reportAnswer? t matrix progress = _ := reportAnswer?_of_done answer
    rcases called.inform_cases t jacobian progress with
      ⟨due, told⟩ | ⟨due, ⟨_, -, told⟩ | ⟨abort, _, answer', told⟩ | ⟨answer', told⟩⟩
    · rw [due, if_neg Bool.false_ne_true] at hreport
      rw [step, told, opened, answer, hreport]
      refine factorize_follows (r := called) chain ⟨rfl, ⟨jacobian, rfl⟩, ?_, ?_⟩ rfl hiteration _
      · rw [if_neg]
        rw [← hiteration, ← reportDue_eq_true_iff, due]
        exact Bool.false_ne_true
      · exact fun a ha => nomatch ha
    · obtain ⟨_, h⟩ := halted (step.trans told)
      cases h
    · rw [due, if_pos rfl, answer'] at hreport
      rw [step, told, opened, answer, hreport]
      exact halt_follows (r := called.reported _ _) chain
        (.reportAborted jacobian abort (hiteration ▸ reportDue_eq_true_iff.mp due))
        ((Halt.iteration_trust? _ _).trans hiteration)
    · rw [due, if_pos rfl, answer'] at hreport
      rw [step, told, opened, answer, hreport]
      refine factorize_follows (r := called.reported _ _) chain ⟨rfl, ⟨jacobian, rfl⟩, ?_, ?_⟩ rfl
        hiteration _
      · rw [if_pos]
        exact hiteration ▸ reportDue_eq_true_iff.mp due
      · exact fun a ha => nomatch ha

variable {trust : TrustRegion α}

theorem judge_follows (chain : Round.Chain t.reportEvery first earlier r.current)
    (trying : round.Trying t.reportEvery (earlier.length + 1) r.current)
    (hiteration : trust.iteration = earlier.length + 1) (factor : Triangular α m n) (damping : α)
    {residuals : Vec α m} {a : Attempt α n} (hpoint : a.point = r.buffers.trialPoint)
    (judged : a.Judged residuals (r.judgement t trust damping residuals).2) :
    (r.judge t factor trust damping residuals).Follows t.reportEvery first
      (round.tries a :: earlier) := by
  have hnext : (r.judgement t trust damping residuals).1.iteration =
      if (r.judgement t trust damping residuals).2.accepted then trust.iteration + 1
      else trust.iteration :=
    TrustRegion.iteration_judge _ _ _
  have unforced (status : Int) :
      (r.judgement t trust damping residuals).2.termination ≠ some (.aborted status) :=
    TrustRegion.judge_termination_ne_aborted _ _ _ _
  generalize hjudged : r.judgement t trust damping residuals = judgement at *
  obtain ⟨next, accepted, termination⟩ := judgement
  rcases r.judge_cases t factor trust damping residuals with
    ⟨hverdict, ends⟩ | ⟨hverdict, ends⟩ <;> rw [hjudged] at hverdict ends <;> cases hverdict
  · rw [if_pos rfl, hiteration] at hnext
    rcases ends with ⟨_, hended, step⟩ | ⟨hended, step⟩ <;> cases hended <;> rw [step]
    · refine ⟨_, earlier, r.current, _, rfl, chain, .accepted trying judged ?_,
        ⟨_, rfl, rfl, hnext⟩, ?_, rfl⟩
      · exact fun status h => unforced status (congrArg some h)
      · exact congrArg Vec.toArray hpoint.symm
    · refine ⟨rfl, hnext, ?_⟩
      have chained := chain.next trying judged
      rwa [hpoint] at chained
  · rw [if_neg Bool.false_ne_true, hiteration] at hnext
    rcases ends with ⟨_, hended, step⟩ | ⟨hended, step⟩ <;> cases hended <;> rw [step]
    · refine halt_follows (r := r.stayed residuals next) chain (.rejected trying judged ?_) hnext
      exact fun status h => unforced status (congrArg some h)
    · refine ⟨_, earlier, rfl, hnext, chain, trying.start_eq, trying.jacobian_eq,
        trying.report_eq, ?_⟩
      intro b hb
      rcases List.mem_cons.mp hb with rfl | hb
      · exact ⟨residuals, judged⟩
      · exact trying.rejected b hb

theorem current_evaluated (r : Run α σ m n) (found : SearchOutcome α m n)
    (reply : Reply σ (Array α)) : ((r.proposed found).evaluated reply).current = r.current :=
  rfl

theorem attempt_follows (keeps : t.problem.KeepsDimensions m n) (htrial : r.trialResiduals.size = m)
    (chain : Round.Chain t.reportEvery first earlier r.current)
    (trying : round.Trying t.reportEvery (earlier.length + 1) r.current)
    (hiteration : trust.iteration = earlier.length + 1) (factor : Triangular α m n) :
    (r.attempt t factor trust).Follows t.reportEvery first
      (round.tries (r.attempted t factor trust) :: earlier) := by
  have halted {f : Finished α σ} (step : r.attempt t factor trust = .ends f) :
      ∃ halt, f.result = .ok halt :=
    attempt_ok keeps htrial step
  rw [← current_evaluated r (r.search t factor trust)
    ((r.proposed (r.search t factor trust)).trialReply t)] at chain trying
  rcases r.attempt_cases t factor trust with
    ⟨_, -, step⟩ | ⟨abort, buffer, answer, step⟩ | ⟨_, -, -, step⟩ | ⟨residuals, answer, step⟩
  · obtain ⟨_, h⟩ := halted step
    cases h
  · let point := (r.proposed (r.search t factor trust)).buffers.trialPoint
    have hattempted : r.attempted t factor trust = ⟨point, .aborted abort buffer, none⟩ := by
      unfold attempted
      dsimp only
      rw [answer]
      rfl
    rw [step, hattempted]
    refine halt_follows chain (.trialAborted trying point abort buffer) ?_
    exact hiteration
  · obtain ⟨_, h⟩ := halted step
    cases h
  · rw [step]
    refine judge_follows chain trying hiteration _ _ rfl ⟨answer, ?_⟩
    simp only [attempted, answer, Answer.output?, Option.bind_some, Vec.ofArray?_toArray,
      Option.map_some]

end Run

namespace Task.Plays

variable {t : Task α σ m n} {l : Launch α σ m n} {rounds : List (Round α m n)}

theorem reaches {a : Advance α σ m n} (h : t.Plays l rounds a) :
    ∃ committed, t.Reaches l committed a := by
  induction h with
  | start first => exact ⟨_, .start first⟩
  | linearize _ ih | attempt _ ih =>
    obtain ⟨_, h⟩ := ih
    exact ⟨_, h.step⟩

/-- A run of a problem that keeps its dimensions follows the protocol in every state. -/
theorem follows (keeps : t.problem.KeepsDimensions m n) (htrial : l.trialResiduals.size = m)
    {residuals : Vec α m} (first : (l.reply t).answer = .done residuals.toArray)
    {a : Advance α σ m n} (h : t.Plays l rounds a) :
    a.Follows t.reportEvery ⟨l.point, residuals⟩ rounds := by
  induction h with
  | start again =>
    rw [first] at again
    cases Vec.toArray_injective (Answer.done.inj again)
    exact ⟨rfl, rfl, .nil⟩
  | linearize _ ih =>
    obtain ⟨-, hiteration, chain⟩ := ih
    exact Run.linearize_follows keeps chain hiteration _
  | attempt h ih =>
    obtain ⟨_, _, heq, hiteration, chain, trying⟩ := ih
    cases heq
    obtain ⟨_, reached⟩ := h.reaches
    exact Run.attempt_follows keeps (reached.fits keeps.abortsInPlace htrial).trialResiduals chain
      trying hiteration _

/-- The calls of a run are the first one and those of its rounds. -/
theorem calls_eq (keeps : t.problem.KeepsDimensions m n) (htrial : l.trialResiduals.size = m)
    {residuals : Vec α m} (first : (l.reply t).answer = .done residuals.toArray)
    {a : Advance α σ m n} (h : t.Plays l rounds a) :
    a.remains.history.calls.toList =
      .residuals l.point.toArray (some residuals.toArray) :: Round.allCalls rounds := by
  induction h with
  | start =>
    change (History.calls #[_]).toList = _
    rw [first]
    rfl
  | @linearize rounds r matrix progress h ih =>
    obtain ⟨rfl, hiteration, -⟩ := h.follows keeps htrial first
    have called := Run.calls_linearize (t := t) (r := r) (.fill m n 0) progress
    rw [called]
    change r.history.calls.toList = _ at ih
    rw [ih, Run.linearizationCalls, hiteration]
    simp [Round.allCalls, Round.calls, Run.opened, Run.current]
  | @attempt round earlier r factor trust h ih =>
    have called := Run.calls_attempt (t := t) (r := r) factor trust
    rw [called]
    change r.history.calls.toList = _ at ih
    rw [ih, Round.allCalls_tries]
    rfl

theorem complete (keeps : t.problem.KeepsDimensions m n) (htrial : l.trialResiduals.size = m)
    {residuals : Vec α m} (first : (l.reply t).answer = .done residuals.toArray) {r : Run α σ m n}
    {phase : Phase α m n} (h : t.Plays l rounds (.continues r phase)) :
    ∃ rounds', t.Plays l rounds' (.ends (r.complete t phase)) := by
  have advanced {rounds : List (Round α m n)} {r : Run α σ m n} {phase : Phase α m n}
      (h : t.Plays l rounds (.continues r phase)) :
      ∃ rounds', t.Plays l rounds' (r.advance t phase) := by
    cases phase with
    | linearize => exact ⟨_, h.linearize⟩
    | attempt =>
      obtain ⟨_, _, rfl, -⟩ := h.follows keeps htrial first
      exact ⟨_, h.attempt⟩
  fun_induction Run.complete t r phase generalizing rounds with
  | case1 r phase finished step =>
    obtain ⟨_, h⟩ := advanced h
    exact ⟨_, step ▸ h⟩
  | case2 r phase r' next step _ ih =>
    obtain ⟨_, h⟩ := advanced h
    exact ih (step ▸ h)

end Task.Plays

/-- How a run begins: its first call aborts, or it plays rounds to its end. -/
theorem Task.aborts_or_plays {t : Task α σ m n} {l : Launch α σ m n}
    (keeps : t.problem.KeepsDimensions m n) (hresiduals : l.residuals.size = m)
    (htrial : l.trialResiduals.size = m) :
    (∃ abort written, (l.reply t).answer = .aborted abort (Vec.toArray (n := m) written) ∧
      t.run l = ⟨.ok ⟨.aborted abort.status, none⟩, l.remains t written.toArray⟩) ∨
    ∃ (residuals : Vec α m) (rounds : List (Round α m n)),
      (l.reply t).answer = .done residuals.toArray ∧ t.Plays l rounds (.ends (t.run l)) := by
  obtain ⟨_, hhalt⟩ := run_ok keeps hresiduals htrial
  rcases t.run_cases l with
    ⟨_, -, run⟩ | ⟨abort, written, answer, run⟩ | ⟨_, -, -, run⟩ | ⟨residuals, first, run⟩
  · rw [run] at hhalt
    cases hhalt
  · have size := keeps.abortsInPlace _ _ _ abort written (Vec.size_toArray _) hresiduals answer
    obtain ⟨v, hv⟩ := Vec.exists_ofArray? size
    obtain rfl := Vec.eq_of_ofArray? hv
    exact Or.inl ⟨abort, v, answer, run⟩
  · rw [run] at hhalt
    cases hhalt
  · obtain ⟨rounds, played⟩ := (Plays.start first).complete keeps htrial first
    exact Or.inr ⟨residuals, rounds, first, run ▸ played⟩

structure Outcome.EndsAs (out : Outcome α σ) (report : Report α) (e : Ending α m n) : Prop where
  result_eq : out.result = .ok report
  termination_eq : report.termination = e.termination
  iterations_eq : report.iterations = e.accepted
  residuals_eq : report.residuals = e.final.residuals.toArray
  point_eq : out.point = e.final.point.toArray

/-- Closing a run that ended as given makes the closing report its last call, and how that is
answered does not matter unless it fails. -/
theorem Finished.HaltsAs.close {f : Finished α σ} {e : Ending α m n} (h : f.HaltsAs e)
    {problem : Problem α σ} (keeps : problem.KeepsDimensions m n) (reportEvery : Nat) :
    let out := f.close problem reportEvery
    ∃ report, out.EndsAs report e ∧
      out.history.calls.toList = f.remains.history.calls.toList ++
        lastReport reportEvery (e.accepted + 1) e.final.point.toArray
          e.final.residuals.toArray := by
  intro out
  obtain ⟨⟨halt, hhalt, htermination, hiteration⟩, hpoint, hresiduals⟩ := h
  have answered (fault : Fault) : (problem.report f.remains.problem halt.iteration f.remains.point
      f.remains.workspace.residuals).answer ≠ .faulted fault := by
    intro answer
    have leaves := keeps.report f.remains.problem halt.iteration f.remains.point
      f.remains.workspace.residuals (hpoint ▸ Vec.size_toArray _) (hresiduals ▸ Vec.size_toArray _)
    rw [answer] at leaves
    exact leaves
  obtain ⟨result, point, calls⟩ := close_of_ok hhalt reportEvery answered
  refine ⟨_, ⟨result, htermination, ?_, hresiduals, point.trans hpoint⟩, ?_⟩
  · exact halt.accepted_eq.trans (Nat.sub_eq_of_eq_add hiteration)
  · rw [calls, hiteration, hpoint, hresiduals]

/-- After the first evaluation, the calls of a minimization come in rounds. Each but the last ends
with a trial that is accepted, and only there the next one starts. The first abort ends the run with
its status, as does the first verdict that ends it, and only the closing report follows, for the
point where the run ends. -/
theorem Settings.calls_follow_protocol (s : Settings α) (problem : Problem α σ) (state : σ)
    (x : Array α) {workspace : Workspace α} {k k' : Nat}
    (valid : s.error? problem.residualCount x.size = none) (fits : workspace.Fits k k')
    (keeps : problem.KeepsDimensions problem.residualCount x.size) :
    let t := s.task problem x.size valid
    let out := s.minimizeWith problem state x workspace
    ∃ l report e rounds, launch? state x workspace = some l ∧ out.EndsAs report e ∧
      (∀ status, report.termination = .aborted status → status < 0) ∧
      out.history.calls.toList = .residuals x (l.reply t).answer.output? ::
        (Round.allCalls rounds ++ lastReport s.reportEvery (e.accepted + 1) e.final.point.toArray
          e.final.residuals.toArray) ∧
      ((∃ abort residuals, (l.reply t).answer = .aborted abort (Vec.toArray residuals) ∧
          rounds = [] ∧ e = ⟨.aborted abort.status, 0, ⟨.ofArray x, residuals⟩⟩) ∨
        ∃ residuals round earlier c, (l.reply t).answer = .done (Vec.toArray residuals) ∧
          rounds = round :: earlier ∧ t.Plays l rounds (.ends (t.run l)) ∧
          Round.Chain s.reportEvery ⟨.ofArray x, residuals⟩ earlier c ∧
          round.Ends s.reportEvery earlier.length c e) := by
  intro t out
  obtain ⟨l, launched, -⟩ := exists_launch? fits.coherent problem.residualCount state x
  obtain ⟨-, hpoint, hresiduals, htrial⟩ := launch?_eq_some launched
  have prepared := fits.prepared problem.residualCount x.size
  have htrial : l.trialResiduals.size = problem.residualCount := htrial ▸ prepared.trialResiduals
  have hout : out = (t.run l).close problem s.reportEvery := minimizeWith_eq_close valid launched
  have hx : l.point.toArray = x := congrArg Vec.toArray hpoint
  rcases t.aborts_or_plays keeps (hresiduals ▸ prepared.residuals) htrial with
    ⟨abort, written, answer, run⟩ | ⟨residuals, rounds, first, played⟩
  · have halts : (t.run l).HaltsAs ⟨.aborted abort.status, 0, ⟨.ofArray x, written⟩⟩ := by
      rw [run]
      exact ⟨⟨_, rfl, rfl, rfl⟩, congrArg Vec.toArray hpoint, rfl⟩
    obtain ⟨report, ends, calls⟩ := halts.close keeps s.reportEvery
    refine ⟨l, report, _, [], launched, hout ▸ ends, ?_, ?_, Or.inl ⟨abort, written, answer, rfl,
      rfl⟩⟩
    · intro status aborted
      cases ends.termination_eq.symm.trans aborted
      exact abort.status_neg
    · rw [hout, calls, run]
      change (History.calls #[_]).toList ++ _ = _
      rw [hx, answer]
      rfl
  · obtain ⟨round, earlier, c, e, rfl, chain, ends, halts⟩ := played.follows keeps htrial first
    obtain ⟨report, ends', calls⟩ := halts.close keeps s.reportEvery
    refine ⟨l, report, e, round :: earlier, launched, hout ▸ ends', ?_, ?_,
      Or.inr ⟨residuals, round, earlier, c, first, rfl, played, ?_, ends⟩⟩
    · intro status aborted
      exact ends.status_neg (ends'.termination_eq.symm.trans aborted)
    · have called := played.calls_eq keeps htrial first
      change (t.run l).remains.history.calls.toList = _ at called
      rw [hout, calls, called, hx, first]
      rfl
    · rwa [hpoint] at chain

/-- In the valley of Rosenbrock, where no call aborts, with a report in every other round. -/
theorem Settings.rosenbrock_calls_follow_protocol :
    let s : Settings ℝ := { Settings.standard with reportEvery := 2 }
    let out := s.minimizeWith Problems.rosenbrock () #[0, 0] (.zeros 2 2)
    s.error? 2 2 = none ∧
      ∃ (report : Report ℝ) (residuals : Vec ℝ 2) (round : Round ℝ 2 2)
        (earlier : List (Round ℝ 2 2)) (c : Evaluation ℝ 2 2) (e : Ending ℝ 2 2),
        out.EndsAs report e ∧
        out.history.calls.toList = .residuals #[0, 0] (some residuals.toArray) ::
          (Round.allCalls (round :: earlier) ++
            [.report (e.accepted + 1) e.final.point.toArray e.final.residuals.toArray]) ∧
        Round.Chain 2 ⟨.ofArray #[0, 0], residuals⟩ earlier c ∧
        round.Ends 2 earlier.length c e := by
  intro s out
  have valid : s.error? 2 2 = none := Settings.error?_standard two_pos le_rfl
  refine ⟨valid, ?_⟩
  obtain ⟨l, report, e, rounds, -, ends, -, calls, ⟨_, _, aborted, -⟩ |
    ⟨residuals, round, earlier, c, first, rfl, -, chain, ends'⟩⟩ :=
    calls_follow_protocol s Problems.rosenbrock () #[0, 0] valid (Workspace.fits_zeros 2 2)
      Problems.rosenbrock_keepsDimensions
  · unfold Launch.reply at aborted
    change (Reply.ofExcept () _).answer = _ at aborted
    unfold Reply.ofExcept at aborted
    split at aborted <;> cases aborted
  · rw [first] at calls
    exact ⟨report, residuals, round, earlier, c, e, ends, calls, chain, ends'⟩

end LeastSquares
