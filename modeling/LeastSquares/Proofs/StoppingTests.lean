import LeastSquares.Proofs.BestPoint
import LeastSquares.Proofs.Protocol

namespace LeastSquares

variable {α σ : Type} {m n : Nat}

/-- One turn of the trust region: its state and what it is told. -/
structure Turn (α : Type) where
  state : TrustRegion α
  observation : Observation α

inductive StoppingTest
  | gradient
  | function
  | step
  | budget
  | functionPrecision
  | stepPrecision
  | gradientPrecision

/-- The tests for runs that did not converge with what they report. Of those that hold the last one
counts. -/
def StoppingTest.limits : List (StoppingTest × Termination) :=
  [(.budget, .budgetExhausted), (.functionPrecision, .functionToleranceTooSmall),
    (.stepPrecision, .stepToleranceTooSmall), (.gradientPrecision, .gradientToleranceTooSmall)]

section Arith

variable [Arith α]

def Trial.ReducesWithin (tolerance : α) (t : Trial α) (current : α) : Prop :=
  Arith.abs (t.actualReduction current) ≤ tolerance ∧ t.predictedReduction current ≤ tolerance ∧
    0.5 * t.gainRatio current ≤ 1

theorem TrustRegion.reductionWithin_iff {tolerance : α} {t : Trial α} {current : α} :
    reductionWithin tolerance t current = true ↔ t.ReducesWithin tolerance current := by
  simp only [reductionWithin, Bool.and_eq_true, decide_eq_true_eq, and_assoc, Trial.ReducesWithin]

namespace Turn

def next (criteria : Criteria α) (turn : Turn α) : TrustRegion α :=
  (turn.state.observe criteria turn.observation).1

def termination (criteria : Criteria α) (turn : Turn α) : Option Termination :=
  (turn.state.observe criteria turn.observation).2.termination

/-- Whether a test holds at a turn. The gradient is tested when it is told, everything else after a
trial, and the radius then belongs to the point that the trial leads to. -/
def Meets (criteria : Criteria α) (turn : Turn α) (test : StoppingTest) : Prop :=
  match turn.observation, test with
  | .gradient norm, .gradient => norm ≤ criteria.gradientTolerance
  | .trial t, .function => t.ReducesWithin criteria.functionTolerance turn.state.residualNorm
  | .trial _, .step =>
    (turn.next criteria).radius ≤ criteria.stepTolerance * (turn.next criteria).pointNorm
  | .trial t, .budget => t.budgetExhausted = true
  | .trial t, .functionPrecision => t.ReducesWithin Arith.epsilon turn.state.residualNorm
  | .trial _, .stepPrecision =>
    (turn.next criteria).radius ≤ Arith.epsilon * (turn.next criteria).pointNorm
  | .trial _, .gradientPrecision => turn.state.gradientNorm ≤ Arith.epsilon
  | _, _ => False

structure EndsWith (criteria : Criteria α) (turn : Turn α) (termination : Termination) : Prop where
  gradient : termination = .gradientConverged ↔ turn.Meets criteria .gradient
  function : termination = .functionConverged ↔
    turn.Meets criteria .function ∧ ¬turn.Meets criteria .step
  step : termination = .stepConverged ↔
    ¬turn.Meets criteria .function ∧ turn.Meets criteria .step
  functionAndStep : termination = .functionAndStepConverged ↔
    turn.Meets criteria .function ∧ turn.Meets criteria .step
  limit : termination.isSuccessful = false →
    ∃ earlier test later, StoppingTest.limits = earlier ++ (test, termination) :: later ∧
      turn.Meets criteria test ∧ ∀ limit ∈ later, ¬turn.Meets criteria limit.1

variable {criteria : Criteria α} {turn : Turn α}

theorem termination_of_gradient {s : TrustRegion α} {norm : α} :
    (⟨s, .gradient norm⟩ : Turn α).termination criteria =
      if norm ≤ criteria.gradientTolerance then some .gradientConverged else none :=
  rfl

theorem termination_of_trial {s : TrustRegion α} {t : Trial α}
    [∀ test, Decidable ((⟨s, .trial t⟩ : Turn α).Meets criteria test)] :
    let turn : Turn α := ⟨s, .trial t⟩
    turn.termination criteria =
      if turn.Meets criteria .function then
        if turn.Meets criteria .step then some .functionAndStepConverged
        else some .functionConverged
      else if turn.Meets criteria .step then some .stepConverged
      else if turn.Meets criteria .gradientPrecision then some .gradientToleranceTooSmall
      else if turn.Meets criteria .stepPrecision then some .stepToleranceTooSmall
      else if turn.Meets criteria .functionPrecision then some .functionToleranceTooSmall
      else if turn.Meets criteria .budget then some .budgetExhausted
      else none := by
  intro turn
  have function : turn.Meets criteria .function ↔
      TrustRegion.reductionWithin criteria.functionTolerance t s.residualNorm = true :=
    TrustRegion.reductionWithin_iff.symm
  have functionPrecision : turn.Meets criteria .functionPrecision ↔
      TrustRegion.reductionWithin Arith.epsilon t s.residualNorm = true :=
    TrustRegion.reductionWithin_iff.symm
  have step : turn.Meets criteria .step ↔
      decide ((s.judge criteria t).1.radius ≤
        criteria.stepTolerance * (s.judge criteria t).1.pointNorm) = true := by
    rw [decide_eq_true_iff]
    exact Iff.rfl
  have gradientPrecision : turn.Meets criteria .gradientPrecision ↔
      (s.judge criteria t).1.gradientNorm ≤ Arith.epsilon := by
    rw [TrustRegion.gradientNorm_judge]
    exact Iff.rfl
  change (s.judge criteria t).2.termination = _
  rw [TrustRegion.termination_judge, TrustRegion.convergence]
  simp only [function, step]
  split <;> rename_i hfunction hstep
  · simp [hfunction, hstep]
  · simp [hfunction, hstep]
  · simp [hfunction, hstep]
  · simp only [hfunction, hstep, Bool.false_eq_true, if_false, Option.none_or, TrustRegion.limit,
      gradientPrecision, functionPrecision]
    congr

/-- A turn at which no test holds lets the run go on. -/
theorem termination_eq_none_iff :
    turn.termination criteria = none ↔ ∀ test, ¬turn.Meets criteria test := by
  classical
  obtain ⟨s, norm | t⟩ := turn
  · rw [termination_of_gradient]
    constructor
    · intro h test
      cases test with
      | gradient => exact fun hmeets => nomatch (if_pos hmeets).symm.trans h
      | _ => exact id
    · intro h
      exact if_neg (h .gradient)
  · rw [termination_of_trial]
    constructor
    · intro h test
      split_ifs at h with hfunction hstep hstep hgradient hprecise hreduced hexhausted
      cases test with
      | gradient => exact id
      | _ => assumption
    · intro h
      simp only [h, if_false]

/-- A turn at which no convergence test holds ends with the last limit that is met. -/
theorem endsWith_of_limit {termination : Termination} (hgradient : ¬turn.Meets criteria .gradient)
    (hfunction : ¬turn.Meets criteria .function) (hstep : ¬turn.Meets criteria .step)
    {test : StoppingTest} (holds : turn.Meets criteria test)
    (earlier later : List (StoppingTest × Termination))
    (hlimits : StoppingTest.limits = earlier ++ (test, termination) :: later)
    (last : ∀ limit ∈ later, ¬turn.Meets criteria limit.1)
    (failed : termination.isSuccessful = false) : turn.EndsWith criteria termination where
  gradient := iff_of_false (by rintro rfl; cases failed) hgradient
  function := iff_of_false (by rintro rfl; cases failed) fun h => hfunction h.1
  step := iff_of_false (by rintro rfl; cases failed) fun h => hstep h.2
  functionAndStep := iff_of_false (by rintro rfl; cases failed) fun h => hstep h.2
  limit _ := ⟨earlier, test, later, hlimits, holds, last⟩

/-- A turn that ends a run ends it with what its tests ask for. -/
theorem endsWith_of_termination {termination : Termination}
    (h : turn.termination criteria = some termination) : turn.EndsWith criteria termination := by
  classical
  obtain ⟨s, norm | t⟩ := turn
  · rw [termination_of_gradient] at h
    split_ifs at h with hnorm
    cases h
    constructor
    · exact iff_of_true rfl hnorm
    · exact iff_of_false nofun And.left
    · exact iff_of_false nofun And.right
    · exact iff_of_false nofun And.left
    · nofun
  · have hgradient : ¬(⟨s, .trial t⟩ : Turn α).Meets criteria .gradient := id
    rw [termination_of_trial] at h
    split_ifs at h with hfunction hstep hstep hflat hclosed hreduced hexhausted <;> cases h
    · constructor
      · exact iff_of_false nofun hgradient
      · exact iff_of_false nofun fun h => h.2 hstep
      · exact iff_of_false nofun fun h => h.1 hfunction
      · exact iff_of_true rfl ⟨hfunction, hstep⟩
      · nofun
    · constructor
      · exact iff_of_false nofun hgradient
      · exact iff_of_true rfl ⟨hfunction, hstep⟩
      · exact iff_of_false nofun fun h => hstep h.2
      · exact iff_of_false nofun fun h => hstep h.2
      · nofun
    · constructor
      · exact iff_of_false nofun hgradient
      · exact iff_of_false nofun fun h => hfunction h.1
      · exact iff_of_true rfl ⟨hfunction, hstep⟩
      · exact iff_of_false nofun fun h => hfunction h.1
      · nofun
    · refine endsWith_of_limit hgradient hfunction hstep hflat (StoppingTest.limits.take 3) []
        rfl ?_ rfl
      nofun
    · refine endsWith_of_limit hgradient hfunction hstep hclosed (StoppingTest.limits.take 2)
        (StoppingTest.limits.drop 3) rfl ?_ rfl
      simp [StoppingTest.limits, hflat]
    · refine endsWith_of_limit hgradient hfunction hstep hreduced (StoppingTest.limits.take 1)
        (StoppingTest.limits.drop 2) rfl ?_ rfl
      simp [StoppingTest.limits, hflat, hclosed]
    · refine endsWith_of_limit hgradient hfunction hstep hexhausted []
        (StoppingTest.limits.drop 1) rfl ?_ rfl
      simp [StoppingTest.limits, hflat, hclosed, hreduced]

namespace EndsWith

variable {termination : Termination}

theorem not_converged (h : turn.EndsWith criteria termination)
    (failed : termination.isSuccessful = false) :
    ¬turn.Meets criteria .function ∧ ¬turn.Meets criteria .step := by
  have hboth : ¬(turn.Meets criteria .function ∧ turn.Meets criteria .step) := by
    intro hmeets
    obtain rfl := h.functionAndStep.mpr hmeets
    cases failed
  constructor
  · intro hfunction
    obtain rfl := h.function.mpr ⟨hfunction, fun hstep => hboth ⟨hfunction, hstep⟩⟩
    cases failed
  · intro hstep
    obtain rfl := h.step.mpr ⟨fun hfunction => hboth ⟨hfunction, hstep⟩, hstep⟩
    cases failed

/-- A limit is reported only where it is met. -/
theorem meets_of_failed (h : turn.EndsWith criteria termination)
    (failed : termination.isSuccessful = false) :
    ∃ test, (test, termination) ∈ StoppingTest.limits ∧ turn.Meets criteria test := by
  obtain ⟨earlier, test, later, hlimits, holds, -⟩ := h.limit failed
  refine ⟨test, ?_, holds⟩
  rw [hlimits]
  exact List.mem_append_right _ (List.mem_cons_self ..)

end EndsWith

end Turn

/-- What a step makes of its turn, if it has one: the turn ends the run or leaves it going, with the
trust region of the turn. A step has none if a call ends the run. -/
inductive Advance.Obeys (criteria : Criteria α) : Option (Turn α) → Advance α σ m n → Prop
  | faulted {fault : Fault} {remains : Remains α σ} :
    Obeys criteria none (.ends ⟨.error fault, remains⟩)
  | aborted {status : Int} {trust : Option (TrustRegion α)} {remains : Remains α σ} :
    Obeys criteria none (.ends ⟨.ok ⟨.aborted status, trust⟩, remains⟩)
  | ended {turn : Turn α} {termination : Termination} {remains : Remains α σ}
    (h : turn.termination criteria = some termination) :
    Obeys criteria (some turn)
      (.ends ⟨.ok ⟨termination, some (turn.next criteria)⟩, remains⟩)
  | continued {turn : Turn α} {r : Run α σ m n} {phase : Phase α m n}
    (h : turn.termination criteria = none) (trust : phase.trust? = some (turn.next criteria)) :
    Obeys criteria (some turn) (.continues r phase)

end Arith

section Scalar

variable [Scalar α]

namespace Run

def gradientTurn (t : Task α σ m n) (r : Run α σ m n) (jacobian : Mat α m n)
    (progress : Progress α) : Turn α :=
  let qr := QR.factorize true jacobian
  let resumed := r.resumed t qr.columnNorms progress
  { state := resumed.1
    observation := .gradient ((qr.triangular t.size_le).gradientNorm
      (r.factored t qr resumed.2).buffers.projected qr.columnNorms resumed.1.residualNorm) }

def linearizeTurn? (t : Task α σ m n) (r : Run α σ m n) (matrix : Mat α m n)
    (progress : Progress α) : Option (Turn α) := do
  let reply := r.jacobianReply t matrix
  let called := r.differentiated matrix reply
  let jacobian ← (← reply.answer.output?).toMat? m n
  if reportDue t progress.iteration then
    (called.reportReply t progress.iteration).answer.output?.map fun _ =>
      r.gradientTurn t jacobian progress
  else some (r.gradientTurn t jacobian progress)

def attemptTurn? (t : Task α σ m n) (r : Run α σ m n) (factor : Triangular α m n)
    (trust : TrustRegion α) : Option (Turn α) := do
  let found := r.search t factor trust
  let reply := (r.proposed found).trialReply t
  let tried := (r.proposed found).evaluated reply
  let residuals ← Vec.ofArray? m (← reply.answer.output?)
  some ⟨trust, .trial (tried.trial t found.damping (norm residuals))⟩

def turn? (t : Task α σ m n) (r : Run α σ m n) : Phase α m n → Option (Turn α)
  | .linearize matrix progress => r.linearizeTurn? t matrix progress
  | .attempt factor trust => r.attemptTurn? t factor trust

variable {t : Task α σ m n} {r : Run α σ m n} {phase : Phase α m n}

theorem factorize_obeys (jacobian : Mat α m n) (progress : Progress α) :
    (r.factorize t jacobian progress).Obeys t.criteria
      (some (r.gradientTurn t jacobian progress)) := by
  rcases r.factorize_cases t jacobian progress with ⟨small, step⟩ | ⟨large, step⟩ <;> rw [step]
  · exact .ended (if_pos small)
  · exact .continued (if_neg large) rfl

theorem linearize_obeys (matrix : Mat α m n) (progress : Progress α) :
    (r.linearize t matrix progress).Obeys t.criteria (r.linearizeTurn? t matrix progress) := by
  unfold linearizeTurn?
  rcases r.linearize_cases t matrix progress with
    ⟨_, answer, step⟩ | ⟨_, _, answer, step⟩ | ⟨_, answer, shape, step⟩ | ⟨jacobian, answer, step⟩
  · rw [step]
    simp only [answer, Answer.output?, Option.bind_eq_bind, Option.bind_none]
    exact .faulted
  · rw [step]
    simp only [answer, Answer.output?, Option.bind_eq_bind, Option.bind_none]
    exact .aborted
  · rw [step]
    simp only [answer, Answer.output?, Option.bind_eq_bind, Option.bind_some, shape,
      Option.bind_none]
    exact .faulted
  · rw [step]
    let called := r.differentiated matrix (r.jacobianReply t matrix)
    simp only [answer, Answer.output?, Option.bind_eq_bind, Option.bind_some, Jacobian.toMat?_mk]
    rcases called.inform_cases t jacobian progress with
      ⟨due, told⟩ | ⟨due, ⟨_, answer', told⟩ | ⟨_, _, answer', told⟩ | ⟨answer', told⟩⟩ <;>
      rw [told]
    · rw [due, if_neg Bool.false_ne_true]
      exact factorize_obeys (r := called) jacobian progress
    · rw [if_pos due, answer']
      exact .faulted
    · rw [if_pos due, answer']
      exact .aborted
    · rw [if_pos due, answer']
      exact factorize_obeys (r := called.reported _ _) jacobian progress

theorem judge_obeys (factor : Triangular α m n) (trust : TrustRegion α) (damping : α)
    (residuals : Vec α m) :
    (r.judge t factor trust damping residuals).Obeys t.criteria
      (some ⟨trust, .trial (r.trial t damping (norm residuals))⟩) := by
  rcases r.judge_cases t factor trust damping residuals with
    ⟨-, ⟨_, ended, step⟩ | ⟨goes, step⟩⟩ | ⟨-, ⟨_, ended, step⟩ | ⟨goes, step⟩⟩ <;> rw [step]
  · exact .ended ended
  · exact .continued goes rfl
  · exact .ended ended
  · exact .continued goes rfl

theorem attempt_obeys (factor : Triangular α m n) (trust : TrustRegion α) :
    (r.attempt t factor trust).Obeys t.criteria (r.attemptTurn? t factor trust) := by
  unfold attemptTurn?
  rcases r.attempt_cases t factor trust with
    ⟨_, answer, step⟩ | ⟨_, _, answer, step⟩ | ⟨_, answer, size, step⟩ | ⟨residuals, answer, step⟩
    <;> rw [step]
  · simp only [answer, Answer.output?, Option.bind_eq_bind, Option.bind_none]
    exact .faulted
  · simp only [answer, Answer.output?, Option.bind_eq_bind, Option.bind_none]
    exact .aborted
  · simp only [answer, Answer.output?, Option.bind_eq_bind, Option.bind_some, size,
      Option.bind_none]
    exact .faulted
  · simp only [answer, Answer.output?, Option.bind_eq_bind, Option.bind_some, Vec.ofArray?_toArray]
    exact judge_obeys ..

theorem advance_obeys (phase : Phase α m n) :
    (r.advance t phase).Obeys t.criteria (r.turn? t phase) := by
  cases phase with
  | linearize matrix progress => exact linearize_obeys matrix progress
  | attempt factor trust => exact attempt_obeys factor trust

theorem exists_of_linearizeTurn? {matrix : Mat α m n} {progress : Progress α} {turn : Turn α}
    (h : r.linearizeTurn? t matrix progress = some turn) :
    ∃ jacobian, turn = r.gradientTurn t jacobian progress := by
  obtain ⟨_, -, h⟩ := Option.bind_eq_some_iff.mp h
  obtain ⟨jacobian, -, h⟩ := Option.bind_eq_some_iff.mp h
  refine ⟨jacobian, ?_⟩
  split at h
  · obtain ⟨-, -, rfl⟩ := Option.map_eq_some_iff.mp h
    rfl
  · exact (Option.some.inj h).symm

theorem exists_of_attemptTurn? {factor : Triangular α m n} {trust : TrustRegion α} {turn : Turn α}
    (h : r.attemptTurn? t factor trust = some turn) :
    let found := r.search t factor trust
    let tried := (r.proposed found).evaluated ((r.proposed found).trialReply t)
    ∃ residuals : Vec α m,
      turn = ⟨trust, .trial (tried.trial t found.damping (norm residuals))⟩ := by
  obtain ⟨_, -, h⟩ := Option.bind_eq_some_iff.mp h
  obtain ⟨residuals, -, h⟩ := Option.bind_eq_some_iff.mp h
  exact ⟨residuals, (Option.some.inj h).symm⟩

/-- A turn begins with the trust region that is known when its step begins. -/
theorem state_of_turn? {turn : Turn α} (h : r.turn? t phase = some turn) :
    ∀ s ∈ phase.trust?, turn.state = s := by
  intro s hs
  cases phase with
  | linearize matrix progress =>
    obtain ⟨_, rfl⟩ := exists_of_linearizeTurn? h
    cases progress with
    | fresh => cases hs
    | underway =>
      cases hs
      rfl
  | attempt factor trust =>
    obtain ⟨_, rfl⟩ := exists_of_attemptTurn? h
    cases hs
    rfl

end Run

/-- What a run reaches from the start of a task, with the turns that its trust region took, the
latest first. -/
inductive Task.Turns (t : Task α σ m n) (l : Launch α σ m n) :
    List (Turn α) → Advance α σ m n → Prop
  | start {residuals : Vec α m} (h : (l.reply t).answer = .done residuals.toArray) :
    Turns t l [] (.continues (l.started t residuals) (.first residuals))
  | step {turns : List (Turn α)} {r : Run α σ m n} {phase : Phase α m n}
    (h : Turns t l turns (.continues r phase)) :
    Turns t l ((r.turn? t phase).toList ++ turns) (r.advance t phase)

namespace Task

variable {t : Task α σ m n} {l : Launch α σ m n} {turns : List (Turn α)} {a : Advance α σ m n}

theorem Turns.reaches (h : t.Turns l turns a) : ∃ committed, t.Reaches l committed a := by
  induction h with
  | start first => exact ⟨_, .start first⟩
  | step _ ih =>
    obtain ⟨_, h⟩ := ih
    exact ⟨_, h.step⟩

theorem Reaches.exists_turns {committed : List (Evaluation α m n)} (h : t.Reaches l committed a) :
    ∃ turns, t.Turns l turns a := by
  induction h with
  | start first => exact ⟨_, .start first⟩
  | step _ ih =>
    obtain ⟨_, h⟩ := ih
    exact ⟨_, h.step⟩

/-- No turn of a run that goes on met a stopping test. -/
theorem Turns.termination_eq_none (h : t.Turns l turns a) {r : Run α σ m n} {phase : Phase α m n}
    (ha : a = .continues r phase) : ∀ turn ∈ turns, turn.termination t.criteria = none := by
  induction h generalizing r phase with
  | start => nofun
  | @step turns before current h ih =>
    have obeys := before.advance_obeys (t := t) current
    rw [ha] at obeys
    intro turn hturn
    rcases List.mem_append.mp hturn with hturn | hturn
    · generalize before.turn? t current = told at obeys hturn
      cases obeys with
      | continued goes =>
        obtain rfl := List.mem_singleton.mp hturn
        exact goes
    · exact ih rfl turn hturn

theorem Turns.trust_of_head {turn : Turn α} (h : t.Turns l (turn :: turns) a) {r : Run α σ m n}
    {phase : Phase α m n} (ha : a = .continues r phase) :
    phase.trust? = some (turn.next t.criteria) := by
  generalize hall : turn :: turns = all at h
  cases h with
  | start => cases hall
  | @step _ before current =>
    have obeys := before.advance_obeys (t := t) current
    rw [ha] at obeys
    generalize before.turn? t current = told at obeys hall
    cases obeys with
    | continued _ htrust =>
      obtain ⟨rfl, -⟩ := List.cons.inj hall
      exact htrust

/-- Every turn begins with the state that the turn before left. -/
theorem Turns.isChain (h : t.Turns l turns a) :
    turns.IsChain fun later before => later.state = before.next t.criteria := by
  induction h with
  | start => exact .nil
  | @step turns before phase h ih =>
    cases hturn : before.turn? t phase with
    | none => exact ih
    | some turn =>
      cases turns with
      | nil => exact .singleton _
      | cons last earlier =>
        exact .cons_cons (Run.state_of_turn? hturn _ (h.trust_of_head rfl)) ih

/-- A run that halts without being asked to halts at its last turn. -/
theorem Turns.last_of_ends {f : Finished α σ} (h : t.Turns l turns (.ends f)) {halt : Halt α}
    (hhalt : f.result = .ok halt) (unasked : ∀ status, halt.termination ≠ .aborted status) :
    ∃ last earlier, turns = last :: earlier ∧
      (∀ turn ∈ earlier, turn.termination t.criteria = none) ∧
      last.termination t.criteria = some halt.termination := by
  generalize ha : Advance.ends f = a at h
  cases h with
  | start => cases ha
  | @step earlier r phase h =>
    have obeys := r.advance_obeys (t := t) phase
    rw [← ha] at obeys
    generalize r.turn? t phase = told at obeys
    cases obeys with
    | faulted => cases hhalt
    | aborted =>
      cases hhalt
      exact absurd rfl (unasked _)
    | @ended last _ _ ended =>
      cases hhalt
      exact ⟨last, earlier, rfl, h.termination_eq_none rfl, ended⟩

/-- A run that halts without being asked to has taken turns to its end. -/
theorem turns_run {halt : Halt α} (hhalt : (t.run l).result = .ok halt)
    (unasked : ∀ status, halt.termination ≠ .aborted status) :
    ∃ turns, t.Turns l turns (.ends (t.run l)) := by
  rcases t.run_cases l with
    ⟨_, -, run⟩ | ⟨_, _, -, run⟩ | ⟨_, -, -, run⟩ | ⟨_, first, -⟩
  · rw [run] at hhalt
    cases hhalt
  · rw [run] at hhalt
    cases hhalt
    exact absurd rfl (unasked _)
  · rw [run] at hhalt
    cases hhalt
  · obtain ⟨_, h⟩ := reaches_run first
    exact h.exists_turns

end Task

end Scalar

section Real

variable [RealNorm]

/-- At a trial the gradient is above its tolerance, and the size of the point that the trial leads
to is not negative. -/
theorem Task.Turns.bounds_of_trial {t : Task ℝ σ m n} {l : Launch ℝ σ m n} {turns : List (Turn ℝ)}
    {a : Advance ℝ σ m n} (h : t.Turns l turns a) {turn : Turn ℝ} (hturn : turn ∈ turns)
    {trial : Trial ℝ} (observed : turn.observation = .trial trial) :
    t.criteria.gradientTolerance < turn.state.gradientNorm ∧
      0 ≤ (turn.next t.criteria).pointNorm := by
  induction h with
  | start => cases hturn
  | @step turns before phase h ih =>
    rcases List.mem_append.mp hturn with hturn | hturn
    · obtain ⟨committed, hreaches⟩ := h.reaches
      have htold : before.turn? t phase = some turn := Option.mem_toList.mp hturn
      cases phase with
      | linearize matrix progress =>
        obtain ⟨_, rfl⟩ := Run.exists_of_linearizeTurn? htold
        cases observed
      | attempt factor trust =>
        obtain ⟨_, rfl⟩ := Run.exists_of_attemptTurn? htold
        refine ⟨hreaches.gradientNorm_gt rfl, ?_⟩
        exact TrustRegion.pointNorm_judge_nonneg (hreaches.pointNorm_nonneg rfl trust rfl)
          (zero_le_norm _)
    · exact ih hturn

end Real

namespace Turn

variable {criteria : Criteria ℝ} {turn : Turn ℝ}

theorem EndsWith.functionTolerance_lt (ends : turn.EndsWith criteria .functionToleranceTooSmall) :
    criteria.functionTolerance < Arith.epsilon := by
  obtain ⟨test, hmem, holds⟩ := ends.meets_of_failed rfl
  obtain rfl : test = .functionPrecision := by simpa [StoppingTest.limits] using hmem
  obtain ⟨s, _ | t⟩ := turn
  · cases holds
  · obtain ⟨hactual, hpredicted, hratio⟩ := holds
    by_contra hge
    have hle : Arith.epsilon ≤ criteria.functionTolerance := not_lt.mp hge
    exact (ends.not_converged rfl).1 ⟨hactual.trans hle, hpredicted.trans hle, hratio⟩

theorem EndsWith.stepTolerance_lt (ends : turn.EndsWith criteria .stepToleranceTooSmall)
    (hpoint : ∀ t, turn.observation = .trial t → 0 ≤ (turn.next criteria).pointNorm) :
    criteria.stepTolerance < Arith.epsilon := by
  obtain ⟨test, hmem, holds⟩ := ends.meets_of_failed rfl
  obtain rfl : test = .stepPrecision := by simpa [StoppingTest.limits] using hmem
  obtain ⟨s, _ | t⟩ := turn
  · cases holds
  · by_contra hge
    have hle : Arith.epsilon ≤ criteria.stepTolerance := not_lt.mp hge
    exact (ends.not_converged rfl).2
      (holds.trans (mul_le_mul_of_nonneg_right hle (hpoint t rfl)))

theorem EndsWith.gradientTolerance_lt (ends : turn.EndsWith criteria .gradientToleranceTooSmall)
    (hgradient : ∀ t, turn.observation = .trial t →
      criteria.gradientTolerance < turn.state.gradientNorm) :
    criteria.gradientTolerance < Arith.epsilon := by
  obtain ⟨test, hmem, holds⟩ := ends.meets_of_failed rfl
  obtain rfl : test = .gradientPrecision := by simpa [StoppingTest.limits] using hmem
  obtain ⟨s, _ | t⟩ := turn
  · cases holds
  · exact (hgradient t rfl).trans_le holds

end Turn

/-- A run that is closed with a report halted with what the report says. -/
theorem Finished.exists_halt_of_report [Scalar α] {f : Finished α σ} {problem : Problem α σ}
    {reportEvery : Nat} {report : Report α}
    (h : (f.close problem reportEvery).result = .ok report) :
    ∃ halt, f.result = .ok halt ∧ report.termination = halt.termination := by
  cases hresult : f.result with
  | error => exact nomatch (Finished.close_of_error hresult).symm.trans h
  | ok halt =>
    rcases Finished.close_cases hresult problem reportEvery with ⟨left, -, closed⟩ | ⟨_, -, closed⟩
    · rw [closed] at h
      cases h
      exact ⟨halt, rfl, rfl⟩
    · rw [closed] at h
      cases h

namespace Settings

/-- A run goes on as long as no stopping test holds. If it is not asked to stop, the tests that
hold at its last turn decide what it reports. A tolerance that is reported as too small is below
the precision. -/
theorem stops_at_first_test [RealNorm] (s : Settings ℝ) (problem : Problem ℝ σ) (state : σ)
    (x : Array ℝ) (workspace : Workspace ℝ)
    (valid : s.error? problem.residualCount x.size = none)
    (l : Launch ℝ σ problem.residualCount x.size) (launched : launch? state x workspace = some l) :
    let t := s.task problem x.size valid
    (∀ turns r phase, t.Turns l turns (.continues r phase) →
      ∀ turn ∈ turns, ∀ test, ¬turn.Meets s.criteria test) ∧
    ∀ report, (s.minimizeWith problem state x workspace).result = .ok report →
      (report.termination = .functionToleranceTooSmall → s.functionTolerance < Arith.epsilon) ∧
      (report.termination = .stepToleranceTooSmall → s.stepTolerance < Arith.epsilon) ∧
      (report.termination = .gradientToleranceTooSmall → s.gradientTolerance < Arith.epsilon) ∧
      ((∀ status, report.termination ≠ .aborted status) →
        ∃ last earlier, t.Turns l (last :: earlier) (.ends (t.run l)) ∧
          ((last :: earlier).IsChain fun later before => later.state = before.next s.criteria) ∧
          (∀ turn ∈ earlier, ∀ test, ¬turn.Meets s.criteria test) ∧
          last.EndsWith s.criteria report.termination) := by
  intro t
  constructor
  · intro turns r phase h turn hturn
    exact Turn.termination_eq_none_iff.mp (h.termination_eq_none rfl turn hturn)
  intro report hreport
  rw [minimizeWith_eq_close valid launched] at hreport
  obtain ⟨halt, hhalt, hreported⟩ := Finished.exists_halt_of_report hreport
  rw [hreported]
  have stops (unasked : ∀ status, halt.termination ≠ .aborted status) :
      ∃ last earlier, t.Turns l (last :: earlier) (.ends (t.run l)) ∧
        ((last :: earlier).IsChain fun later before => later.state = before.next s.criteria) ∧
        (∀ turn ∈ earlier, ∀ test, ¬turn.Meets s.criteria test) ∧
        last.EndsWith s.criteria halt.termination := by
    obtain ⟨turns, h⟩ := t.turns_run hhalt unasked
    obtain ⟨last, earlier, rfl, going, ended⟩ := h.last_of_ends hhalt unasked
    refine ⟨last, earlier, h, h.isChain, ?_, Turn.endsWith_of_termination ended⟩
    intro turn hturn
    exact Turn.termination_eq_none_iff.mp (going turn hturn)
  refine ⟨?_, ?_, ?_, stops⟩
  · intro reported
    rw [reported] at stops
    obtain ⟨last, _, -, -, -, ends⟩ := stops nofun
    exact ends.functionTolerance_lt
  · intro reported
    rw [reported] at stops
    obtain ⟨last, _, h, -, -, ends⟩ := stops nofun
    exact ends.stepTolerance_lt fun _ observed =>
      (h.bounds_of_trial (List.mem_cons_self ..) observed).2
  · intro reported
    rw [reported] at stops
    obtain ⟨last, _, h, -, -, ends⟩ := stops nofun
    exact ends.gradientTolerance_lt fun _ observed =>
      (h.bounds_of_trial (List.mem_cons_self ..) observed).1

/-- From the origin of a linear problem, with a budget for one trial. -/
theorem brief_stops_at_first_trial :
    let t : Task ℝ Unit 1 1 := brief.task (Problems.bent 0) 1 error?_brief
    ∃ l report last earlier, launch? () #[0] (.zeros 1 1) = some l ∧
      (brief.minimizeWith (Problems.bent 0) () #[0] (.zeros 1 1)).result = .ok report ∧
      t.Turns l (last :: earlier) (.ends (t.run l)) ∧
      (∀ turn ∈ earlier, ∀ test, ¬turn.Meets brief.criteria test) ∧
      last.EndsWith brief.criteria report.termination := by
  intro t
  obtain ⟨l, _, r, factor, trust, launched, hreached, -, hevaluations, -⟩ := bent_first_trial 0
  let found := r.search t factor trust
  let tried := r.proposed found
  let residuals : Vec ℝ 1 :=
    .fill 1 (1 + tried.buffers.trialPoint 0 +
      0 * (tried.buffers.trialPoint 0 * tried.buffers.trialPoint 0))
  have answer : (tried.trialReply t).answer = .done residuals.toArray :=
    Problems.bent_residuals 0 tried.buffers.trialPoint r.trialResiduals
  let trial := (tried.evaluated (tried.trialReply t)).trial t found.damping (norm residuals)
  have hexhausted : trial.budgetExhausted = true := by
    apply decide_eq_true
    change 2 ≤ r.evaluations + 1
    rw [hevaluations]
  obtain ⟨termination, ended⟩ : ∃ termination,
      (trust.judge t.criteria trial).2.termination = some termination :=
    Option.isSome_iff_exists.mp
      (TrustRegion.judge_termination_isSome_of_budgetExhausted hexhausted)
  obtain ⟨remains, step⟩ := Run.attempt_of_ended answer ended
  have run : t.run l = ⟨.ok ⟨termination, some (trust.judge t.criteria trial).1⟩, remains⟩ :=
    (hreached.run_eq rfl).trans (Run.complete_of_ends step)
  have result : (brief.minimizeWith (Problems.bent 0) () #[0] (.zeros 1 1)).result =
      .ok (remains.report ⟨termination, some (trust.judge t.criteria trial).1⟩) := by
    rw [minimizeWith_eq_close error?_brief launched]
    change ((t.run l).close _ _).result = _
    rw [run]
    rfl
  obtain ⟨-, reports⟩ := stops_at_first_test brief (Problems.bent 0) () #[0] (.zeros 1 1)
    error?_brief l launched
  obtain ⟨-, -, -, stops⟩ := reports _ result
  obtain ⟨last, earlier, turns, -, going, ends⟩ := stops fun status asked =>
    TrustRegion.judge_termination_ne_aborted t.criteria trust trial status
      (ended.trans (congrArg some asked))
  exact ⟨l, _, last, earlier, launched, result, turns, going, ends⟩

end Settings

end LeastSquares
