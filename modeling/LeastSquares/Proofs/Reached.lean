import LeastSquares.Minimize

namespace LeastSquares

variable {α σ : Type} {m n : Nat}

structure Evaluation (α : Type) (m n : Nat) where
  point : Vec α n
  residuals : Vec α m

namespace History

def Extends (h h' : History α) (P : Event α → Prop) : Prop :=
  ∃ new : List (Event α), h' = h ++ new.toArray ∧ ∀ e ∈ new, P e

theorem Extends.refl (h : History α) (P : Event α → Prop) : h.Extends h P :=
  ⟨[], by simp, by simp⟩

theorem Extends.trans {h h' h'' : History α} {P : Event α → Prop} (first : h.Extends h' P)
    (second : h'.Extends h'' P) : h.Extends h'' P := by
  obtain ⟨new, rfl, hnew⟩ := first
  obtain ⟨later, rfl, hlater⟩ := second
  refine ⟨new ++ later, by simp, ?_⟩
  intro e he
  rcases List.mem_append.mp he with he | he
  · exact hnew e he
  · exact hlater e he

theorem extends_push {h : History α} {P : Event α → Prop} {e : Event α} (he : P e) :
    h.Extends (h.push e) P :=
  ⟨[e], by simp, by simpa using he⟩

theorem extends_log {h : History α} {P : Event α → Prop} (records : List (LogRecord α))
    (hP : ∀ record, P (.log record)) :
    h.Extends (h ++ (records.map Event.log).toArray) P := by
  refine ⟨records.map Event.log, rfl, ?_⟩
  intro e he
  obtain ⟨record, -, rfl⟩ := List.mem_map.mp he
  exact hP record

theorem Extends.mem {h h' : History α} {P : Event α → Prop} (hext : h.Extends h' P) {e : Event α}
    (he : e ∈ h) : e ∈ h' := by
  obtain ⟨new, rfl, -⟩ := hext
  exact Array.mem_append_left _ he

end History

variable [Scalar α]

def Progress.residualNorm : Progress α → α
  | .fresh residualNorm => residualNorm
  | .underway trust => trust.residualNorm

def Phase.residualNorm : Phase α m n → α
  | .linearize _ progress => progress.residualNorm
  | .attempt _ trust => trust.residualNorm

namespace Advance

def remains : Advance α σ m n → Remains α σ
  | .continues run _ => run.remains
  | .ends finished => finished.remains

def residualNorm? : Advance α σ m n → Option α
  | .continues _ phase => some phase.residualNorm
  | .ends ⟨.ok halt, _⟩ => halt.trust.map TrustRegion.residualNorm
  | .ends ⟨.error _, _⟩ => none

end Advance

namespace Run

def current (r : Run α σ m n) : Evaluation α m n :=
  ⟨r.point, r.residuals⟩

/-- The evaluation that a step commits to: that of the trial point, if the call ran to its end and
the trial is accepted. -/
def committed? (t : Task α σ m n) (r : Run α σ m n) : Phase α m n → Option (Evaluation α m n)
  | .linearize .. => none
  | .attempt factor trust => do
    let found := r.search t factor trust
    let reply := (r.proposed found).trialReply t
    let tried := (r.proposed found).evaluated reply
    let residuals ← Vec.ofArray? m (← reply.answer.output?)
    if (tried.judgement t trust found.damping residuals).2.accepted then
      some ⟨tried.buffers.trialPoint, residuals⟩
    else none

variable {t : Task α σ m n} {r : Run α σ m n} {factor : Triangular α m n} {trust : TrustRegion α}

theorem committed?_of_done {residuals : Vec α m} :
    let found := r.search t factor trust
    let reply := (r.proposed found).trialReply t
    let tried := (r.proposed found).evaluated reply
    reply.answer = .done residuals.toArray →
      r.committed? t (.attempt factor trust) =
        if (tried.judgement t trust found.damping residuals).2.accepted then
          some ⟨tried.buffers.trialPoint, residuals⟩
        else none := by
  intro found reply tried answer
  simp only [committed?, found, reply, tried, answer, Answer.output?, Option.bind_eq_bind,
    Option.bind_some, Vec.ofArray?_toArray]

theorem committed?_eq_none
    (h : ((r.proposed (r.search t factor trust)).trialReply t).answer.output?.bind
      (Vec.ofArray? m) = none) :
    r.committed? t (.attempt factor trust) = none := by
  simp only [committed?, Option.bind_eq_bind]
  rw [← Option.bind_assoc, h, Option.bind_none]

/-- A step commits to the trial point of an accepted attempt. -/
theorem committed?_eq_some {phase : Phase α m n} {c : Evaluation α m n}
    (h : r.committed? t phase = some c) :
    ∃ factor trust, phase = .attempt factor trust ∧
      let found := r.search t factor trust
      let reply := (r.proposed found).trialReply t
      let tried := (r.proposed found).evaluated reply
      reply.answer = .done c.residuals.toArray ∧
      c.point = tried.buffers.trialPoint ∧
      (tried.judgement t trust found.damping c.residuals).2.accepted = true ∧
      r.advance t phase = tried.judge t found.factor trust found.damping c.residuals := by
  cases phase with
  | linearize => cases h
  | attempt factor trust =>
    refine ⟨factor, trust, rfl, ?_⟩
    rcases r.attempt_cases t factor trust with
      ⟨_, answer, -⟩ | ⟨_, _, answer, -⟩ | ⟨_, answer, size, -⟩ | ⟨residuals, answer, step⟩
    · rw [committed?_eq_none (by rw [answer]; rfl)] at h
      cases h
    · rw [committed?_eq_none (by rw [answer]; rfl)] at h
      cases h
    · rw [committed?_eq_none (by rw [answer]; exact size)] at h
      cases h
    · rw [committed?_of_done answer] at h
      split at h
      · rename_i accepted
        cases h
        exact ⟨answer, rfl, accepted, step⟩
      · cases h

end Run

/-- What a run reaches from the start of a task, with the evaluations that it committed to, the
latest first. -/
inductive Task.Reaches (t : Task α σ m n) (l : Launch α σ m n) :
    List (Evaluation α m n) → Advance α σ m n → Prop
  | start {residuals : Vec α m} (h : (l.reply t).answer = .done residuals.toArray) :
    Reaches t l [⟨l.point, residuals⟩] (.continues (l.started t residuals) (.first residuals))
  | step {committed : List (Evaluation α m n)} {r : Run α σ m n} {phase : Phase α m n}
    (h : Reaches t l committed (.continues r phase)) :
    Reaches t l ((r.committed? t phase).toList ++ committed) (r.advance t phase)

namespace Task

variable {t : Task α σ m n} {l : Launch α σ m n} {committed : List (Evaluation α m n)}

theorem Reaches.complete {r : Run α σ m n} {phase : Phase α m n}
    (h : t.Reaches l committed (.continues r phase)) :
    ∃ later, t.Reaches l (later ++ committed) (.ends (r.complete t phase)) := by
  fun_induction Run.complete t r phase generalizing committed with
  | case1 r phase finished hstep => exact ⟨_, hstep ▸ h.step⟩
  | case2 r phase r' next hstep _ ih =>
    obtain ⟨later, hlater⟩ := ih (hstep ▸ h.step)
    exact ⟨later ++ (r.committed? t phase).toList, by simpa using hlater⟩

theorem run_of_done {residuals : Vec α m} (h : (l.reply t).answer = .done residuals.toArray) :
    t.run l = Run.complete t (l.started t residuals) (.first residuals) := by
  unfold run
  rw [h]
  simp only [Vec.ofArray?_toArray]

theorem reaches_run {residuals : Vec α m} (h : (l.reply t).answer = .done residuals.toArray) :
    ∃ later, t.Reaches l (later ++ [⟨l.point, residuals⟩]) (.ends (t.run l)) := by
  rw [run_of_done h]
  exact (Reaches.start h).complete

/-- What a run has reached, it completes. -/
theorem Reaches.run_eq {a : Advance α σ m n} (h : t.Reaches l committed a) {r : Run α σ m n}
    {phase : Phase α m n} (ha : a = .continues r phase) : t.run l = r.complete t phase := by
  induction h generalizing r phase with
  | start answer =>
    cases ha
    exact run_of_done answer
  | step _ ih => exact (ih rfl).trans (Run.complete_of_continues ha)

end Task

end LeastSquares
