import LeastSquares.Run.Steps

namespace LeastSquares

variable {α σ : Type} {m n : Nat}

namespace Run

variable [Scalar α]

/-- A bound on the number of steps that a run can still make. -/
def stepsLeft (t : Task α σ m n) (r : Run α σ m n) : Phase α m n → Nat
  | .linearize .. => 2 * (t.budget - r.evaluations) + 1
  | .attempt .. => 2 * (t.budget - r.evaluations)

theorem factorize_continues {t : Task α σ m n} {r r' : Run α σ m n} {jacobian : Mat α m n}
    {progress : Progress α} {phase : Phase α m n}
    (h : r.factorize t jacobian progress = .continues r' phase) :
    r'.evaluations = r.evaluations ∧ ∃ factor trust, phase = .attempt factor trust := by
  rcases r.factorize_cases t jacobian progress with ⟨_, step⟩ | ⟨_, step⟩ <;> rw [step] at h
  · cases h
  · cases h
    exact ⟨rfl, _, _, rfl⟩

theorem inform_continues {t : Task α σ m n} {r r' : Run α σ m n} {jacobian : Mat α m n}
    {progress : Progress α} {phase : Phase α m n}
    (h : r.inform t jacobian progress = .continues r' phase) :
    r'.evaluations = r.evaluations ∧ ∃ factor trust, phase = .attempt factor trust := by
  rcases r.inform_cases t jacobian progress with
    ⟨_, step⟩ | ⟨_, ⟨_, _, step⟩ | ⟨_, _, _, step⟩ | ⟨_, step⟩⟩ <;> rw [step] at h
  · exact factorize_continues h
  · cases h
  · cases h
  · obtain ⟨evaluations, attempts⟩ := factorize_continues h
    exact ⟨evaluations, attempts⟩

theorem linearize_continues {t : Task α σ m n} {r r' : Run α σ m n} {matrix : Mat α m n}
    {progress : Progress α} {phase : Phase α m n}
    (h : r.linearize t matrix progress = .continues r' phase) :
    r'.evaluations = r.evaluations ∧ ∃ factor trust, phase = .attempt factor trust := by
  rcases r.linearize_cases t matrix progress with
    ⟨_, _, step⟩ | ⟨_, _, _, step⟩ | ⟨_, _, _, step⟩ | ⟨_, _, step⟩ <;> rw [step] at h
  · cases h
  · cases h
  · cases h
  · obtain ⟨evaluations, attempts⟩ := inform_continues h
    exact ⟨evaluations, attempts⟩

theorem judge_continues {t : Task α σ m n} {r r' : Run α σ m n} {factor : Triangular α m n}
    {trust : TrustRegion α} {damping : α} {residuals : Vec α m} {phase : Phase α m n}
    (h : r.judge t factor trust damping residuals = .continues r' phase) :
    r'.evaluations = r.evaluations ∧ r.evaluations < t.budget := by
  have within (ended : (r.judgement t trust damping residuals).2.termination = none) :
      r.evaluations < t.budget := by
    refine Nat.lt_of_not_le fun exhausted => ?_
    have limited :
        (trust.judge t.criteria (r.trial t damping (norm residuals))).2.termination.isSome = true :=
      TrustRegion.judge_termination_isSome_of_budgetExhausted (by simp [trial, exhausted])
    rw [judgement, TrustRegion.observe] at ended
    rw [ended] at limited
    cases limited
  rcases r.judge_cases t factor trust damping residuals with
    ⟨_, ⟨_, _, step⟩ | ⟨ended, step⟩⟩ | ⟨_, ⟨_, _, step⟩ | ⟨ended, step⟩⟩ <;> rw [step] at h <;>
    cases h
  · exact ⟨rfl, within ended⟩
  · exact ⟨rfl, within ended⟩

theorem attempt_continues {t : Task α σ m n} {r r' : Run α σ m n} {factor : Triangular α m n}
    {trust : TrustRegion α} {phase : Phase α m n}
    (h : r.attempt t factor trust = .continues r' phase) :
    r'.evaluations = r.evaluations + 1 ∧ r'.evaluations < t.budget := by
  rcases r.attempt_cases t factor trust with
    ⟨_, _, step⟩ | ⟨_, _, _, step⟩ | ⟨_, _, _, step⟩ | ⟨_, _, step⟩ <;> rw [step] at h
  · cases h
  · cases h
  · cases h
  · obtain ⟨evaluations, within⟩ := judge_continues h
    exact ⟨evaluations, evaluations ▸ within⟩

theorem stepsLeft_lt_of_advance {t : Task α σ m n} {r r' : Run α σ m n} {phase next : Phase α m n}
    (h : r.advance t phase = .continues r' next) :
    r'.stepsLeft t next < r.stepsLeft t phase := by
  cases phase with
  | linearize matrix progress =>
    obtain ⟨evaluations, factor, trust, rfl⟩ := linearize_continues h
    simp [stepsLeft, evaluations]
  | attempt factor trust =>
    obtain ⟨evaluations, within⟩ := attempt_continues h
    cases next <;> simp only [stepsLeft] <;> omega

def complete (t : Task α σ m n) (r : Run α σ m n) (phase : Phase α m n) : Finished α σ :=
  match h : r.advance t phase with
  | .ends finished => finished
  | .continues r' next =>
    have := stepsLeft_lt_of_advance h
    complete t r' next
termination_by r.stepsLeft t phase

theorem complete_of_ends {t : Task α σ m n} {r : Run α σ m n} {phase : Phase α m n}
    {f : Finished α σ} (h : r.advance t phase = .ends f) : r.complete t phase = f := by
  rw [complete]
  split
  · rename_i hstep
    rw [h] at hstep
    cases hstep
    rfl
  · rename_i hstep
    rw [h] at hstep
    cases hstep

theorem complete_of_continues {t : Task α σ m n} {r r' : Run α σ m n} {phase next : Phase α m n}
    (h : r.advance t phase = .continues r' next) : r.complete t phase = r'.complete t next := by
  rw [complete]
  split
  · rename_i hstep
    rw [h] at hstep
    cases hstep
  · rename_i hstep
    rw [h] at hstep
    cases hstep
    rfl

end Run

/-- What a run starts from. The residual buffers are as an earlier run may have left them. -/
structure Launch (α σ : Type) (m n : Nat) where
  problem : σ
  point : Vec α n
  buffers : Buffers α m n
  residuals : Array α
  trialResiduals : Array α

namespace Launch

def reply (t : Task α σ m n) (l : Launch α σ m n) : Reply σ (Array α) :=
  t.problem.residuals l.problem l.point.toArray l.residuals

def started (t : Task α σ m n) (l : Launch α σ m n) (residuals : Vec α m) : Run α σ m n where
  problem := (l.reply t).state
  point := l.point
  residuals
  trialResiduals := l.trialResiduals
  buffers := l.buffers
  evaluations := 1
  jacobianEvaluations := 0
  history := #[.residuals l.point.toArray (l.reply t).answer.output?]

def remains (t : Task α σ m n) (l : Launch α σ m n) (residuals : Array α) : Remains α σ where
  problem := (l.reply t).state
  point := l.point.toArray
  workspace := .ofBuffers l.buffers residuals l.trialResiduals
  evaluations := 1
  jacobianEvaluations := 0
  history := #[.residuals l.point.toArray (l.reply t).answer.output?]

end Launch

def Phase.first [Scalar α] (residuals : Vec α m) : Phase α m n :=
  .linearize (.fill m n 0) (.fresh (norm residuals))

def Task.run [Scalar α] (t : Task α σ m n) (l : Launch α σ m n) : Finished α σ :=
  match (l.reply t).answer with
  | .faulted fault => ⟨.error fault, l.remains t l.residuals⟩
  | .aborted abort written => ⟨.ok ⟨.aborted abort.status, none⟩, l.remains t written⟩
  | .done written =>
    match Vec.ofArray? m written with
    | none => ⟨.error .residualCountChanged, l.remains t written⟩
    | some residuals => Run.complete t (l.started t residuals) (.first residuals)

end LeastSquares
