import LeastSquares.Run

namespace LeastSquares.Run

variable {α σ : Type} {m n : Nat} [Scalar α]

theorem factorize_cases (t : Task α σ m n) (r : Run α σ m n) (jacobian : Mat α m n)
    (progress : Progress α) :
    let qr := QR.factorize true jacobian
    let resumed := r.resumed t qr.columnNorms progress
    let factored := r.factored t qr resumed.2
    let trust := (factored.gradientTest t qr resumed.1).1
    (trust.gradientNorm ≤ t.criteria.gradientTolerance ∧
      r.factorize t jacobian progress =
        (factored.announced trust).halt .gradientConverged (some trust)) ∨
    (¬trust.gradientNorm ≤ t.criteria.gradientTolerance ∧
      r.factorize t jacobian progress =
        .continues
          ((factored.announced trust).rescaled (raisedScaling t resumed.2 qr.columnNorms))
          (.attempt (qr.triangular t.size_le) trust)) := by
  intro qr resumed factored trust
  by_cases small : trust.gradientNorm ≤ t.criteria.gradientTolerance
  · refine Or.inl ⟨small, ?_⟩
    have verdict : (factored.gradientTest t qr resumed.1).2.termination =
        some .gradientConverged := if_pos small
    unfold factorize
    dsimp only
    split
    · rename_i termination h
      rw [verdict] at h
      cases h
      rfl
    · rename_i h
      rw [verdict] at h
      cases h
  · refine Or.inr ⟨small, ?_⟩
    have verdict : (factored.gradientTest t qr resumed.1).2.termination = none := if_neg small
    unfold factorize
    dsimp only
    split
    · rename_i h
      rw [verdict] at h
      cases h
    · rfl

theorem inform_cases (t : Task α σ m n) (r : Run α σ m n) (jacobian : Mat α m n)
    (progress : Progress α) :
    let reply := r.reportReply t progress.iteration
    let told := r.reported progress.iteration reply
    (reportDue t progress.iteration = false ∧
      r.inform t jacobian progress = r.factorize t jacobian progress) ∨
    (reportDue t progress.iteration = true ∧
      ((∃ fault, reply.answer = .faulted fault ∧ r.inform t jacobian progress = told.fault fault) ∨
      (∃ abort output, reply.answer = .aborted abort output ∧
        r.inform t jacobian progress = told.halt (.aborted abort.status) progress.trust?) ∨
      (reply.answer = .done () ∧
        r.inform t jacobian progress = told.factorize t jacobian progress))) := by
  intro reply told
  cases due : reportDue t progress.iteration with
  | false => exact Or.inl ⟨rfl, by rw [inform, due, if_neg Bool.false_ne_true]⟩
  | true =>
    refine Or.inr ⟨rfl, ?_⟩
    rw [inform, if_pos due]
    cases answer : reply.answer with
    | faulted fault => exact Or.inl ⟨fault, rfl, by simp only [reply, told, answer]⟩
    | aborted abort output =>
      exact Or.inr (Or.inl ⟨abort, output, rfl, by simp only [reply, told, answer]⟩)
    | done output => exact Or.inr (Or.inr ⟨rfl, by simp only [reply, told, answer]⟩)

theorem linearize_cases (t : Task α σ m n) (r : Run α σ m n) (matrix : Mat α m n)
    (progress : Progress α) :
    let reply := r.jacobianReply t matrix
    let called := r.differentiated matrix reply
    (∃ fault, reply.answer = .faulted fault ∧
      r.linearize t matrix progress = called.fault fault) ∨
    (∃ abort output, reply.answer = .aborted abort output ∧
      r.linearize t matrix progress = called.halt (.aborted abort.status) progress.trust?) ∨
    (∃ written, reply.answer = .done written ∧ written.toMat? m n = none ∧
      r.linearize t matrix progress = called.fault .jacobianDimensionsChanged) ∨
    (∃ jacobian, reply.answer = .done ⟨m, n, jacobian⟩ ∧
      r.linearize t matrix progress = called.inform t jacobian progress) := by
  intro reply called
  unfold linearize
  cases answer : reply.answer with
  | faulted fault => exact Or.inl ⟨fault, rfl, by simp only [reply, called, answer]⟩
  | aborted abort output =>
    exact Or.inr (Or.inl ⟨abort, output, rfl, by simp only [reply, called, answer]⟩)
  | done written =>
    cases shape : written.toMat? m n with
    | none =>
      refine Or.inr (Or.inr (Or.inl ⟨written, rfl, shape, ?_⟩))
      simp only [reply, called, answer, shape]
    | some jacobian =>
      refine Or.inr (Or.inr (Or.inr ⟨jacobian, ?_, ?_⟩))
      · rw [Jacobian.eq_of_toMat? shape]
      · simp only [reply, called, answer, shape]

theorem judge_cases (t : Task α σ m n) (r : Run α σ m n) (factor : Triangular α m n)
    (trust : TrustRegion α) (damping : α) (residuals : Vec α m) :
    let judged := r.judgement t trust damping residuals
    (judged.2.accepted = true ∧
      ((∃ termination, judged.2.termination = some termination ∧
        r.judge t factor trust damping residuals =
          (r.moved residuals).halt termination (some judged.1)) ∨
      (judged.2.termination = none ∧
        r.judge t factor trust damping residuals =
          .continues (r.moved residuals) (.linearize (.fill m n 0) (.underway judged.1))))) ∨
    (judged.2.accepted = false ∧
      ((∃ termination, judged.2.termination = some termination ∧
        r.judge t factor trust damping residuals =
          (r.stayed residuals judged.1).halt termination (some judged.1)) ∨
      (judged.2.termination = none ∧
        r.judge t factor trust damping residuals =
          .continues (r.stayed residuals judged.1) (.attempt factor judged.1)))) := by
  intro judged
  unfold judge
  cases accepted : judged.2.accepted with
  | true =>
    refine Or.inl ⟨rfl, ?_⟩
    cases ended : judged.2.termination with
    | some termination =>
      refine Or.inl ⟨termination, rfl, ?_⟩
      simp only [judged, accepted, ended, if_true]
    | none =>
      refine Or.inr ⟨rfl, ?_⟩
      simp only [judged, accepted, ended, if_true]
  | false =>
    refine Or.inr ⟨rfl, ?_⟩
    cases ended : judged.2.termination with
    | some termination =>
      refine Or.inl ⟨termination, rfl, ?_⟩
      simp only [judged, accepted, ended, Bool.false_eq_true, if_false]
    | none =>
      refine Or.inr ⟨rfl, ?_⟩
      simp only [judged, accepted, ended, Bool.false_eq_true, if_false]

theorem attempt_cases (t : Task α σ m n) (r : Run α σ m n) (factor : Triangular α m n)
    (trust : TrustRegion α) :
    let found := r.search t factor trust
    let reply := (r.proposed found).trialReply t
    let tried := (r.proposed found).evaluated reply
    (∃ fault, reply.answer = .faulted fault ∧ r.attempt t factor trust = tried.fault fault) ∨
    (∃ abort buffer, reply.answer = .aborted abort buffer ∧
      r.attempt t factor trust =
        { tried with trialResiduals := buffer }.halt (.aborted abort.status) (some trust)) ∨
    (∃ written, reply.answer = .done written ∧ Vec.ofArray? m written = none ∧
      r.attempt t factor trust = tried.fault .residualCountChanged) ∨
    (∃ residuals : Vec α m, reply.answer = .done residuals.toArray ∧
      r.attempt t factor trust =
        tried.judge t found.factor trust found.damping residuals) := by
  intro found reply tried
  unfold attempt
  cases answer : reply.answer with
  | faulted fault => exact Or.inl ⟨fault, rfl, by simp only [reply, tried, found, answer]⟩
  | aborted abort buffer =>
    exact Or.inr (Or.inl ⟨abort, buffer, rfl, by simp only [reply, tried, found, answer]⟩)
  | done written =>
    cases size : Vec.ofArray? m written with
    | none =>
      refine Or.inr (Or.inr (Or.inl ⟨written, rfl, size, ?_⟩))
      simp only [reply, tried, found, answer, size]
    | some residuals =>
      refine Or.inr (Or.inr (Or.inr ⟨residuals, ?_, ?_⟩))
      · rw [Vec.eq_of_ofArray? size]
      · simp only [reply, tried, found, answer, size]

/-- A Jacobian call that runs to its end leads to a factorization if no report is due. -/
theorem linearize_of_done {t : Task α σ m n} {r : Run α σ m n} {matrix jacobian : Mat α m n}
    {progress : Progress α}
    (answer : (r.jacobianReply t matrix).answer = .done ⟨m, n, jacobian⟩)
    (due : reportDue t progress.iteration = false) :
    r.linearize t matrix progress =
      (r.differentiated matrix (r.jacobianReply t matrix)).factorize t jacobian progress := by
  unfold linearize
  dsimp only
  rw [answer]
  dsimp only
  rw [Jacobian.toMat?_mk]
  dsimp only
  rw [inform, due, if_neg Bool.false_ne_true]

/-- However a linearization goes, it asks for the Jacobian and perhaps reports. Then it stops or
factors a Jacobian. -/
theorem linearize_shape (t : Task α σ m n) (r : Run α σ m n) (matrix : Mat α m n)
    (progress : Progress α) :
    let called := r.differentiated matrix (r.jacobianReply t matrix)
    ∃ told,
      (told = called ∨
        told = called.reported progress.iteration (called.reportReply t progress.iteration)) ∧
      ((∃ fault, r.linearize t matrix progress = told.fault fault) ∨
        (∃ abort : Abort, r.linearize t matrix progress =
          told.halt (.aborted abort.status) progress.trust?) ∨
        ∃ jacobian, r.linearize t matrix progress = told.factorize t jacobian progress) := by
  intro called
  rcases r.linearize_cases t matrix progress with
    ⟨fault, -, step⟩ | ⟨abort, _, -, step⟩ | ⟨_, -, -, step⟩ | ⟨jacobian, -, step⟩
  · exact ⟨called, Or.inl rfl, Or.inl ⟨fault, step⟩⟩
  · exact ⟨called, Or.inl rfl, Or.inr (Or.inl ⟨abort, step⟩)⟩
  · exact ⟨called, Or.inl rfl, Or.inl ⟨.jacobianDimensionsChanged, step⟩⟩
  · rcases called.inform_cases t jacobian progress with
      ⟨-, told⟩ | ⟨-, ⟨fault, -, told⟩ | ⟨abort, _, -, told⟩ | ⟨-, told⟩⟩
    · exact ⟨called, Or.inl rfl, Or.inr (Or.inr ⟨jacobian, step.trans told⟩)⟩
    · exact ⟨_, Or.inr rfl, Or.inl ⟨fault, step.trans told⟩⟩
    · exact ⟨_, Or.inr rfl, Or.inr (Or.inl ⟨abort, step.trans told⟩)⟩
    · exact ⟨_, Or.inr rfl, Or.inr (Or.inr ⟨jacobian, step.trans told⟩)⟩

/-- A run that goes on from a Jacobian has factored it. -/
theorem factorize_of_linearize {t : Task α σ m n} {r r' : Run α σ m n} {matrix : Mat α m n}
    {progress : Progress α} {phase : Phase α m n}
    (h : r.linearize t matrix progress = .continues r' phase) :
    let called := r.differentiated matrix (r.jacobianReply t matrix)
    ∃ jacobian told, (r.jacobianReply t matrix).answer = .done ⟨m, n, jacobian⟩ ∧
      (told = called ∨
        told = called.reported progress.iteration (called.reportReply t progress.iteration)) ∧
      told.factorize t jacobian progress = .continues r' phase := by
  intro called
  rcases r.linearize_cases t matrix progress with
    ⟨_, -, step⟩ | ⟨_, _, -, step⟩ | ⟨_, -, -, step⟩ | ⟨jacobian, answer, step⟩ <;> rw [step] at h
  · cases h
  · cases h
  · cases h
  · refine ⟨jacobian, ?_⟩
    rcases called.inform_cases t jacobian progress with
      ⟨-, step⟩ | ⟨-, ⟨_, -, step⟩ | ⟨_, _, -, step⟩ | ⟨-, step⟩⟩ <;> rw [step] at h
    · exact ⟨called, answer, Or.inl rfl, h⟩
    · cases h
    · cases h
    · exact ⟨_, answer, Or.inr rfl, h⟩

/-- A trial whose call runs to its end with as many residuals as before is judged. -/
theorem attempt_of_done {t : Task α σ m n} {r : Run α σ m n} {factor : Triangular α m n}
    {trust : TrustRegion α} {residuals : Vec α m} :
    let found := r.search t factor trust
    let reply := (r.proposed found).trialReply t
    let tried := (r.proposed found).evaluated reply
    reply.answer = .done residuals.toArray →
      r.attempt t factor trust = tried.judge t found.factor trust found.damping residuals := by
  intro found reply tried answer
  unfold attempt
  simp only [tried, reply, found, answer, Vec.ofArray?_toArray]

/-- A trial whose verdict ends the run ends it with the trust region that was judged. -/
theorem attempt_of_ended {t : Task α σ m n} {r : Run α σ m n} {factor : Triangular α m n}
    {trust : TrustRegion α} {residuals : Vec α m} {termination : Termination} :
    let found := r.search t factor trust
    let reply := (r.proposed found).trialReply t
    let judged := ((r.proposed found).evaluated reply).judgement t trust found.damping residuals
    reply.answer = .done residuals.toArray → judged.2.termination = some termination →
      ∃ remains, r.attempt t factor trust = .ends ⟨.ok ⟨termination, some judged.1⟩, remains⟩ := by
  intro found reply judged answer ended
  rcases ((r.proposed found).evaluated reply).judge_cases t found.factor trust found.damping
    residuals with ⟨-, ⟨_, hother, step⟩ | ⟨goes, -⟩⟩ | ⟨-, ⟨_, hother, step⟩ | ⟨goes, -⟩⟩
  · obtain rfl := Option.some.inj (ended.symm.trans hother)
    exact ⟨_, (attempt_of_done answer).trans step⟩
  · cases ended.symm.trans goes
  · obtain rfl := Option.some.inj (ended.symm.trans hother)
    exact ⟨_, (attempt_of_done answer).trans step⟩
  · cases ended.symm.trans goes

/-- A run that goes on from a trial has judged it. It asks for the next Jacobian where it moved, and
tries again where it stayed. -/
theorem judged_of_attempt {t : Task α σ m n} {r r' : Run α σ m n} {factor : Triangular α m n}
    {trust : TrustRegion α} {next : Phase α m n}
    (h : r.attempt t factor trust = .continues r' next) :
    let found := r.search t factor trust
    let tried := (r.proposed found).evaluated ((r.proposed found).trialReply t)
    ∃ residuals,
      let judged := tried.judgement t trust found.damping residuals
      (judged.2.accepted = true ∧ r' = tried.moved residuals ∧
        next = .linearize (.fill m n 0) (.underway judged.1)) ∨
      (judged.2.accepted = false ∧ r' = tried.stayed residuals judged.1 ∧
        next = .attempt found.factor judged.1) := by
  intro found tried
  rcases r.attempt_cases t factor trust with
    ⟨_, -, step⟩ | ⟨_, _, -, step⟩ | ⟨_, -, -, step⟩ | ⟨residuals, -, step⟩ <;> rw [step] at h
  · cases h
  · cases h
  · cases h
  · refine ⟨residuals, ?_⟩
    rcases tried.judge_cases t found.factor trust found.damping residuals with
      ⟨accepted, ⟨_, -, step⟩ | ⟨-, step⟩⟩ | ⟨rejected, ⟨_, -, step⟩ | ⟨-, step⟩⟩ <;>
      rw [step] at h <;> cases h
    · exact Or.inl ⟨accepted, rfl, rfl⟩
    · exact Or.inr ⟨rejected, rfl, rfl⟩

/-- A run that goes on from a trial with the same Jacobian has rejected it. -/
theorem rejected_of_attempt {t : Task α σ m n} {r r' : Run α σ m n}
    {factor factor' : Triangular α m n} {trust trust' : TrustRegion α}
    (h : r.attempt t factor trust = .continues r' (.attempt factor' trust')) :
    let found := r.search t factor trust
    let tried := (r.proposed found).evaluated ((r.proposed found).trialReply t)
    ∃ residuals,
      (tried.judgement t trust found.damping residuals).2.accepted = false ∧
      factor' = found.factor ∧
      trust' = (tried.judgement t trust found.damping residuals).1 ∧
      r' = tried.stayed residuals trust' := by
  intro found tried
  obtain ⟨residuals, ⟨-, -, hnext⟩ | ⟨rejected, hstayed, hnext⟩⟩ := judged_of_attempt h
  · cases hnext
  · cases hnext
    exact ⟨residuals, rejected, rfl, rfl, hstayed⟩

end LeastSquares.Run
