import LeastSquares.Proofs.Reached

namespace LeastSquares

variable {α σ : Type} {m n : Nat}

/-- Whether a Jacobian or report call was made at an evaluation. Other events may be anywhere. -/
def Event.At (c : Evaluation α m n) : Event α → Prop
  | .residuals .. => True
  | .jacobian point _ _ => point = c.point.toArray
  | .report _ point values => point = c.point.toArray ∧ values = c.residuals.toArray
  | .log _ => True

/-- Whether `r'` is a later state of `r` that never left the point, not even in a call. -/
structure Run.Keeps (r r' : Run α σ m n) : Prop where
  current_eq : r'.current = r.current
  calls : r.history.Extends r'.history (Event.At r.current)

namespace Run.Keeps

variable {r r' r'' : Run α σ m n}

theorem trans (first : r.Keeps r') (second : r'.Keeps r'') : r.Keeps r'' where
  current_eq := second.current_eq.trans first.current_eq
  calls := first.calls.trans (first.current_eq ▸ second.calls)

theorem of_log (r : Run α σ m n) (records : List (LogRecord α)) : r.Keeps (r.log records) :=
  ⟨rfl, History.extends_log records fun _ => trivial⟩

theorem of_differentiated (r : Run α σ m n) (matrix : Mat α m n) (reply : Reply σ (Jacobian α)) :
    r.Keeps (r.differentiated matrix reply) :=
  ⟨rfl, History.extends_push rfl⟩

theorem of_reported (r : Run α σ m n) (iteration : Nat) (reply : Reply σ Unit) :
    r.Keeps (r.reported iteration reply) :=
  ⟨rfl, History.extends_push ⟨rfl, rfl⟩⟩

theorem of_evaluated (r : Run α σ m n) (reply : Reply σ (Array α)) : r.Keeps (r.evaluated reply) :=
  ⟨rfl, History.extends_push trivial⟩

theorem of_announced (r : Run α σ m n) (trust : TrustRegion α) : r.Keeps (r.announced trust) :=
  of_log r _

theorem of_rescaled (r : Run α σ m n) (scaling : Vec α n) : r.Keeps (r.rescaled scaling) :=
  ⟨rfl, .refl _ _⟩

variable [Scalar α]

theorem of_factored (t : Task α σ m n) (r : Run α σ m n) (qr : QR α m n) (scaling : Vec α n) :
    r.Keeps (r.factored t qr scaling) :=
  ⟨rfl, .refl _ _⟩

theorem of_proposed (r : Run α σ m n) (found : SearchOutcome α m n) : r.Keeps (r.proposed found) :=
  ⟨rfl, History.extends_log found.log fun _ => trivial⟩

theorem of_stayed (r : Run α σ m n) (residuals : Vec α m) (trust : TrustRegion α) :
    r.Keeps (r.stayed residuals trust) :=
  ⟨rfl, History.extends_log _ fun _ => trivial⟩

end Run.Keeps

theorem Progress.residualNorm_of_trust? {progress : Progress α} {trust : TrustRegion α}
    (h : trust ∈ progress.trust?) : trust.residualNorm = progress.residualNorm := by
  cases progress with
  | fresh => cases h
  | underway =>
    cases h
    rfl

variable [Scalar α]

/-- A trial keeps the residual norm unless its point is accepted. -/
theorem TrustRegion.residualNorm_judge (criteria : Criteria α) (s : TrustRegion α) (t : Trial α) :
    (s.judge criteria t).1.residualNorm =
      if (s.judge criteria t).2.accepted then t.residualNorm else s.residualNorm := by
  have hadapted : (s.adapted criteria.tuning t).residualNorm = s.residualNorm := by
    unfold adapted
    dsimp only
    split
    · rfl
    · split <;> rfl
  unfold judge
  dsimp only
  split
  · rfl
  · exact hadapted

/-- Whether a run that goes on or is over is at an evaluation. -/
structure Advance.At (a : Advance α σ m n) (c : Evaluation α m n) : Prop where
  point_eq : a.remains.point = c.point.toArray
  residuals_eq : a.remains.workspace.residuals = c.residuals.toArray
  residualNorm_eq : ∀ x ∈ a.residualNorm?, x = norm c.residuals

/-- Whether a step of `r` leads to an evaluation and calls the problem at the old one before. -/
structure Run.StepsTo (r : Run α σ m n) (a : Advance α σ m n) (c : Evaluation α m n) : Prop where
  at_point : a.At c
  calls : r.history.Extends a.remains.history (Event.At r.current)

namespace Run

variable {t : Task α σ m n} {r r' : Run α σ m n}

theorem Keeps.stepsTo {a : Advance α σ m n} {c : Evaluation α m n} (h : r.Keeps r')
    (step : r'.StepsTo a c) : r.StepsTo a c :=
  ⟨step.at_point, h.calls.trans (h.current_eq ▸ step.calls)⟩

theorem stepsTo_fault (r : Run α σ m n) (fault : Fault) : r.StepsTo (r.fault fault) r.current :=
  ⟨⟨rfl, rfl, fun _ h => nomatch h⟩, .refl _ _⟩

theorem stepsTo_halt {termination : Termination} {trust : Option (TrustRegion α)}
    (h : ∀ s ∈ trust, s.residualNorm = norm r.residuals) :
    r.StepsTo (r.halt termination trust) r.current := by
  refine ⟨⟨rfl, rfl, ?_⟩, .refl _ _⟩
  intro x hx
  obtain ⟨s, hs, rfl⟩ := Option.map_eq_some_iff.mp hx
  exact h s hs

theorem stepsTo_continues {phase : Phase α m n} (h : phase.residualNorm = norm r.residuals) :
    r.StepsTo (.continues r phase) r.current := by
  refine ⟨⟨rfl, rfl, ?_⟩, .refl _ _⟩
  intro x hx
  cases hx
  exact h

theorem residualNorm_resumed (t : Task α σ m n) (r : Run α σ m n) (columnNorms : Vec α n)
    (progress : Progress α) :
    (r.resumed t columnNorms progress).1.residualNorm = progress.residualNorm := by
  cases progress <;> rfl

theorem factorize_stepsTo (jacobian : Mat α m n) {progress : Progress α}
    (h : progress.residualNorm = norm r.residuals) :
    r.StepsTo (r.factorize t jacobian progress) r.current := by
  have hnorm (columnNorms : Vec α n) :
      (r.resumed t columnNorms progress).1.residualNorm = norm r.residuals :=
    (residualNorm_resumed t r columnNorms progress).trans h
  have keeps (qr : QR α m n) (scaling : Vec α n) (trust : TrustRegion α) :
      r.Keeps ((r.factored t qr scaling).announced trust) :=
    (Keeps.of_factored t r qr scaling).trans (Keeps.of_announced _ trust)
  rcases r.factorize_cases t jacobian progress with ⟨-, step⟩ | ⟨-, step⟩ <;> rw [step]
  · refine (keeps _ _ _).stepsTo (stepsTo_halt ?_)
    intro s hs
    cases hs
    exact hnorm _
  · refine ((keeps _ _ _).trans (Keeps.of_rescaled _ _)).stepsTo (stepsTo_continues ?_)
    exact hnorm _

theorem inform_stepsTo (jacobian : Mat α m n) {progress : Progress α}
    (h : progress.residualNorm = norm r.residuals) :
    r.StepsTo (r.inform t jacobian progress) r.current := by
  rcases r.inform_cases t jacobian progress with
    ⟨-, step⟩ | ⟨-, ⟨_, -, step⟩ | ⟨_, _, -, step⟩ | ⟨-, step⟩⟩ <;> rw [step]
  · exact factorize_stepsTo jacobian h
  · exact (Keeps.of_reported r _ _).stepsTo (stepsTo_fault _ _)
  · refine (Keeps.of_reported r _ _).stepsTo (stepsTo_halt ?_)
    intro s hs
    exact (Progress.residualNorm_of_trust? hs).trans h
  · exact (Keeps.of_reported r _ _).stepsTo (factorize_stepsTo jacobian h)

theorem linearize_stepsTo (matrix : Mat α m n) {progress : Progress α}
    (h : progress.residualNorm = norm r.residuals) :
    r.StepsTo (r.linearize t matrix progress) r.current := by
  have keeps := Keeps.of_differentiated r matrix (r.jacobianReply t matrix)
  rcases r.linearize_cases t matrix progress with
    ⟨_, -, step⟩ | ⟨_, _, -, step⟩ | ⟨_, -, -, step⟩ | ⟨_, -, step⟩ <;> rw [step]
  · exact keeps.stepsTo (stepsTo_fault _ _)
  · refine keeps.stepsTo (stepsTo_halt ?_)
    intro s hs
    exact (Progress.residualNorm_of_trust? hs).trans h
  · exact keeps.stepsTo (stepsTo_fault _ _)
  · exact keeps.stepsTo (inform_stepsTo _ h)

variable {factor : Triangular α m n} {trust : TrustRegion α} {damping : α}

theorem judge_stepsTo (residuals : Vec α m) (h : trust.residualNorm = norm r.residuals) :
    r.StepsTo (r.judge t factor trust damping residuals)
      (if (r.judgement t trust damping residuals).2.accepted then
        ⟨r.buffers.trialPoint, residuals⟩ else r.current) := by
  have hnorm : (r.judgement t trust damping residuals).1.residualNorm =
      if (r.judgement t trust damping residuals).2.accepted then norm residuals
      else trust.residualNorm :=
    TrustRegion.residualNorm_judge _ _ _
  rcases r.judge_cases t factor trust damping residuals with
    ⟨accepted, ends⟩ | ⟨rejected, ends⟩
  · rw [accepted, if_pos rfl] at hnorm ⊢
    have calls : r.history.Extends (r.moved residuals).history (Event.At r.current) := .refl _ _
    rcases ends with ⟨_, -, step⟩ | ⟨-, step⟩ <;> rw [step]
    · refine ⟨(stepsTo_halt ?_).at_point, calls⟩
      intro s hs
      cases hs
      exact hnorm
    · refine ⟨(stepsTo_continues ?_).at_point, calls⟩
      exact hnorm
  · rw [rejected, if_neg Bool.false_ne_true] at hnorm ⊢
    have keeps := Keeps.of_stayed r residuals (r.judgement t trust damping residuals).1
    rcases ends with ⟨_, -, step⟩ | ⟨-, step⟩ <;> rw [step]
    · refine keeps.stepsTo (stepsTo_halt ?_)
      intro s hs
      cases hs
      exact hnorm.trans h
    · exact keeps.stepsTo (stepsTo_continues (hnorm.trans h))

theorem attempt_stepsTo (h : trust.residualNorm = norm r.residuals) :
    r.StepsTo (r.attempt t factor trust)
      ((r.committed? t (.attempt factor trust)).getD r.current) := by
  have keeps (reply : Reply σ (Array α)) :=
    (Keeps.of_proposed r (r.search t factor trust)).trans (Keeps.of_evaluated _ reply)
  rcases r.attempt_cases t factor trust with
    ⟨_, answer, step⟩ | ⟨_, _, answer, step⟩ | ⟨_, answer, size, step⟩ | ⟨residuals, answer, step⟩
    <;> rw [step]
  · rw [committed?_eq_none (by rw [answer]; rfl)]
    exact (keeps _).stepsTo (stepsTo_fault _ _)
  · rw [committed?_eq_none (by rw [answer]; rfl)]
    refine (keeps _).stepsTo ⟨(stepsTo_halt ?_).at_point, .refl _ _⟩
    intro s hs
    cases hs
    exact h
  · rw [committed?_eq_none (by rw [answer]; exact size)]
    exact (keeps _).stepsTo (stepsTo_fault _ _)
  · rw [committed?_of_done answer, apply_ite (Option.getD · r.current)]
    exact (keeps _).stepsTo (judge_stepsTo residuals h)

/-- Every step leads to the evaluation that it commits to, or else stays where it is. -/
theorem advance_stepsTo {phase : Phase α m n} (h : phase.residualNorm = norm r.residuals) :
    r.StepsTo (r.advance t phase) ((r.committed? t phase).getD r.current) := by
  cases phase with
  | linearize matrix progress => exact linearize_stepsTo matrix h
  | attempt factor trust => exact attempt_stepsTo h

theorem mem_history_of_committed? {phase : Phase α m n} {c : Evaluation α m n}
    (h : phase.residualNorm = norm r.residuals) (hc : r.committed? t phase = some c) :
    .residuals c.point.toArray (some c.residuals.toArray) ∈
      (r.advance t phase).remains.history := by
  obtain ⟨factor, trust, rfl, answer, hpoint, -, step⟩ := committed?_eq_some hc
  rw [step]
  refine History.Extends.mem (judge_stepsTo c.residuals ?_).calls ?_
  · exact h
  · rw [hpoint]
    generalize (r.proposed (r.search t factor trust)).trialReply t = reply at answer
    unfold evaluated
    rw [answer]
    exact Array.mem_push_self

end Run

theorem Advance.At.current_eq {r : Run α σ m n} {phase : Phase α m n} {c : Evaluation α m n}
    (h : (Advance.continues r phase).At c) : r.current = c := by
  obtain ⟨point, residuals⟩ := c
  rw [Run.current, Vec.toArray_injective h.point_eq, Vec.toArray_injective h.residuals_eq]

namespace Task.Reaches

variable {t : Task α σ m n} {l : Launch α σ m n} {committed : List (Evaluation α m n)}

/-- A run is always at the evaluation that it committed to last. -/
theorem at_head {a : Advance α σ m n} (h : t.Reaches l committed a) :
    ∃ c earlier, committed = c :: earlier ∧ a.At c := by
  induction h with
  | start => exact ⟨_, [], rfl, (Run.stepsTo_continues rfl).at_point⟩
  | @step _ r phase _ ih =>
    obtain ⟨c, earlier, rfl, hat⟩ := ih
    obtain rfl := hat.current_eq
    have hstep := Run.advance_stepsTo (t := t) (hat.residualNorm_eq _ rfl)
    cases hc : r.committed? t phase with
    | none =>
      rw [hc] at hstep
      exact ⟨r.current, earlier, rfl, hstep.at_point⟩
    | some next =>
      rw [hc] at hstep
      exact ⟨next, r.current :: earlier, rfl, hstep.at_point⟩

/-- A run works with the norm of the residuals at its point. -/
theorem residualNorm_eq {r : Run α σ m n} {phase : Phase α m n}
    (h : t.Reaches l committed (.continues r phase)) :
    phase.residualNorm = norm r.residuals := by
  obtain ⟨c, _, -, hat⟩ := h.at_head
  rw [hat.residualNorm_eq _ rfl, ← hat.current_eq]
  rfl

/-- A step of a run calls the problem at the evaluation that the run committed to last. -/
theorem stepsTo {c : Evaluation α m n} {earlier : List (Evaluation α m n)} {r : Run α σ m n}
    {phase : Phase α m n} (h : t.Reaches l (c :: earlier) (.continues r phase)) :
    r.StepsTo (r.advance t phase) ((r.committed? t phase).getD c) ∧ r.current = c := by
  obtain ⟨_, _, heq, hat⟩ := h.at_head
  cases heq
  obtain rfl := hat.current_eq
  exact ⟨Run.advance_stepsTo h.residualNorm_eq, rfl⟩

theorem mem_history {a : Advance α σ m n} (h : t.Reaches l committed a) :
    ∀ c ∈ committed,
      .residuals c.point.toArray (some c.residuals.toArray) ∈ a.remains.history := by
  induction h with
  | start first =>
    intro c hc
    rw [List.mem_singleton] at hc
    subst hc
    change _ ∈ #[Event.residuals l.point.toArray (l.reply t).answer.output?]
    rw [first]
    exact Array.mem_singleton.mpr rfl
  | @step _ r phase h ih =>
    intro c hc
    obtain ⟨last, earlier, rfl, -⟩ := h.at_head
    rcases List.mem_append.mp hc with hc | hc
    · exact Run.mem_history_of_committed? h.residualNorm_eq (Option.mem_toList.mp hc)
    · exact h.stepsTo.1.calls.mem (ih c hc)

/-- A transitive relation that holds between every evaluation that a run commits to and the one
before holds between all of them. -/
theorem pairwise_of_step {R : Evaluation α m n → Evaluation α m n → Prop}
    (trans : ∀ {c c' c''}, R c c' → R c' c'' → R c c'')
    (next : ∀ {committed : List (Evaluation α m n)} {r : Run α σ m n} {phase : Phase α m n}
      {c : Evaluation α m n}, t.Reaches l committed (.continues r phase) →
        r.committed? t phase = some c → R c r.current)
    {a : Advance α σ m n} (h : t.Reaches l committed a) : committed.Pairwise R := by
  induction h with
  | start => exact List.pairwise_singleton _ _
  | @step committed r phase h ih =>
    cases hc : r.committed? t phase with
    | none => exact ih
    | some c =>
      obtain ⟨last, earlier, rfl, hat⟩ := h.at_head
      obtain rfl := hat.current_eq
      have hlast := next h hc
      refine List.pairwise_cons.mpr ⟨?_, ih⟩
      intro c' hc'
      rcases List.mem_cons.mp hc' with rfl | hc'
      · exact hlast
      · exact trans hlast ((List.pairwise_cons.mp ih).1 c' hc')

end Task.Reaches

namespace Settings

theorem minimizeWith_eq_close {s : Settings α} {problem : Problem α σ} {state : σ} {x : Array α}
    {workspace : Workspace α} (valid : s.error? problem.residualCount x.size = none)
    {l : Launch α σ problem.residualCount x.size} (launched : launch? state x workspace = some l) :
    s.minimizeWith problem state x workspace =
      ((s.task problem x.size valid).run l).close problem s.reportEvery := by
  unfold minimizeWith
  dsimp only
  split
  · rename_i invalid
    rw [valid] at invalid
    cases invalid
  · rw [launched]

/-- A minimization is refused before it does anything, or it closes a run. -/
theorem minimizeWith_cases (s : Settings α) (problem : Problem α σ) (state : σ) (x : Array α)
    (workspace : Workspace α) :
    (∃ failure, s.minimizeWith problem state x workspace =
      { result := .error failure, point := x, problem := state, workspace, history := #[] }) ∨
    ∃ (valid : s.error? problem.residualCount x.size = none)
      (l : Launch α σ problem.residualCount x.size), launch? state x workspace = some l ∧
      s.minimizeWith problem state x workspace =
        ((s.task problem x.size valid).run l).close problem s.reportEvery := by
  unfold minimizeWith
  dsimp only
  split
  · exact Or.inl ⟨_, rfl⟩
  · rename_i valid
    split
    · rename_i l launched
      exact Or.inr ⟨valid, l, launched, rfl⟩
    · exact Or.inl ⟨_, rfl⟩

end Settings

end LeastSquares
