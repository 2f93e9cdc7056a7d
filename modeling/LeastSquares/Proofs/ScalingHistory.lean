import LeastSquares.Proofs.HeldResiduals
import LeastSquares.Proofs.Rejections

namespace LeastSquares

variable {α σ : Type} {m n : Nat}

section Scalar

variable [Scalar α]

namespace Run

/-- The scaling factors that Jacobians make, the first of which sets them up. -/
def scalingAfter (t : Task α σ m n) (first : Mat α m n) (later : List (Mat α m n)) : Vec α n :=
  (first :: later).foldl
    (fun scaling a => raisedScaling t scaling (QR.factorize true a).columnNorms)
    (initialScaling t (QR.factorize true first).columnNorms)

variable {t : Task α σ m n} {r r' : Run α σ m n}

theorem scalingAfter_append (first : Mat α m n) (later : List (Mat α m n)) (a : Mat α m n) :
    scalingAfter t first (later ++ [a]) =
      raisedScaling t (scalingAfter t first later) (QR.factorize true a).columnNorms := by
  rw [scalingAfter, ← List.cons_append, List.foldl_append]
  rfl

section Fixed

variable {factors : Vec α n} (fixed : t.fixedScaling = some factors)

include fixed

theorem initialScaling_of_fixed (columnNorms : Vec α n) :
    initialScaling t columnNorms = factors := by
  rw [initialScaling, fixed]

theorem raisedScaling_of_fixed (scaling columnNorms : Vec α n) :
    raisedScaling t scaling columnNorms = scaling := by
  rw [raisedScaling, fixed]

/-- Jacobians leave fixed factors alone. -/
theorem scalingAfter_of_fixed (first : Mat α m n) (later : List (Mat α m n)) :
    scalingAfter t first later = factors := by
  rw [scalingAfter, initialScaling_of_fixed fixed]
  induction first :: later with
  | nil => rfl
  | cons a as ih => rw [List.foldl_cons, raisedScaling_of_fixed fixed, ih]

end Fixed

/-- A run goes on from a Jacobian with factors that the Jacobian raised. -/
theorem scaling_of_linearize {matrix : Mat α m n} {progress : Progress α} {next : Phase α m n}
    (h : r.linearize t matrix progress = .continues r' next) :
    ∃ jacobian : Mat α m n, next.trust?.isSome = true ∧
      r'.history.jacobians = r.history.jacobians ++ [⟨m, n, jacobian⟩] ∧
      let columnNorms := (QR.factorize true jacobian).columnNorms
      r'.buffers.scaling = raisedScaling t (r.resumed t columnNorms progress).2 columnNorms := by
  obtain ⟨jacobian, told, answer, htold, hstep⟩ := factorize_of_linearize h
  have hjacobians := jacobians_told answer htold
  have hresumed (columnNorms : Vec α n) :
      (told.resumed t columnNorms progress).2 = (r.resumed t columnNorms progress).2 := by
    cases progress with
    | fresh => rfl
    | underway => rcases htold with rfl | rfl <;> rfl
  rcases told.factorize_cases t jacobian progress with ⟨-, step⟩ | ⟨-, step⟩ <;>
    rw [step] at hstep <;> cases hstep
  refine ⟨jacobian, rfl, ?_, congrArg (raisedScaling t · _) (hresumed _)⟩
  exact (jacobians_log _ _).trans hjacobians

/-- A trial changes neither the Jacobians nor the scaling factors. -/
theorem scaling_of_attempt {factor : Triangular α m n} {trust : TrustRegion α}
    {next : Phase α m n} (h : r.attempt t factor trust = .continues r' next) :
    next.trust?.isSome = true ∧ r'.history.jacobians = r.history.jacobians ∧
      r'.buffers.scaling = r.buffers.scaling := by
  have htried (reply : Reply σ (Array α)) :
      ((r.proposed (r.search t factor trust)).evaluated reply).history.jacobians =
        r.history.jacobians :=
    (jacobians_evaluated _ reply).trans (jacobians_log r _)
  obtain ⟨residuals, ⟨-, rfl, rfl⟩ | ⟨-, rfl, rfl⟩⟩ := judged_of_attempt h
  · exact ⟨rfl, htried _, rfl⟩
  · exact ⟨rfl, (jacobians_log _ _).trans (htried _), rfl⟩

/-- Whether the scaling factors of a run are those that the given Jacobians make, and these are all
that it factored. -/
structure ScaledBy (t : Task α σ m n) (r : Run α σ m n) (first : Mat α m n)
    (later : List (Mat α m n)) : Prop where
  jacobians_eq : r.history.jacobians = (first :: later).map (⟨m, n, ·⟩)
  scaling_eq : r.buffers.scaling = scalingAfter t first later

def FollowsJacobians (t : Task α σ m n) (r : Run α σ m n) (phase : Phase α m n) : Prop :=
  match phase.trust? with
  | none => r.history.jacobians = []
  | some _ => ∃ first later, r.ScaledBy t first later

theorem followsJacobians_of_isSome {phase : Phase α m n} (h : phase.trust?.isSome = true) :
    r.FollowsJacobians t phase ↔ ∃ first later, r.ScaledBy t first later := by
  obtain ⟨trust, htrust⟩ := Option.isSome_iff_exists.mp h
  unfold FollowsJacobians
  rw [htrust]

theorem FollowsJacobians.advance {phase next : Phase α m n} (h : r.FollowsJacobians t phase)
    (hstep : r.advance t phase = .continues r' next) : r'.FollowsJacobians t next := by
  cases phase with
  | linearize matrix progress =>
    obtain ⟨jacobian, started, hjacobians, hscaling⟩ := scaling_of_linearize hstep
    refine (followsJacobians_of_isSome started).mpr ?_
    cases progress with
    | fresh =>
      have hnone : r.history.jacobians = [] := h
      rw [hnone] at hjacobians
      exact ⟨jacobian, [], hjacobians, hscaling⟩
    | underway trust =>
      obtain ⟨first, later, hbefore, hsame⟩ := (followsJacobians_of_isSome rfl).mp h
      refine ⟨first, later ++ [jacobian], ?_, ?_⟩
      · rw [hjacobians, hbefore, ← List.cons_append, List.map_append]
        rfl
      · rw [scalingAfter_append, ← hsame]
        exact hscaling
  | attempt factor trust =>
    obtain ⟨started, hjacobians, hscaling⟩ := scaling_of_attempt hstep
    obtain ⟨first, later, hbefore, hsame⟩ := (followsJacobians_of_isSome rfl).mp h
    exact (followsJacobians_of_isSome started).mpr
      ⟨first, later, hjacobians.trans hbefore, hscaling.trans hsame⟩

/-- With fixed factors no step changes the factors, however it ends. -/
theorem scaling_advance_of_fixed {factors : Vec α n} (fixed : t.fixedScaling = some factors)
    (h : r.buffers.scaling = factors) (phase : Phase α m n) :
    (r.advance t phase).remains.workspace.scaling = factors.toArray := by
  have hkept (r' : Run α σ m n) (hsame : r'.buffers.scaling = factors) :
      r'.remains.workspace.scaling = factors.toArray := congrArg Vec.toArray hsame
  cases phase with
  | linearize matrix progress =>
    obtain ⟨told, htold, ends⟩ := r.linearize_shape t matrix progress
    have hsame : told.buffers.scaling = factors := by
      rcases htold with rfl | rfl <;> exact h
    have hresumed (columnNorms : Vec α n) : (told.resumed t columnNorms progress).2 = factors := by
      cases progress with
      | fresh => exact initialScaling_of_fixed fixed columnNorms
      | underway => exact hsame
    change (r.linearize t matrix progress).remains.workspace.scaling = _
    rcases ends with ⟨_, step⟩ | ⟨_, step⟩ | ⟨jacobian, step⟩ <;> rw [step]
    · exact hkept told hsame
    · exact hkept told hsame
    · rcases told.factorize_cases t jacobian progress with ⟨-, step⟩ | ⟨-, step⟩ <;> rw [step]
      · exact hkept _ (hresumed _)
      · exact hkept _ ((raisedScaling_of_fixed fixed _ _).trans (hresumed _))
  | attempt factor trust =>
    change (r.attempt t factor trust).remains.workspace.scaling = _
    rcases r.attempt_cases t factor trust with
      ⟨_, -, step⟩ | ⟨_, _, -, step⟩ | ⟨_, -, -, step⟩ | ⟨residuals, -, step⟩ <;> rw [step]
    · exact hkept _ h
    · exact hkept _ h
    · exact hkept _ h
    · rcases ((r.proposed (r.search t factor trust)).evaluated _).judge_cases t _ trust _ residuals
        with ⟨-, ⟨_, -, step⟩ | ⟨-, step⟩⟩ | ⟨-, ⟨_, -, step⟩ | ⟨-, step⟩⟩ <;> rw [step] <;>
        exact hkept _ h

end Run

theorem Settings.exists_fixedScaling {s : Settings α} {factors : Array α}
    (valid : s.error? m n = none) (fixed : s.scaling = .fixed factors) :
    ∃ v : Vec α n, s.fixedScaling? n = some v ∧ v.toArray = factors := by
  obtain ⟨-, -, -, scaling, -⟩ := checks_of_error? valid
  rw [fixed, Scaling.error?_fixed_eq_none_iff] at scaling
  obtain ⟨v, hv⟩ := Option.isSome_iff_exists.mp (Vec.ofArray?_isSome_iff.mpr scaling.1)
  refine ⟨v, ?_, (Vec.eq_of_ofArray? hv).symm⟩
  unfold fixedScaling?
  rw [fixed]
  exact hv

/-- The call of a search: the Jacobians that the run factored before, and the scaling factors that
the search is given. -/
structure SearchCall (α : Type) (n : Nat) where
  jacobians : List (Jacobian α)
  scaling : Vec α n

def Run.searchCall? (t : Task α σ m n) (r : Run α σ m n) : Phase α m n → Option (SearchCall α n)
  | .linearize .. => none
  | .attempt _ trust => some ⟨r.history.jacobians, (r.subproblem t trust).scaling⟩

/-- What a run reaches from the start of a task, with the searches that it made, the latest
first. -/
inductive Task.Searches (t : Task α σ m n) (l : Launch α σ m n) :
    List (SearchCall α n) → Advance α σ m n → Prop
  | start {residuals : Vec α m} (h : (l.reply t).answer = .done residuals.toArray) :
    Searches t l [] (.continues (l.started t residuals) (.first residuals))
  | step {searches : List (SearchCall α n)} {r : Run α σ m n} {phase : Phase α m n}
    (h : Searches t l searches (.continues r phase)) :
    Searches t l ((r.searchCall? t phase).toList ++ searches) (r.advance t phase)

namespace Task

variable {t : Task α σ m n} {l : Launch α σ m n} {searches : List (SearchCall α n)}
  {a : Advance α σ m n} {r : Run α σ m n} {phase : Phase α m n}

theorem Reaches.exists_searches {committed : List (Evaluation α m n)}
    (h : t.Reaches l committed a) : ∃ searches, t.Searches l searches a := by
  induction h with
  | start first => exact ⟨_, .start first⟩
  | step _ ih =>
    obtain ⟨_, h⟩ := ih
    exact ⟨_, h.step⟩

theorem Searches.complete (h : t.Searches l searches (.continues r phase)) :
    ∃ later, t.Searches l (later ++ (r.searchCall? t phase).toList ++ searches)
      (.ends (r.complete t phase)) := by
  fun_induction Run.complete t r phase generalizing searches with
  | case1 r phase finished hstep => exact ⟨[], hstep ▸ h.step⟩
  | case2 r phase r' next hstep _ ih =>
    obtain ⟨later, hlater⟩ := ih (hstep ▸ h.step)
    exact ⟨later ++ (r'.searchCall? t next).toList, by simpa using hlater⟩

/-- Every search of a run is one of those that it made when it is over. -/
theorem Reaches.exists_searches_run {committed : List (Evaluation α m n)}
    (h : t.Reaches l committed (.continues r phase)) {call : SearchCall α n}
    (hcall : r.searchCall? t phase = some call) :
    ∃ searches, call ∈ searches ∧ t.Searches l searches (.ends (t.run l)) := by
  obtain ⟨earlier, hsearches⟩ := h.exists_searches
  obtain ⟨later, hsearches⟩ := hsearches.complete
  rw [← h.run_eq rfl, hcall] at hsearches
  exact ⟨_, by simp, hsearches⟩

theorem Searches.followsJacobians (h : t.Searches l searches a) (ha : a = .continues r phase) :
    r.FollowsJacobians t phase := by
  induction h generalizing r phase with
  | start =>
    cases ha
    rfl
  | step _ ih => exact (ih rfl).advance ha

/-- At every trial the factors are those that the Jacobians make. -/
theorem Searches.scaledBy {factor : Triangular α m n} {trust : TrustRegion α}
    (h : t.Searches l searches (.continues r (.attempt factor trust))) :
    ∃ first later, r.ScaledBy t first later :=
  (Run.followsJacobians_of_isSome rfl).mp (h.followsJacobians rfl)

/-- Every search is given the factors that the Jacobians before it make. -/
theorem Searches.scaling_eq (h : t.Searches l searches a) :
    ∀ call ∈ searches, ∃ first later, call.jacobians = (first :: later).map (⟨m, n, ·⟩) ∧
      call.scaling = Run.scalingAfter t first later := by
  induction h with
  | start => nofun
  | @step searches r phase h ih =>
    intro call hcall
    rcases List.mem_append.mp hcall with hcall | hcall
    · cases phase with
      | linearize => cases hcall
      | attempt factor trust =>
        obtain rfl := List.mem_singleton.mp hcall
        obtain ⟨first, later, hscaled⟩ := h.scaledBy
        exact ⟨first, later, hscaled.jacobians_eq, hscaled.scaling_eq⟩
    · exact ih call hcall

/-- After a search with fixed factors the workspace holds them. -/
theorem Searches.workspace_of_fixed {factors : Vec α n} (fixed : t.fixedScaling = some factors)
    (h : t.Searches l searches a) (nonempty : searches ≠ []) :
    a.remains.workspace.scaling = factors.toArray := by
  induction h with
  | start => exact absurd rfl nonempty
  | @step searches r phase h ih =>
    apply Run.scaling_advance_of_fixed fixed
    cases phase with
    | linearize matrix progress => exact Vec.toArray_injective (ih nonempty)
    | attempt factor trust =>
      obtain ⟨first, later, hscaled⟩ := h.scaledBy
      exact hscaled.scaling_eq.trans (Run.scalingAfter_of_fixed fixed first later)

end Task

end Scalar

section Real

variable [RealNorm]

namespace Run

variable {t : Task ℝ σ m n} {r r' : Run ℝ σ m n} {phase next : Phase ℝ m n}

noncomputable def firstFactor (first : Mat ℝ m n) (j : Fin n) : ℝ :=
  if norm (first.col j) = 0 then 1 else norm (first.col j)

theorem firstFactor_pos (first : Mat ℝ m n) (j : Fin n) : 0 < firstFactor first j := by
  unfold firstFactor
  split
  · exact one_pos
  · rename_i hne
    exact (zero_le_norm _).lt_of_ne' hne

theorem norm_le_firstFactor (first : Mat ℝ m n) (j : Fin n) :
    norm (first.col j) ≤ firstFactor first j := by
  unfold firstFactor
  split
  · rename_i hzero
    exact hzero.trans_le zero_le_one
  · exact le_rfl

section Adaptive

variable (adaptive : t.fixedScaling = none)

include adaptive

theorem initialScaling_eq_firstFactor (first : Mat ℝ m n) (j : Fin n) :
    initialScaling t (QR.factorize true first).columnNorms j = firstFactor first j := by
  rw [initialScaling, adaptive]
  dsimp only
  rw [Vec.map_apply, QR.columnNorms_eq_norm]
  simp [firstFactor]

theorem raisedScaling_eq_max (scaling : Vec ℝ n) (a : Mat ℝ m n) (j : Fin n) :
    raisedScaling t scaling (QR.factorize true a).columnNorms j =
      max (scaling j) (norm (a.col j)) := by
  rw [raisedScaling, adaptive]
  dsimp only
  rw [Vec.ofFn_apply, Arith.maxNum_real, QR.columnNorms_eq_norm]

/-- The factors that follow the Jacobians are their largest column norms, where the first one has
its own factor. -/
theorem isGreatest_scalingAfter (first : Mat ℝ m n) (later : List (Mat ℝ m n)) (j : Fin n) :
    IsGreatest (insert (firstFactor first j) {x | ∃ a ∈ later, norm (a.col j) = x})
      (scalingAfter t first later j) := by
  induction later using List.reverseRecOn with
  | nil =>
    have hfirst : scalingAfter t first [] j = firstFactor first j := by
      change raisedScaling t (initialScaling t _) (QR.factorize true first).columnNorms j = _
      rw [raisedScaling_eq_max adaptive, initialScaling_eq_firstFactor adaptive]
      exact max_eq_left (norm_le_firstFactor first j)
    simp [hfirst]
  | append_singleton later a ih =>
    have hinsert : insert (firstFactor first j) {x | ∃ b ∈ later ++ [a], norm (b.col j) = x} =
        insert (norm (a.col j))
          (insert (firstFactor first j) {x | ∃ b ∈ later, norm (b.col j) = x}) := by
      ext x
      simp only [List.mem_append, List.mem_singleton, or_and_right, exists_or, exists_eq_left,
        Set.mem_insert_iff, Set.mem_ofPred_eq, @eq_comm _ x]
      exact or_rotate.symm
    rw [scalingAfter_append, raisedScaling_eq_max adaptive, hinsert, max_comm]
    exact ih.insert _

end Adaptive

/-- Once there is a trust region, no step lowers the factors. -/
theorem scaling_le_of_advance (started : phase.trust?.isSome = true)
    (h : r.advance t phase = .continues r' next) :
    next.trust?.isSome = true ∧ ∀ j, r.buffers.scaling j ≤ r'.buffers.scaling j := by
  have hraised (columnNorms : Vec ℝ n) (j : Fin n) :
      r.buffers.scaling j ≤ raisedScaling t r.buffers.scaling columnNorms j := by
    unfold raisedScaling
    split
    · exact le_rfl
    · rw [Vec.ofFn_apply, Arith.maxNum_real]
      exact le_max_left _ _
  cases phase with
  | linearize matrix progress =>
    obtain ⟨jacobian, hnext, -, hscaling⟩ := scaling_of_linearize h
    cases progress with
    | fresh => cases started
    | underway trust =>
      exact ⟨hnext, fun j => (hraised _ j).trans_eq (congrArg (· j) hscaling.symm)⟩
  | attempt factor trust =>
    obtain ⟨hnext, -, hscaling⟩ := scaling_of_attempt h
    exact ⟨hnext, fun j => (congrArg (· j) hscaling.symm).le⟩

end Run

/-- Whether the factors of a search are the largest column norms of the Jacobians before it. -/
structure SearchCall.FollowsColumns (call : SearchCall ℝ n) (first : Mat ℝ m n)
    (later : List (Mat ℝ m n)) : Prop where
  isGreatest : ∀ j, IsGreatest
    (insert (Run.firstFactor first j) {x | ∃ a ∈ later, norm (a.col j) = x}) (call.scaling j)
  pos : ∀ j, 0 < call.scaling j
  norm_le : ∀ a ∈ first :: later, ∀ j, norm (a.col j) ≤ call.scaling j

theorem SearchCall.followsColumns {t : Task ℝ σ m n} (adaptive : t.fixedScaling = none)
    {call : SearchCall ℝ n} {first : Mat ℝ m n} {later : List (Mat ℝ m n)}
    (h : call.scaling = Run.scalingAfter t first later) : call.FollowsColumns first later := by
  have hgreatest (j : Fin n) := h ▸ Run.isGreatest_scalingAfter adaptive first later j
  have hfirst (j : Fin n) : Run.firstFactor first j ≤ call.scaling j :=
    (hgreatest j).2 (Set.mem_insert _ _)
  refine ⟨hgreatest, fun j => (Run.firstFactor_pos first j).trans_le (hfirst j), ?_⟩
  intro a ha j
  rcases List.mem_cons.mp ha with rfl | ha
  · exact (Run.norm_le_firstFactor a j).trans (hfirst j)
  · exact (hgreatest j).2 (Set.mem_insert_of_mem _ ⟨a, ha, rfl⟩)

namespace Task.Searches

variable {t : Task ℝ σ m n} {l : Launch ℝ σ m n} {searches : List (SearchCall ℝ n)}
  {a : Advance ℝ σ m n} {r : Run ℝ σ m n} {phase : Phase ℝ m n}

/-- A run has at least the factors that its searches were given. -/
theorem scaling_le (h : t.Searches l searches a) (ha : a = .continues r phase) :
    ∀ call ∈ searches, phase.trust?.isSome = true ∧ ∀ j, call.scaling j ≤ r.buffers.scaling j := by
  induction h generalizing r phase with
  | start => nofun
  | @step searches before current h ih =>
    intro call hcall
    have hbefore : current.trust?.isSome = true ∧
        ∀ j, call.scaling j ≤ before.buffers.scaling j := by
      rcases List.mem_append.mp hcall with hcall | hcall
      · cases current with
        | linearize => cases hcall
        | attempt factor trust =>
          obtain rfl := List.mem_singleton.mp hcall
          exact ⟨rfl, fun j => le_rfl⟩
      · exact ih rfl call hcall
    obtain ⟨hnext, hle⟩ := Run.scaling_le_of_advance hbefore.1 ha
    exact ⟨hnext, fun j => (hbefore.2 j).trans (hle j)⟩

theorem pairwise_le (h : t.Searches l searches a) :
    searches.Pairwise fun later earlier => ∀ j, earlier.scaling j ≤ later.scaling j := by
  induction h with
  | start => exact .nil
  | @step searches r phase h ih =>
    cases phase with
    | linearize => exact ih
    | attempt factor trust =>
      exact List.pairwise_cons.mpr ⟨fun call hcall => (h.scaling_le rfl call hcall).2, ih⟩

end Task.Searches

/-- The searches of a run with valid settings are given the factors that the Jacobians of this run
make. If the factors follow the Jacobians, each of them is the largest norm that its column had, or
one if the column was zero at first. So they are positive, bound the norms of all columns so far and
never become smaller. Fixed factors are given to every search, and the workspace holds them when a
run with a search is over. -/
theorem Settings.scaling_follows_jacobians (s : Settings ℝ) (problem : Problem ℝ σ) (state : σ)
    (x : Array ℝ) (workspace : Workspace ℝ)
    (valid : s.error? problem.residualCount x.size = none)
    (l : Launch ℝ σ problem.residualCount x.size) (launched : launch? state x workspace = some l) :
    let t := s.task problem x.size valid
    (∀ committed r factor trust, t.Reaches l committed (.continues r (.attempt factor trust)) →
      ∃ searches, ⟨r.history.jacobians, (r.subproblem t trust).scaling⟩ ∈ searches ∧
        t.Searches l searches (.ends (t.run l))) ∧
    ∀ searches a, t.Searches l searches a →
      (∀ call ∈ searches, ∃ first later,
        call.jacobians = (first :: later).map (⟨problem.residualCount, x.size, ·⟩) ∧
        (s.scaling = .adaptive → call.FollowsColumns first later) ∧
        ∀ factors, s.scaling = .fixed factors → call.scaling.toArray = factors) ∧
      (searches.Pairwise fun later earlier => ∀ j, earlier.scaling j ≤ later.scaling j) ∧
      (a = .ends (t.run l) → searches ≠ [] → ∀ factors, s.scaling = .fixed factors →
        (s.minimizeWith problem state x workspace).workspace.scaling = factors) := by
  intro t
  have hadaptive (adaptive : s.scaling = .adaptive) : t.fixedScaling = none := by
    change s.fixedScaling? x.size = none
    rw [fixedScaling?, adaptive]
  have hfixed {factors : Array ℝ} (fixed : s.scaling = .fixed factors) :
      ∃ v : Vec ℝ x.size, t.fixedScaling = some v ∧ v.toArray = factors :=
    exists_fixedScaling valid fixed
  refine ⟨?_, ?_⟩
  · intro committed r factor trust h
    exact h.exists_searches_run rfl
  · intro searches a h
    refine ⟨?_, h.pairwise_le, ?_⟩
    · intro call hcall
      obtain ⟨first, later, hjacobians, hscaling⟩ := h.scaling_eq call hcall
      refine ⟨first, later, hjacobians, ?_, ?_⟩
      · intro adaptive
        exact SearchCall.followsColumns (hadaptive adaptive) hscaling
      · intro factors fixed
        obtain ⟨v, hv, rfl⟩ := hfixed fixed
        rw [hscaling, Run.scalingAfter_of_fixed hv]
    · rintro rfl nonempty factors fixed
      obtain ⟨v, hv, rfl⟩ := hfixed fixed
      rw [minimizeWith_eq_close valid launched, Finished.workspace_close]
      exact h.workspace_of_fixed hv nonempty

end Real

/-- The factors of a search in the valley of Rosenbrock follow the Jacobian, and a fixed factor is
still in the workspace after a run. -/
theorem Settings.scaling_of_first_searches :
    let t := (standard : Settings ℝ).task Problems.rosenbrock 2 (error?_standard two_pos le_rfl)
    (∃ l searches call, launch? () #[0, 1] (.zeros 2 2) = some l ∧
      t.Searches l searches (.ends (t.run l)) ∧ call ∈ searches ∧ ∀ j, 0 < call.scaling j) ∧
    (brief.minimizeWith (Problems.bent 0) () #[0] (.zeros 1 1)).workspace.scaling = #[1] := by
  intro t
  constructor
  · obtain ⟨l, _, r, factor, trust, launched, hreached, -⟩ := rosenbrock_first_trial
    obtain ⟨complete, calls⟩ := scaling_follows_jacobians standard Problems.rosenbrock () #[0, 1]
      (.zeros 2 2) (error?_standard two_pos le_rfl) l launched
    obtain ⟨searches, hcall, hsearches⟩ := complete _ r factor trust hreached
    obtain ⟨first, later, -, adaptive, -⟩ := (calls searches _ hsearches).1 _ hcall
    exact ⟨l, searches, _, launched, hsearches, hcall, (adaptive rfl).pos⟩
  · obtain ⟨l, _, r, factor, trust, launched, hreached, -⟩ := bent_first_trial 0
    obtain ⟨complete, calls⟩ := scaling_follows_jacobians brief (Problems.bent 0) () #[0]
      (.zeros 1 1) error?_brief l launched
    obtain ⟨searches, hcall, hsearches⟩ := complete _ r factor trust hreached
    exact (calls searches _ hsearches).2.2 rfl (List.ne_nil_of_mem hcall) #[1] rfl

end LeastSquares
