import LeastSquares.Proofs.Callbacks
import LeastSquares.Proofs.DescentDirections
import LeastSquares.Proofs.Dimensions

namespace LeastSquares

open Matrix

variable {σ : Type} {k m n : Nat}

abbrev Problem.WritesZeroColumn (p : Problem ℝ σ) (m : Nat) (i : Fin n) : Prop :=
  p.Writes (fun _ (_ : Vec ℝ m) => True) fun _ written => written.toMatrix.col i = 0

def Event.Keeps (i : Nat) (v : ℝ) (e : Event ℝ) : Prop :=
  ∀ point ∈ e.point?, point[i]? = some v

/-- A damped solution, truncated or not, is zero where the undamped triangle has a zero column. -/
theorem SolvesLeading.eq_zero_of_col {t s : Matrix (Fin n) (Fin n) ℝ} {w q r z : Fin n → ℝ}
    (hd : Damps t w q s r) (hz : SolvesLeading s (firstIndex fun j => negligible (s j j)) r z)
    {c : Fin n} (hcol : t.col c = 0) : z c = 0 := by
  by_cases hc : c.val < firstIndex fun j => negligible (s j j)
  · have hright : s.col c ⬝ᵥ r = 0 := by
      have hgradient : s.col c ⬝ᵥ r = t.col c ⬝ᵥ q := congrFun hd.gradient c
      rw [hgradient, hcol, zero_dotProduct]
    have hproduct : s.col c ⬝ᵥ (s *ᵥ z) = s.col c ⬝ᵥ r := by
      apply Finset.sum_congr rfl
      intro i _
      by_cases hi : i ≤ c
      · rw [hz.solves i ((Fin.le_def.mp hi).trans_lt hc)]
      · rw [col_apply, hd.upper i c (not_le.mp hi), zero_mul, zero_mul]
    have hdamped : w c ^ 2 * z c = 0 := by
      have hnormal : s.col c ⬝ᵥ (s *ᵥ z) = t.col c ⬝ᵥ (t *ᵥ z) + w c ^ 2 * z c :=
        congrFun (hd.normal z) c
      rw [hproduct, hright, hcol, zero_dotProduct, zero_add] at hnormal
      exact hnormal.symm
    have hlength : w c ^ 2 ≠ 0 := by
      have hgram : s.col c ⬝ᵥ s.col c = t.col c ⬝ᵥ t.col c + w c ^ 2 := by
        have := congrFun (congrFun hd.gram c) c
        rwa [Matrix.add_apply, Matrix.diagonal_apply_eq] at this
      intro hzero
      rw [hzero, hcol, zero_dotProduct, add_zero] at hgram
      exact Triangular.ne_zero_of_lt_firstIndex hc
        (congrFun (dotProduct_self_eq_zero.mp hgram) c)
    exact (mul_eq_zero.mp hdamped).resolve_left hlength
  · exact hz.zero c (not_lt.mp hc)

/-- A step has a zero wherever the Jacobian has a zero column. -/
theorem Triangular.IsStep.eq_zero_of_col {f : Triangular ℝ m n} {scaling q step : Vec ℝ n}
    {damping : ℝ} {a : Matrix (Fin k) (Fin n) ℝ} {b : Fin k → ℝ}
    (h : f.IsStep scaling q damping step) (hm : f.Models q a b) {i : Fin n} (hcol : a.col i = 0) :
    step i = 0 := by
  obtain ⟨s, r, z, hd, hz, hstep⟩ := h
  obtain ⟨c, rfl⟩ := (Finite.injective_iff_bijective.mp hm.injective).surjective i
  have hr : f.r.toMatrix.col c = 0 := by
    apply dotProduct_self_eq_zero.mp
    have hgram := hm.gram c c
    change a.col (f.permutation.get c) ⬝ᵥ a.col (f.permutation.get c) = _ at hgram
    rw [← hgram, hcol, zero_dotProduct]
  have hc : step (f.permutation c) = -z c := congrFun hstep c
  exact hc.trans (by rw [hz.eq_zero_of_col hd hr, neg_zero])

theorem Vec.getElem?_toArray {α : Type} (v : Vec α n) (i : Fin n) :
    v.toArray[i.val]? = some (v i) := by
  simp [toArray, get]

namespace Task.Reaches

variable {t : Task ℝ σ m n} {l : Launch ℝ σ m n} {committed : List (Evaluation ℝ m n)} {i : Fin n}

/-- No trial moves along a parameter whose column is zero. -/
theorem step_eq_zero_of_zeroColumn (zero : t.problem.WritesZeroColumn m i) {r : Run ℝ σ m n}
    {factor : Triangular ℝ m n} {trust : TrustRegion ℝ}
    (h : t.Reaches l committed (.continues r (.attempt factor trust))) :
    (r.search t factor trust).step i = 0 := by
  obtain ⟨jacobian, hlast, hmodels⟩ := h.linearized rfl
  obtain ⟨_, hcol⟩ := h.derivatives_of_lastJacobian? zero hlast
  have hsound : (r.search t factor trust).IsSound factor (r.subproblem t trust) :=
    Subproblem.search_isSound hmodels.injective
  exact hsound.isStep.eq_zero_of_col hmodels hcol

/-- A run that has called its problem with one value of a parameter only is at a point with this
value. -/
theorem point_of_keeps {v : ℝ} {a : Advance ℝ σ m n} (h : t.Reaches l committed a)
    (keeps : ∀ e ∈ a.remains.history.calls, e.Keeps i v) : a.remains.point[i.val]? = some v := by
  obtain ⟨c, earlier, rfl, hat⟩ := h.at_head
  have hmem := h.mem_history c (List.mem_cons_self ..)
  rw [hat.point_eq]
  exact keeps _ (History.mem_calls_of_point hmem rfl) _ rfl

/-- Every call of a run is made with the value that the parameter has at the start. -/
theorem calls_keep (zero : t.problem.WritesZeroColumn m i) {a : Advance ℝ σ m n}
    (h : t.Reaches l committed a) : ∀ e ∈ a.remains.history.calls, e.Keeps i (l.point i) := by
  refine h.call_induction (P := Event.Keeps i (l.point i)) ?_ ?_
  · intro point hpoint
    cases hpoint
    exact l.point.getElem?_toArray i
  · intro committed r phase h keeps e he point hpoint
    have hcurrent : r.point.toArray[i.val]? = some (l.point i) := h.point_of_keeps keeps
    cases phase with
    | linearize matrix progress =>
      rcases List.mem_cons.mp he with rfl | he
      · cases hpoint
        exact hcurrent
      · obtain ⟨_, -, rfl⟩ := Option.map_eq_some_iff.mp (Option.mem_toList.mp he)
        cases hpoint
        exact hcurrent
    | attempt factor trust =>
      obtain rfl := List.mem_singleton.mp he
      cases hpoint
      refine (Vec.getElem?_toArray _ i).trans ?_
      have hmoved : (r.proposed (r.search t factor trust)).buffers.trialPoint i =
          r.point i + (r.search t factor trust).step i := Vec.ofFn_apply _ i
      rw [hmoved, h.step_eq_zero_of_zeroColumn zero, add_zero, ← r.point.getElem?_toArray i]
      exact hcurrent

end Task.Reaches

/-- Whatever happens in a run, it keeps the value of a parameter whose column is zero. -/
theorem Task.run_keeps (t : Task ℝ σ m n) (l : Launch ℝ σ m n) {i : Fin n}
    (zero : t.problem.WritesZeroColumn m i) :
    (t.run l).remains.point[i.val]? = some (l.point i) ∧
      ∀ e ∈ (t.run l).remains.history, e.Keeps i (l.point i) := by
  have hfirst (residuals : Array ℝ) : (l.remains t residuals).point[i.val]? = some (l.point i) ∧
      ∀ e ∈ (l.remains t residuals).history, e.Keeps i (l.point i) := by
    refine ⟨l.point.getElem?_toArray i, ?_⟩
    intro e he point hpoint
    obtain rfl := Array.mem_singleton.mp he
    cases hpoint
    exact l.point.getElem?_toArray i
  rcases t.run_cases l with
    ⟨_, -, run⟩ | ⟨_, _, -, run⟩ | ⟨_, -, -, run⟩ | ⟨_, first, -⟩
  · rw [run]
    exact hfirst _
  · rw [run]
    exact hfirst _
  · rw [run]
    exact hfirst _
  · obtain ⟨_, h⟩ := reaches_run first
    have keeps := h.calls_keep zero
    refine ⟨h.point_of_keeps keeps, ?_⟩
    intro e he point hpoint
    exact keeps e (History.mem_calls_of_point he hpoint) point hpoint

/-- A parameter whose column of the Jacobian is always zero is never changed: every call of a
minimization is made with the value that it has at the start, and this value is returned. -/
theorem Settings.inert_parameter_is_never_changed (s : Settings ℝ) (problem : Problem ℝ σ)
    (state : σ) (x : Array ℝ) (workspace : Workspace ℝ) (i : Fin x.size)
    (zero : problem.WritesZeroColumn problem.residualCount i) :
    let out := s.minimizeWith problem state x workspace
    out.point[i.val]? = some x[i] ∧
      ∀ e ∈ out.history, ∀ point ∈ e.point?, point[i.val]? = some x[i] := by
  intro out
  rcases s.minimizeWith_cases problem state x workspace with
    ⟨failure, refused⟩ | ⟨valid, l, launched, closed⟩
  · rw [show out = _ from refused]
    refine ⟨Array.getElem?_eq_getElem i.isLt, ?_⟩
    intro e he
    exact absurd he (Array.not_mem_empty e)
  · obtain ⟨-, hpoint, -⟩ := launch?_eq_some launched
    obtain ⟨hlast, hcalls⟩ := (s.task problem x.size valid).run_keeps l zero
    have hstart : l.point i = x[i] := by
      rw [hpoint]
      rfl
    rw [hstart] at hlast hcalls
    obtain ⟨hclosed, new, hhistory, hnew⟩ :=
      ((s.task problem x.size valid).run l).close_extends problem s.reportEvery
    rw [show out = _ from closed]
    refine ⟨hclosed ▸ hlast, ?_⟩
    intro e he point hmem
    rw [hhistory] at he
    rcases Array.mem_append.mp he with he | he
    · exact hcalls e he point hmem
    · rcases hnew e (by simpa using he) with ⟨_, rfl⟩ | ⟨_, rfl⟩
      · cases hmem
      · cases hmem
        exact hlast

theorem Problems.unusedParameter_writesZeroColumn :
    unusedParameter.WritesZeroColumn 3 (1 : Fin 3) where
  residuals := fun _ _ _ _ _ => trivial
  jacobian := by
    intro _ x written answer
    let jacobian : Mat ℝ 3 3 :=
      ((((Mat.fill 3 3 0).set 0 0 1).set 1 2 1).set 2 0 1).set 2 2 1
    have hanswer : (unusedParameter.jacobian () x.toArray ⟨3, 3, .fill 3 3 0⟩).answer =
        .done ⟨3, 3, jacobian⟩ := rfl
    obtain rfl : jacobian = written := by simpa using hanswer.symm.trans answer
    funext k
    simp [jacobian, Mat.set_apply]

/-- The second of three parameters keeps the value seven. -/
theorem Settings.unusedParameter_is_never_changed :
    let s : Settings ℝ := .standard
    let out := s.minimizeWith Problems.unusedParameter () #[4, 7, 9] (.zeros 3 3)
    out.point[1]? = some 7 ∧ ∀ e ∈ out.history, ∀ point ∈ e.point?, point[1]? = some 7 :=
  inert_parameter_is_never_changed .standard Problems.unusedParameter () #[4, 7, 9] (.zeros 3 3)
    (1 : Fin 3) Problems.unusedParameter_writesZeroColumn

end LeastSquares
