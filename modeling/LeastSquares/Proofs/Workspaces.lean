import LeastSquares.Minimize

namespace LeastSquares

variable {α σ : Type}

structure SearchMemory.Coherent (s : SearchMemory α) : Prop where
  first : s.first.size = s.diagonal.size
  second : s.second.size = s.diagonal.size

/-- Whether the buffers for parameters have one size and those for residuals another one. The trial
residuals are what the problem made of them. -/
structure Workspace.Coherent (w : Workspace α) : Prop where
  projected : w.projected.size = w.scaling.size
  step : w.step.size = w.scaling.size
  trialPoint : w.trialPoint.size = w.scaling.size
  linearChange : w.linearChange.size = w.scaling.size
  columnNorms : w.columnNorms.size = w.scaling.size
  search : w.search.Coherent
  reflected : w.reflected.size = w.residuals.size

theorem Vec.exists_ofArray? {n : Nat} {xs : Array α} (h : xs.size = n) :
    ∃ v, ofArray? n xs = some v :=
  Option.isSome_iff_exists.mp (ofArray?_isSome_iff.mpr h)

section Zero

variable [Zero α]

theorem SearchMemory.coherent_zeros (n : Nat) : (zeros n : SearchMemory α).Coherent :=
  ⟨by simp [zeros], by simp [zeros]⟩

theorem SearchMemory.Coherent.resized {s : SearchMemory α} (h : s.Coherent) (n : Nat) :
    (s.resized n).Coherent ∧ (s.resized n).diagonal.size = n := by
  unfold SearchMemory.resized
  split
  · rename_i hsize
    exact ⟨h, hsize⟩
  · exact ⟨coherent_zeros n, by simp [zeros]⟩

theorem SearchMemory.Coherent.exists_buffers? {s : SearchMemory α} (h : s.Coherent) (n : Nat) :
    ∃ b, s.buffers? n = some b := by
  obtain ⟨hcoherent, hsize⟩ := h.resized n
  obtain ⟨diagonal, hdiagonal⟩ := Vec.exists_ofArray? hsize
  obtain ⟨first, hfirst⟩ := Vec.exists_ofArray? (hcoherent.first.trans hsize)
  obtain ⟨second, hsecond⟩ := Vec.exists_ofArray? (hcoherent.second.trans hsize)
  refine ⟨⟨diagonal, first, second⟩, ?_⟩
  simp [buffers?, hdiagonal, hfirst, hsecond]

namespace Workspace

theorem coherent_zeros (m n : Nat) : (zeros m n : Workspace α).Coherent := by
  constructor <;> simp [zeros, SearchMemory.coherent_zeros]

/-- A prepared workspace has the dimensions that it was prepared for. -/
theorem Coherent.prepared {w : Workspace α} (h : w.Coherent) (m n : Nat) :
    (w.prepared m n).Coherent ∧ (w.prepared m n).scaling.size = n ∧
      (w.prepared m n).residuals.size = m := by
  unfold Workspace.prepared
  split
  · rename_i hsizes
    exact ⟨h, hsizes⟩
  · exact ⟨coherent_zeros m n, by simp [zeros], by simp [zeros]⟩

theorem Coherent.exists_buffers? {w : Workspace α} (h : w.Coherent) {m n : Nat}
    (hn : w.scaling.size = n) (hm : w.residuals.size = m) : ∃ b, w.buffers? m n = some b := by
  subst hn hm
  obtain ⟨scaling, hscaling⟩ := Vec.exists_ofArray? (rfl : w.scaling.size = _)
  obtain ⟨projected, hprojected⟩ := Vec.exists_ofArray? h.projected
  obtain ⟨step, hstep⟩ := Vec.exists_ofArray? h.step
  obtain ⟨trialPoint, htrialPoint⟩ := Vec.exists_ofArray? h.trialPoint
  obtain ⟨linearChange, hlinearChange⟩ := Vec.exists_ofArray? h.linearChange
  obtain ⟨columnNorms, hcolumnNorms⟩ := Vec.exists_ofArray? h.columnNorms
  obtain ⟨search, hsearch⟩ := h.search.exists_buffers? w.scaling.size
  obtain ⟨reflected, hreflected⟩ := Vec.exists_ofArray? h.reflected
  refine ⟨⟨scaling, projected, step, trialPoint, linearChange, columnNorms, search, reflected⟩, ?_⟩
  simp [buffers?, hscaling, hprojected, hstep, htrialPoint, hlinearChange, hcolumnNorms, hsearch,
    hreflected]

end Workspace

end Zero

/-- A minimization can be launched from any coherent workspace. -/
theorem Settings.exists_launch? [Scalar α] {workspace : Workspace α} (h : workspace.Coherent)
    (m : Nat) (state : σ) (x : Array α) :
    ∃ l : Launch α σ m x.size, launch? state x workspace = some l ∧ l.problem = state ∧
      l.point = .ofArray x ∧ l.residuals = (workspace.prepared m x.size).residuals := by
  obtain ⟨hprepared, hscaling, hresiduals⟩ := h.prepared m x.size
  obtain ⟨buffers, hbuffers⟩ := hprepared.exists_buffers? hscaling hresiduals
  let prepared := workspace.prepared m x.size
  refine ⟨⟨state, .ofArray x, buffers, prepared.residuals, prepared.trialResiduals⟩, ?_, rfl, rfl,
    rfl⟩
  simp [launch?, hbuffers, prepared]

/-- A minimization whose first call of the residuals runs to its end is launched with it. -/
theorem Settings.exists_launch?_of_first [Scalar α] {m : Nat} {workspace : Workspace α}
    (h : workspace.Coherent) {state : σ} {x : Array α} {t : Task α σ m x.size} {residuals : Vec α m}
    (first : (t.problem.residuals state x (workspace.prepared m x.size).residuals).answer =
      .done residuals.toArray) :
    ∃ l, launch? state x workspace = some l ∧ l.point = .ofArray x ∧
      (l.reply t).answer = .done residuals.toArray := by
  obtain ⟨l, launched, hproblem, hpoint, hresiduals⟩ := exists_launch? h m state x
  refine ⟨l, launched, hpoint, ?_⟩
  rw [Launch.reply, hproblem, hpoint, hresiduals]
  exact first

end LeastSquares
