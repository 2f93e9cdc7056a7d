import LeastSquares.Proofs.CheckedRun

namespace LeastSquares

open Checked

variable {α σ : Type}

/-- Whether the buffers have the sizes of one pair of dimensions. -/
def Workspace.HasOneShape (w : Workspace α) : Prop :=
  ∃ m n, w.Fits m n ∧ w.size = 9 * n + 3 * m

theorem Workspace.Fits.hasOneShape {w : Workspace α} {m n : Nat} (h : w.Fits m n) :
    w.HasOneShape :=
  ⟨m, n, h, h.size_eq⟩

/-- Whether a minimization did not fail and left a workspace of one shape. -/
structure Outcome.IsFaultless (out : Outcome α σ) : Prop where
  unfaulted : ∀ fault, out.result ≠ .error (.faulted fault)
  shape : out.workspace.HasOneShape

theorem Outcome.IsFaultless.withoutGradientTolerance {out : Outcome α σ} (h : out.IsFaultless) :
    out.withoutGradientTolerance.IsFaultless := by
  refine ⟨fun fault hfault => ?_, h.shape⟩
  obtain ⟨result, _, _, _, _⟩ := out
  cases result with
  | error failure =>
    cases hfault
    exact h.unfaulted fault rfl
  | ok => cases hfault

variable [Scalar α]

section Calls

variable {problem : Problem α σ} {x : Array α} {w : Workspace α} {k l : Nat}

theorem Settings.minimizeWith_isFaultless (s : Settings α) (state : σ) (fits : w.Fits k l)
    (keeps : problem.KeepsDimensions problem.residualCount x.size) :
    (s.minimizeWith problem state x w).IsFaultless := by
  have unfaulted (fault : Fault) :
      (s.minimizeWith problem state x w).result ≠ .error (.faulted fault) :=
    Settings.minimizeWith_unfaulted fits keeps fault
  obtain ⟨_, _, left⟩ := Settings.minimizeWith_fits fits keeps.abortsInPlace unfaulted
  exact ⟨unfaulted, left.hasOneShape⟩

theorem minimizeStandard_isFaultless (state : σ) (tolerance : α) (fits : w.Fits k l)
    (keeps : problem.KeepsDimensions problem.residualCount x.size) :
    (minimizeStandard problem state x tolerance w).IsFaultless := by
  by_cases large : requiredWorkspace problem.residualCount x.size ≤ w.size
  · rw [minimizeStandard_eq fits large]
    exact ((Settings.tolerating tolerance).minimizeWith_isFaultless state fits
      keeps).withoutGradientTolerance
  · unfold minimizeStandard
    rw [if_pos (Nat.lt_of_not_le large)]
    exact ⟨fun _ h => (nomatch h), fits.hasOneShape⟩

theorem minimizesStandard (state : σ) (tolerance : α) (fits : w.Fits k l)
    (keeps : problem.KeepsDimensions problem.residualCount x.size) :
    MinimizesStandard problem state x tolerance w
      (minimizeStandard problem state x tolerance w) := by
  unfold minimizeStandard
  dsimp only
  by_cases small : w.size < requiredWorkspace problem.residualCount x.size
  · rw [if_pos small]
    exact .refused rfl small
  · rw [if_neg small]
    exact .minimized (Nat.le_of_not_lt small) (Settings.minimizes fits keeps)

end Calls

/-- The workspaces that minimizations leave, starting from a new one: with any settings, of
problems with any dimensions whose calls neither fail nor change the dimensions of their outputs. -/
inductive Workspace.Served : Workspace α → Prop
  | new (m n : Nat) : Served (.zeros m n)
  | minimized {σ : Type} {w : Workspace α} (h : Served w) (s : Settings α) (problem : Problem α σ)
    (state : σ) (x : Array α)
    (keeps : problem.KeepsDimensions problem.residualCount x.size) :
    Served (s.minimizeWith problem state x w).workspace
  | minimizedStandard {σ : Type} {w : Workspace α} (h : Served w) (problem : Problem α σ)
    (state : σ) (x : Array α) (tolerance : α)
    (keeps : problem.KeepsDimensions problem.residualCount x.size) :
    Served (minimizeStandard problem state x tolerance w).workspace

namespace Workspace.Served

variable {w : Workspace α}

theorem hasOneShape (h : w.Served) : w.HasOneShape := by
  induction h with
  | new m n => exact (fits_zeros m n).hasOneShape
  | minimized _ s problem state x keeps ih =>
    obtain ⟨_, _, fits, -⟩ := ih
    exact (s.minimizeWith_isFaultless state fits keeps).shape
  | minimizedStandard _ problem state x tolerance keeps ih =>
    obtain ⟨_, _, fits, -⟩ := ih
    exact (minimizeStandard_isFaultless state tolerance fits keeps).shape

/-- After any minimizations, the buffers of a workspace have the sizes of one pair of dimensions,
and the next minimization does not fail, whatever its settings and the arithmetic are: in the
buffers of the workspace every index and every block is within bounds, every copy is between equal
sizes and every assertion holds, up to the outcome. -/
theorem minimizations_never_fault (served : w.Served) {problem : Problem α σ} (state : σ)
    {x : Array α} (keeps : problem.KeepsDimensions problem.residualCount x.size) :
    w.HasOneShape ∧
      (∀ s : Settings α,
        Minimizes s problem state x w (s.minimizeWith problem state x w) ∧
          (s.minimizeWith problem state x w).IsFaultless) ∧
      (∀ tolerance,
        MinimizesStandard problem state x tolerance w
            (minimizeStandard problem state x tolerance w) ∧
          (minimizeStandard problem state x tolerance w).IsFaultless) := by
  have shape := served.hasOneShape
  obtain ⟨_, _, fits, -⟩ := id shape
  refine ⟨shape, fun s => ?_, fun tolerance => ?_⟩
  · exact ⟨Settings.minimizes fits keeps, s.minimizeWith_isFaultless state fits keeps⟩
  · exact ⟨minimizesStandard state tolerance fits keeps,
      minimizeStandard_isFaultless state tolerance fits keeps⟩

end Workspace.Served

/-- In the valley of Rosenbrock, in the workspace that a run with invalid settings and then a run
with valid ones left of one for other dimensions. -/
theorem rosenbrock_minimizations_never_fault :
    let invalid : Settings ℝ := { Settings.standard with stepBound := 0 }
    let refused := (invalid.minimizeWith Problems.rosenbrock () #[0, 0] (.zeros 5 4)).workspace
    let left := (Settings.standard.minimizeWith Problems.rosenbrock () #[0, 0] refused).workspace
    left.Served ∧ (Problems.rosenbrock : Problem ℝ Unit).KeepsDimensions 2 2 ∧
      left.HasOneShape ∧
      (∀ s : Settings ℝ,
        Minimizes s Problems.rosenbrock () #[1, 3] left
            (s.minimizeWith Problems.rosenbrock () #[1, 3] left) ∧
          (s.minimizeWith Problems.rosenbrock () #[1, 3] left).IsFaultless) ∧
      (∀ tolerance,
        MinimizesStandard Problems.rosenbrock () #[1, 3] tolerance left
            (minimizeStandard Problems.rosenbrock () #[1, 3] tolerance left) ∧
          (minimizeStandard Problems.rosenbrock () #[1, 3] tolerance left).IsFaultless) := by
  intro invalid refused left
  have keeps : (Problems.rosenbrock : Problem ℝ Unit).KeepsDimensions 2 2 :=
    Problems.rosenbrock_keepsDimensions
  have served : left.Served :=
    ((Workspace.Served.new 5 4).minimized invalid Problems.rosenbrock () #[0, 0] keeps).minimized
      Settings.standard Problems.rosenbrock () #[0, 0] keeps
  exact ⟨served, keeps, served.minimizations_never_fault () keeps⟩

end LeastSquares
