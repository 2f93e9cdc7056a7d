import LeastSquares.DampingSearch
import LeastSquares.Proofs.Permutations
import Mathlib.Data.Fintype.EquivFin

namespace LeastSquares

variable {α : Type} {m n : Nat}

namespace Elimination

variable [Arith α]

/-- Whether two eliminations agree in all that is still read once the rows before `j` are done. -/
structure Agrees (j : Nat) (e e' : Elimination α n) : Prop where
  square : e'.square = e.square
  rotated : e'.rotated = e.rotated
  finished : ∀ k : Fin n, k < j → e'.row k = e.row k

variable {e e' : Elimination α n}

/-- The scratch row is written from `j` on before it is read, unless there is nothing to
eliminate. -/
theorem Agrees.eliminateRow {j : Fin n} (h : e.Agrees j e') (d : α) :
    (e.eliminateRow j d).Agrees j (e'.eliminateRow j d) := by
  unfold Elimination.eliminateRow
  split
  · exact h
  · have hrow : (Vec.ofFn fun k => if k < j then e'.row k else if k = j then d else 0) =
        Vec.ofFn fun k => if k < j then e.row k else if k = j then d else 0 := by
      ext k
      rw [Vec.ofFn_apply, Vec.ofFn_apply]
      split
      · rename_i hk
        exact h.finished k hk
      · rfl
    rw [hrow, h.square, h.rotated]
    exact ⟨rfl, rfl, fun _ _ => rfl⟩

theorem Agrees.finishRow {j : Fin n} (h : e.Agrees j e') (diagonal scaling : Vec α n)
    (permutation : Vec (Fin n) n) :
    (e.finishRow diagonal scaling permutation j).Agrees (j + 1)
      (e'.finishRow diagonal scaling permutation j) := by
  obtain ⟨square, rotated, finished⟩ := h.eliminateRow (scaling (permutation j))
  unfold Elimination.finishRow
  dsimp only
  rw [square]
  refine ⟨rfl, rotated, ?_⟩
  intro k hk
  dsimp only
  rw [Vec.set_apply, Vec.set_apply]
  split
  · rfl
  · rename_i hne
    exact finished k (Nat.lt_of_le_of_ne (Nat.le_of_lt_succ hk) fun he => hne (Fin.ext he.symm))

end Elimination

/-- A damped solve overwrites its scratch row. -/
theorem Triangular.solveDamped_congr [Arith α] (f : Triangular α m n) (w b row row' : Vec α n) :
    f.solveDamped w b row' = f.solveDamped w b row := by
  have start : Elimination.Agrees 0
      { square := symmetrized f.square, row, rotated := b, carry := 0 }
      { square := symmetrized f.square, row := row', rotated := b, carry := 0 } :=
    ⟨rfl, rfl, fun _ hk => absurd hk (Nat.not_lt_zero _)⟩
  obtain ⟨square, rotated, finished⟩ := foldl_finRange_related
    (Elimination.finishRow (.ofFn fun j => f.square j j) w f.permutation)
    (Elimination.finishRow (.ofFn fun j => f.square j j) w f.permutation)
    (fun j e e' => e.Agrees j e') start (fun _ _ _ h => h.finishRow _ _ _)
  have hrow := Vec.ext fun k => finished k k.isLt
  unfold solveDamped
  dsimp only
  rw [hrow, square, rotated]

/-- A scattered vector overwrites what it is scattered into. -/
theorem scatter_congr {p : Vec (Fin n) n} (h : Function.Injective p.get)
    (into into' values : Vec α n) : scatter p into' values = scatter p into values := by
  ext i
  obtain ⟨j, rfl⟩ := (Finite.injective_iff_bijective.mp h).surjective i
  exact (scatter_apply h into' values j).trans (scatter_apply h into values j).symm

structure SearchOutcome.Agrees (out out' : SearchOutcome α m n) : Prop where
  damping : out'.damping = out.damping
  passes : out'.passes = out.passes
  step : out'.step = out.step
  factor : out'.factor = out.factor
  log : out'.log = out.log

namespace SearchState

variable [Scalar α]

theorem solve_congr (p : Subproblem α n) (s : SearchState α m n) (buffers : SearchBuffers α n) :
    solve p { s with buffers } = solve p s := by
  unfold solve
  dsimp only
  rw [s.factor.solveDamped_congr _ _ s.buffers.diagonal buffers.diagonal]

/-- A search reads its buffers only after it has written them. -/
theorem run_agrees (p : Subproblem α n) (further : Nat) {s s' : SearchState α m n}
    (h : s' = { s with buffers := s'.buffers }) :
    (run p further s).Agrees (run p further s') := by
  have hsolve : solve p s' = solve p s := by
    rw [h, solve_congr]
  have hrun : run p further s' = run p further s := by
    cases further <;> unfold run <;> rw [hsolve, h] <;> rfl
  rw [hrun]
  exact ⟨rfl, rfl, rfl, rfl, rfl⟩

end SearchState

/-- A search overwrites the old step and its buffers, apart from a buffer that the undamped step
does not need. -/
theorem Subproblem.search_agrees [Scalar α] {f : Triangular α m n}
    (h : Function.Injective f.permutation.get) (p : Subproblem α n) (estimate : α)
    (oldStep oldStep' : Vec α n) (buffers buffers' : SearchBuffers α n) :
    (p.search f estimate oldStep buffers).Agrees (p.search f estimate oldStep' buffers') := by
  unfold search
  dsimp only
  rw [scatter_congr h oldStep oldStep']
  split
  · exact ⟨rfl, rfl, rfl, rfl, rfl⟩
  · exact SearchState.run_agrees p _ rfl

theorem SearchState.permutation_run [Scalar α] (p : Subproblem α n) (further : Nat)
    (s : SearchState α m n) :
    (SearchState.run p further s).factor.permutation = s.factor.permutation := by
  induction further generalizing s with
  | zero => rfl
  | succ further ih =>
    unfold run
    dsimp only
    split
    · rfl
    · exact ih _

/-- A search leaves the order of the columns. -/
theorem Subproblem.permutation_search [Scalar α] (p : Subproblem α n) (f : Triangular α m n)
    (estimate : α) (oldStep : Vec α n) (buffers : SearchBuffers α n) :
    (p.search f estimate oldStep buffers).factor.permutation = f.permutation := by
  unfold search
  dsimp only
  split
  · rfl
  · exact SearchState.permutation_run p _ _

end LeastSquares
