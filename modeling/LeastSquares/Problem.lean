import LeastSquares.Jacobian
import LeastSquares.Termination

namespace LeastSquares

variable {α σ : Type}

/-- How a call ended. An aborted call leaves its output as far as it was written. -/
inductive Answer (β : Type)
  | done (output : β)
  | aborted (abort : Abort) (output : β)
  | faulted (fault : Fault)

def Answer.output? {β : Type} : Answer β → Option β
  | .done output => some output
  | .aborted .. => none
  | .faulted _ => none

structure Reply (σ β : Type) where
  state : σ
  answer : Answer β

/-- A problem with states `σ`. -/
structure Problem (α σ : Type) where
  residualCount : Nat
  /-- Writes the residuals at a point into a buffer. -/
  residuals : σ → Array α → Array α → Reply σ (Array α)
  /-- Writes the Jacobian at a point into a matrix of zeros. -/
  jacobian : σ → Array α → Jacobian α → Reply σ (Jacobian α)
  /-- Is told the iteration, the point and its residuals. -/
  report : σ → Nat → Array α → Array α → Reply σ Unit := fun s _ _ _ => ⟨s, .done ()⟩

def Reply.mapState {β τ : Type} (wrap : σ → τ) (r : Reply σ β) : Reply τ β :=
  ⟨wrap r.state, r.answer⟩

/-- The reply of a call that changes no state and either writes its output or faults. -/
def Reply.ofExcept {β : Type} (s : σ) : Except Fault β → Reply σ β
  | .ok output => ⟨s, .done output⟩
  | .error fault => ⟨s, .faulted fault⟩

def Problem.ofFunctions (residualCount : Nat) (residuals : Array α → Except Fault (Array α))
    (jacobian : Array α → Jacobian α → Except Fault (Jacobian α)) : Problem α Unit where
  residualCount
  residuals _ x _ := .ofExcept () (residuals x)
  jacobian _ x a := .ofExcept () (jacobian x a)

end LeastSquares
