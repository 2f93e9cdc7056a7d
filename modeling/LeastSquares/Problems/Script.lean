import LeastSquares.Problem

namespace LeastSquares.Problems

variable {α : Type}

inductive Playback (β : Type)
  | write (output : β)
  | replace (output : β)

structure Script (α : Type) where
  residualCount : Nat
  residuals : Array (Playback (Array α))
  jacobians : Array (Playback (Jacobian α))

structure Script.Position where
  residuals : Nat
  jacobians : Nat
deriving DecidableEq, Repr

namespace Script

def start : Position := ⟨0, 0⟩

/-- Plays element `k`, or the last one, into a buffer. -/
def play {β : Type} (items : Array (Playback β)) (copy : β → Except Fault β) (k : Nat) :
    Except Fault β :=
  match items[min k (items.size - 1)]? with
  | none => .error .indexOutOfBounds
  | some (.write output) => copy output
  | some (.replace output) => .ok output

def problem (s : Script α) : Problem α Position where
  residualCount := s.residualCount
  residuals p _ buffer :=
    .ofExcept { p with residuals := p.residuals + 1 }
      (play s.residuals
        (fun xs => if xs.size = buffer.size then .ok xs else .error .shapeMismatch) p.residuals)
  jacobian p _ given :=
    .ofExcept { p with jacobians := p.jacobians + 1 } (play s.jacobians given.copyFrom p.jacobians)

end Script

end LeastSquares.Problems
