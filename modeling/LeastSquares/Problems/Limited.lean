import LeastSquares.Problem

namespace LeastSquares.Problems

variable {α σ : Type}

structure Limited (σ : Type) where
  inner : σ
  /-- The residual evaluations that are still allowed, without limit if absent. -/
  remaining : Option Nat
  residualCalls : Nat
  jacobianCalls : Nat
  reported : Array Nat

def Limited.start (s : σ) (remaining : Option Nat) : Limited σ :=
  ⟨s, remaining, 0, 0, #[]⟩

/-- Aborts every residual evaluation after the allowed ones. Reports are only recorded. -/
def limited (abort : Abort) (p : Problem α σ) : Problem α (Limited σ) where
  residualCount := p.residualCount
  residuals s x buffer :=
    let counted := { s with residualCalls := s.residualCalls + 1 }
    if s.remaining = some 0 then ⟨counted, .aborted abort buffer⟩
    else
      (p.residuals s.inner x buffer).mapState
        ({ counted with inner := ·, remaining := s.remaining.map (· - 1) })
  jacobian s x given :=
    (p.jacobian s.inner x given).mapState
      ({ s with inner := ·, jacobianCalls := s.jacobianCalls + 1 })
  report s iteration _ _ :=
    ⟨{ s with reported := s.reported.push iteration }, .done ()⟩

end LeastSquares.Problems
