import LeastSquares.Problem

namespace LeastSquares.Problems

variable {α σ : Type}

inductive Callback
  | residuals
  | jacobian
  | report
deriving DecidableEq, Repr

structure Interruption where
  callback : Callback
  call : Nat
  abort : Abort
deriving DecidableEq, Repr

structure Interruptible (σ : Type) where
  inner : σ
  residualCalls : Nat
  jacobianCalls : Nat
  reportCalls : Nat

def Interruptible.start (s : σ) : Interruptible σ :=
  ⟨s, 0, 0, 0⟩

def planned (plan : List Interruption) (callback : Callback) (call : Nat) : Option Abort :=
  (plan.find? fun i => i.callback = callback ∧ i.call = call).map (·.abort)

/-- Aborts the planned calls, which then do nothing else. -/
def interrupted (plan : List Interruption) (p : Problem α σ) : Problem α (Interruptible σ) where
  residualCount := p.residualCount
  residuals s x buffer :=
    let counted := { s with residualCalls := s.residualCalls + 1 }
    match planned plan .residuals s.residualCalls with
    | some abort => ⟨counted, .aborted abort buffer⟩
    | none => (p.residuals s.inner x buffer).mapState ({ counted with inner := · })
  jacobian s x given :=
    let counted := { s with jacobianCalls := s.jacobianCalls + 1 }
    match planned plan .jacobian s.jacobianCalls with
    | some abort => ⟨counted, .aborted abort given⟩
    | none => (p.jacobian s.inner x given).mapState ({ counted with inner := · })
  report s iteration x residuals :=
    let counted := { s with reportCalls := s.reportCalls + 1 }
    match planned plan .report s.reportCalls with
    | some abort => ⟨counted, .aborted abort ()⟩
    | none => (p.report s.inner iteration x residuals).mapState ({ counted with inner := · })

end LeastSquares.Problems
