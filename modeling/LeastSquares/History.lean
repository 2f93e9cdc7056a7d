import LeastSquares.Log
import LeastSquares.Problem

namespace LeastSquares

variable {α : Type}

inductive Event (α : Type)
  | residuals (point : Array α) (written : Option (Array α))
  | jacobian (point : Array α) (given : Jacobian α) (written : Option (Jacobian α))
  | report (iteration : Nat) (point residuals : Array α)
  | log (record : LogRecord α)

abbrev History (α : Type) := Array (Event α)

namespace Event

def isResiduals : Event α → Bool
  | residuals .. => true
  | _ => false

def isJacobian : Event α → Bool
  | jacobian .. => true
  | _ => false

def isReport : Event α → Bool
  | report .. => true
  | _ => false

def record? : Event α → Option (LogRecord α)
  | log record => some record
  | _ => none

end Event

namespace History

def calls (h : History α) : History α :=
  h.filter fun e => e.record?.isNone

def log (h : History α) : List (LogRecord α) :=
  h.toList.filterMap Event.record?

def residualCalls (h : History α) : Nat :=
  h.countP Event.isResiduals

def jacobianCalls (h : History α) : Nat :=
  h.countP Event.isJacobian

def reportCalls (h : History α) : Nat :=
  h.countP Event.isReport

def hasNonzeroJacobian [Arith α] (h : History α) : Bool :=
  h.any fun
    | .jacobian _ given _ => !given.isZero
    | _ => false

end History

end LeastSquares
