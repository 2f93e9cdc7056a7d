namespace LeastSquares

/-- A request of the problem to stop at once. Its status is negative. -/
structure Abort where
  status : Int
  status_neg : status < 0
deriving DecidableEq, Repr

namespace Abort

def standard : Abort :=
  ⟨-1, by decide⟩

/-- The abort with the given status, or the standard one if the status is not negative. -/
def ofStatus (status : Int) : Abort :=
  if h : status < 0 then ⟨status, h⟩ else standard

def message (a : Abort) : String :=
  s!"Evaluation aborted by the problem with status {a.status}"

end Abort

inductive Termination
  /-- The actual and the predicted reduction of the sum of squares are both within tolerance. -/
  | functionConverged
  | stepConverged
  | functionAndStepConverged
  /-- The residuals are nearly orthogonal to all columns of the Jacobian. -/
  | gradientConverged
  | budgetExhausted
  | functionToleranceTooSmall
  | stepToleranceTooSmall
  | gradientToleranceTooSmall
  | aborted (status : Int)
deriving DecidableEq, Repr

namespace Termination

def code : Termination → Int
  | functionConverged => 1
  | stepConverged => 2
  | functionAndStepConverged => 3
  | gradientConverged => 4
  | budgetExhausted => 5
  | functionToleranceTooSmall => 6
  | stepToleranceTooSmall => 7
  | gradientToleranceTooSmall => 8
  | aborted status => status

def name : Termination → String
  | functionConverged => "FunctionConverged"
  | stepConverged => "StepConverged"
  | functionAndStepConverged => "FunctionAndStepConverged"
  | gradientConverged => "GradientConverged"
  | budgetExhausted => "MaxEvaluationsReached"
  | functionToleranceTooSmall => "FtolTooSmall"
  | stepToleranceTooSmall => "XtolTooSmall"
  | gradientToleranceTooSmall => "GtolTooSmall"
  | aborted status => s!"UserAbort({status})"

def isSuccessful : Termination → Bool
  | functionConverged | stepConverged | functionAndStepConverged | gradientConverged => true
  | _ => false

def isPrecisionLimited : Termination → Bool
  | functionToleranceTooSmall | stepToleranceTooSmall | gradientToleranceTooSmall => true
  | _ => false

end Termination

end LeastSquares
