import LeastSquares.Termination

namespace LeastSquares

inductive LogLevel
  | trace
  | debug
  | warn
deriving DecidableEq, Repr

def LogLevel.name : LogLevel → String
  | trace => "TRACE"
  | debug => "DEBUG"
  | warn => "WARN"

inductive LogRecord (α : Type)
  | stepInside (length radius : α)
  | searchPass (number : Nat) (damping length lower upper : α)
  | iteration (number : Nat) (residualNorm radius damping gradientNorm : α)
  | rejected (residualNorm radius damping : α)
  | finished (termination : Termination) (evaluations jacobianEvaluations iterations : Nat)
      (residualNorm : α)
  | stoppedEarly (termination : Termination)

namespace LogRecord

variable {α : Type}

def level : LogRecord α → LogLevel
  | stepInside .. | searchPass .. | rejected .. => .trace
  | iteration .. | finished .. => .debug
  | stoppedEarly .. => .warn

def text (num : α → String) : LogRecord α → String
  | stepInside length radius =>
    s!"Gauss-Newton step with scaled norm {num length} lies inside trust region {num radius}"
  | searchPass number damping length lower upper =>
    s!"Parameter search iteration {number}: par = {num damping}, "
      ++ s!"scaled step norm = {num length}, bracket = [{num lower}, {num upper}]"
  | iteration number residualNorm radius damping gradientNorm =>
    s!"Iteration {number}: residual norm {num residualNorm}, radius {num radius}, "
      ++ s!"damping {num damping}, gradient norm {num gradientNorm}"
  | rejected residualNorm radius damping =>
    s!"Rejected step with residual norm {num residualNorm}, new radius {num radius}, "
      ++ s!"damping {num damping}"
  | finished termination evaluations jacobianEvaluations iterations residualNorm =>
    s!"Levenberg-Marquardt terminated with {termination.name} (code {termination.code}) "
      ++ s!"after {evaluations} evaluations, {jacobianEvaluations} Jacobian evaluations, "
      ++ s!"{iterations} iterations. Residual norm: {num residualNorm}"
  | stoppedEarly termination =>
    s!"Levenberg-Marquardt stopped early: {termination.name}. "
      ++ "The result may be less accurate than requested."

end LogRecord

end LeastSquares
