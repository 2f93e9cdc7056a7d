import LeastSquares.TrustRegion

namespace LeastSquares

variable {α : Type}

inductive Scaling (α : Type)
  /-- By the largest norm that the column of the Jacobian had so far. -/
  | adaptive
  | fixed (factors : Array α)

structure Settings (α : Type) where
  functionTolerance : α
  stepTolerance : α
  gradientTolerance : α
  /-- The number of residual evaluations, in proportion to the number of parameters if absent. -/
  maxEvaluations : Option Nat
  stepBound : α
  scaling : Scaling α
  /-- The number of iterations between two reports, zero for none. -/
  reportEvery : Nat
  tuning : Tuning α

inductive TuningError
  | notFinite
  | searchToleranceRange
  | thresholdOrder
  | noSearchPass
deriving DecidableEq, Repr

def TuningError.message : TuningError → String
  | notFinite => "all thresholds must be finite"
  | searchToleranceRange => "search tolerance must lie strictly between 0 and 1"
  | thresholdOrder => "thresholds must satisfy 0 <= acceptance <= shrink < grow"
  | noSearchPass => "at least one parameter search iteration is required"

inductive Tolerance
  | function
  | step
  | gradient
deriving DecidableEq, Repr

def Tolerance.name : Tolerance → String
  | function => "ftol"
  | step => "xtol"
  | gradient => "gtol"

inductive InputError (α : Type)
  | tooFewResiduals (residuals parameters : Nat)
  | noParameters
  | badTolerance (tolerance : Tolerance) (value : α)
  | noEvaluations
  | badStepBound (value : α)
  | badScaling (index : Nat) (value : α)
  | scalingLength (parameters length : Nat)
  | badTuning (error : TuningError)
  | workspaceTooSmall (required actual : Nat)

namespace InputError

def message (num : α → String) : InputError α → String
  | tooFewResiduals residuals parameters =>
    s!"Number of residuals ({residuals}) must be at least the number of parameters ({parameters})."
  | noParameters => "The parameter vector must have at least one element."
  | badTolerance tolerance value =>
    "Tolerance '" ++ tolerance.name ++ "' must be finite and nonnegative, but is "
      ++ num value ++ "."
  | noEvaluations => "Maximum number of function evaluations must be positive."
  | badStepBound value => s!"Step bound must be positive and finite, but is {num value}."
  | badScaling index value =>
    s!"Scaling factors must be positive, but element {index} is {num value}."
  | scalingLength parameters length =>
    s!"Scaling vector has length {length}, but there are {parameters} parameters."
  | badTuning error => s!"Invalid trust region tuning: {error.message}"
  | workspaceTooSmall required actual =>
    s!"Workspace must have at least {required} elements, but has {actual}."

/-- The integer that stands for a refused minimization among the codes of terminations. -/
def code (_ : InputError α) : Int := 0

end InputError

namespace Tuning

variable [Arith α]

def error? (t : Tuning α) : Option TuningError :=
  if !([t.searchTolerance, t.shrinkThreshold, t.growThreshold, t.acceptanceThreshold].all
      Arith.isFinite) then
    some .notFinite
  else if t.searchTolerance ≤ 0 ∨ 1 ≤ t.searchTolerance then some .searchToleranceRange
  else if ¬(0 ≤ t.acceptanceThreshold ∧ t.acceptanceThreshold ≤ t.shrinkThreshold
      ∧ t.shrinkThreshold < t.growThreshold) then
    some .thresholdOrder
  else if t.maxSearchPasses = 0 then some .noSearchPass
  else none

end Tuning

def isTolerance [Arith α] (x : α) : Bool :=
  Arith.isFinite x && decide (0 ≤ x)

/-- Whether a number may be a scaling factor or a step bound. -/
def isFactor [Arith α] (x : α) : Bool :=
  Arith.isFinite x && decide (0 < x)

namespace Scaling

variable [Arith α]

def error? (n : Nat) : Scaling α → Option (InputError α)
  | adaptive => none
  | fixed factors =>
    if factors.size ≠ n then some (.scalingLength n factors.size)
    else
      let index := factors.toList.findIdx (!isFactor ·)
      factors[index]?.map (.badScaling index)

end Scaling

namespace Settings

variable [Arith α]

def standardTolerance : α := 1.49012e-8

def standard : Settings α where
  functionTolerance := standardTolerance
  stepTolerance := standardTolerance
  gradientTolerance := 0
  maxEvaluations := none
  stepBound := 100.0
  scaling := .adaptive
  reportEvery := 0
  tuning := .standard

def toleranceError? (s : Settings α) : Option (InputError α) :=
  [(Tolerance.function, s.functionTolerance), (.step, s.stepTolerance),
    (.gradient, s.gradientTolerance)].findSome? fun (tolerance, value) =>
      if isTolerance value then none else some (.badTolerance tolerance value)

/-- The first rule that the settings violate for a problem with `m` residuals and `n`
parameters. -/
def error? (s : Settings α) (m n : Nat) : Option (InputError α) :=
  if n = 0 then some .noParameters
  else if m < n then some (.tooFewResiduals m n)
  else
    s.toleranceError? <|>
    (if s.maxEvaluations = some 0 then some .noEvaluations else none) <|>
    (if isFactor s.stepBound then none else some (.badStepBound s.stepBound)) <|>
    s.scaling.error? n <|>
    s.tuning.error?.map .badTuning

theorem size_le_of_error?_eq_none {s : Settings α} {m n : Nat} (h : s.error? m n = none) :
    n ≤ m := by
  unfold error? at h
  split at h
  · cases h
  · split at h
    · cases h
    · omega

def budget (s : Settings α) (n : Nat) : Nat :=
  s.maxEvaluations.getD (100 * (n + 1))

def criteria (s : Settings α) : Criteria α where
  functionTolerance := s.functionTolerance
  stepTolerance := s.stepTolerance
  gradientTolerance := s.gradientTolerance
  tuning := s.tuning

end Settings

end LeastSquares
