import LeastSquares.Arith
import LeastSquares.Termination

namespace LeastSquares

variable {α : Type}

structure Tuning (α : Type) where
  /-- The relative tolerance for the length of a damped step. -/
  searchTolerance : α
  /-- The radius shrinks at gain ratios up to this one. -/
  shrinkThreshold : α
  /-- The radius grows at gain ratios from this one on. -/
  growThreshold : α
  /-- Steps are accepted at gain ratios from this one on. -/
  acceptanceThreshold : α
  maxSearchPasses : Nat

def Tuning.standard [Arith α] : Tuning α where
  searchTolerance := 0.1
  shrinkThreshold := 0.25
  growThreshold := 0.75
  acceptanceThreshold := 0.0001
  maxSearchPasses := 10

structure Criteria (α : Type) where
  functionTolerance : α
  stepTolerance : α
  gradientTolerance : α
  tuning : Tuning α

structure TrustRegion (α : Type) where
  radius : α
  damping : α
  residualNorm : α
  pointNorm : α
  gradientNorm : α
  /-- One more than the number of accepted steps. -/
  iteration : Nat

structure Trial (α : Type) where
  residualNorm : α
  stepNorm : α
  /-- The norm of the change of the residuals that the Jacobian predicts. -/
  linearNorm : α
  damping : α
  pointNorm : α
  budgetExhausted : Bool

inductive Observation (α : Type)
  | gradient (norm : α)
  | trial (trial : Trial α)

structure Verdict where
  accepted : Bool
  termination : Option Termination
deriving DecidableEq, Repr

namespace Trial

variable [Arith α]

/-- The relative reduction of the sum of squares from the residual norm `current`. A residual norm
that grew tenfold counts as the reduction `-1`. -/
def actualReduction (t : Trial α) (current : α) : α :=
  if 0.1 * t.residualNorm < current then
    1 - (t.residualNorm / current) * (t.residualNorm / current)
  else -1

def linearShare (t : Trial α) (current : α) : α :=
  t.linearNorm / current

def dampingShare (t : Trial α) (current : α) : α :=
  Arith.sqrt t.damping * t.stepNorm / current

/-- The relative reduction of the sum of squares that the linear model predicts. -/
def predictedReduction (t : Trial α) (current : α) : α :=
  t.linearShare current * t.linearShare current
    + t.dampingShare current * t.dampingShare current / 0.5

/-- The derivative of half the relative sum of squares along the step. -/
def directionalDerivative (t : Trial α) (current : α) : α :=
  -(t.linearShare current * t.linearShare current
    + t.dampingShare current * t.dampingShare current)

def gainRatio (t : Trial α) (current : α) : α :=
  if t.predictedReduction current == 0 then 0
  else t.actualReduction current / t.predictedReduction current

/-- The factor by which a failed trial shrinks the radius, between a tenth and a half. -/
def shrinkFactor (t : Trial α) (current : α) : α :=
  let actual := t.actualReduction current
  let slope := t.directionalDerivative current
  let factor := if 0 ≤ actual then 0.5 else 0.5 * slope / (slope + 0.5 * actual)
  if current ≤ 0.1 * t.residualNorm ∨ factor < 0.1 then 0.1 else factor

end Trial

namespace TrustRegion

variable [Arith α]

/-- The state before the first step. The radius is `stepBound` times the norm of the starting
point, or `stepBound` itself at the origin. -/
def initial (stepBound pointNorm residualNorm : α) : TrustRegion α where
  radius := if stepBound * pointNorm == 0 then stepBound else stepBound * pointNorm
  damping := 0
  residualNorm
  pointNorm
  gradientNorm := 0
  iteration := 1

/-- The radius that a trial is judged with. In the first iteration it is no larger than the
step. -/
def judgedRadius (s : TrustRegion α) (t : Trial α) : α :=
  if s.iteration = 1 then Arith.minNum s.radius t.stepNorm else s.radius

def adapted (tuning : Tuning α) (s : TrustRegion α) (t : Trial α) : TrustRegion α :=
  let ratio := t.gainRatio s.residualNorm
  let radius := s.judgedRadius t
  if ratio ≤ tuning.shrinkThreshold then
    let factor := t.shrinkFactor s.residualNorm
    { s with
      radius := factor * Arith.minNum radius (t.stepNorm / 0.1)
      damping := t.damping / factor }
  else if t.damping == 0 ∨ tuning.growThreshold ≤ ratio then
    { s with radius := t.stepNorm / 0.5, damping := t.damping * 0.5 }
  else { s with radius, damping := t.damping }

def moved (s : TrustRegion α) (t : Trial α) : TrustRegion α :=
  { s with
    pointNorm := t.pointNorm
    residualNorm := t.residualNorm
    iteration := s.iteration + 1 }

/-- Whether both reductions are at most `tolerance` and the model is not far too pessimistic. -/
def reductionWithin (tolerance : α) (t : Trial α) (current : α) : Bool :=
  decide (Arith.abs (t.actualReduction current) ≤ tolerance)
    && decide (t.predictedReduction current ≤ tolerance)
    && decide (0.5 * t.gainRatio current ≤ 1)

/-- The convergence test that ends the run after a trial, if one holds. `s` is the state after the
trial and `current` the residual norm before it. -/
def convergence (criteria : Criteria α) (s : TrustRegion α) (t : Trial α) (current : α) :
    Option Termination :=
  match reductionWithin criteria.functionTolerance t current,
    decide (s.radius ≤ criteria.stepTolerance * s.pointNorm) with
  | true, true => some .functionAndStepConverged
  | true, false => some .functionConverged
  | false, true => some .stepConverged
  | false, false => none

/-- The limit that ends the run after a trial, if one is met. Of several the gradient takes
precedence, then the step, the function and the budget. -/
def limit (s : TrustRegion α) (t : Trial α) (current : α) : Option Termination :=
  if s.gradientNorm ≤ Arith.epsilon then some .gradientToleranceTooSmall
  else if s.radius ≤ Arith.epsilon * s.pointNorm then some .stepToleranceTooSmall
  else if reductionWithin Arith.epsilon t current then some .functionToleranceTooSmall
  else if t.budgetExhausted then some .budgetExhausted
  else none

def judge (criteria : Criteria α) (s : TrustRegion α) (t : Trial α) :
    TrustRegion α × Verdict :=
  let adapted := s.adapted criteria.tuning t
  let accepted := decide (criteria.tuning.acceptanceThreshold ≤ t.gainRatio s.residualNorm)
  let next := if accepted then adapted.moved t else adapted
  (next,
    { accepted
      termination := (next.convergence criteria t s.residualNorm).or
        (next.limit t s.residualNorm) })

def observe (criteria : Criteria α) (s : TrustRegion α) :
    Observation α → TrustRegion α × Verdict
  | .gradient norm =>
    ({ s with gradientNorm := norm },
      { accepted := false
        termination :=
          if norm ≤ criteria.gradientTolerance then some .gradientConverged else none })
  | .trial t => s.judge criteria t

theorem limit_isSome_of_budgetExhausted {s : TrustRegion α} {t : Trial α} {current : α}
    (h : t.budgetExhausted = true) : (s.limit t current).isSome = true := by
  unfold limit
  repeat' split
  all_goals simp_all

/-- A trial that used up the budget ends the run. -/
theorem judge_termination_isSome_of_budgetExhausted {criteria : Criteria α}
    {s : TrustRegion α} {t : Trial α} (h : t.budgetExhausted = true) :
    (s.judge criteria t).2.termination.isSome = true := by
  simp [judge, limit_isSome_of_budgetExhausted h]

end TrustRegion

end LeastSquares
