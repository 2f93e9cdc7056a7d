namespace LeastSquares

/-- The operations and the representation limits that the numerical kernels use. No law is
assumed: comparisons need not be total and equality need not be reflexive. -/
class Arith (α : Type) extends Add α, Sub α, Mul α, Div α, Neg α, Zero α, One α, NatCast α,
    OfScientific α, LT α, LE α, BEq α where
  decLt : DecidableLT α
  decLe : DecidableLE α
  abs : α → α
  sqrt : α → α
  isFinite : α → Bool
  /-- The distance from one to the next larger number. -/
  epsilon : α
  /-- The smallest positive number of full precision. -/
  minPositive : α
  maxFinite : α

class Scalar (α : Type) extends Arith α where
  norm : List α → α

namespace Arith

variable {α : Type} [Arith α]

instance : DecidableLT α := decLt

instance : DecidableLE α := decLe

/-- The larger operand, the second of two equal ones, and the other one if one is no number. -/
def maxNum (a b : α) : α :=
  if a == a then (if a ≤ b then b else a) else b

def minNum (a b : α) : α :=
  if a == a then (if b ≤ a then b else a) else b

/-- The sum from left to right. The start is negative zero, so that a sum of negative zeros
stays one. -/
def sum (xs : List α) : α :=
  xs.foldl (· + ·) (-0)

end Arith

end LeastSquares
