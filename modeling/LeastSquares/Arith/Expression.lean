import LeastSquares.Arith

namespace LeastSquares

inductive Expression (α : Type)
  | number (x : α)
  | sum (x y : Expression α)
  | difference (x y : Expression α)
  | product (x y : Expression α)
  | quotient (x y : Expression α)
  | negative (x : Expression α)
  | magnitude (x : Expression α)
  | root (x : Expression α)
deriving Repr

namespace Expression

variable {α : Type}

def parts : Expression α → List (Expression α)
  | number x => [number x]
  | sum x y => sum x y :: (x.parts ++ y.parts)
  | difference x y => difference x y :: (x.parts ++ y.parts)
  | product x y => product x y :: (x.parts ++ y.parts)
  | quotient x y => quotient x y :: (x.parts ++ y.parts)
  | negative x => negative x :: x.parts
  | magnitude x => magnitude x :: x.parts
  | root x => root x :: x.parts

variable [Arith α]

def value : Expression α → α
  | number x => x
  | sum x y => x.value + y.value
  | difference x y => x.value - y.value
  | product x y => x.value * y.value
  | quotient x y => x.value / y.value
  | negative x => -x.value
  | magnitude x => Arith.abs x.value
  | root x => Arith.sqrt x.value

instance : Arith (Expression α) where
  add := sum
  sub := difference
  mul := product
  div := quotient
  neg := negative
  zero := number 0
  one := number 1
  natCast n := number n
  ofScientific m s e := number (OfScientific.ofScientific m s e)
  lt x y := x.value < y.value
  le x y := x.value ≤ y.value
  beq x y := x.value == y.value
  decLt x y := inferInstanceAs (Decidable (x.value < y.value))
  decLe x y := inferInstanceAs (Decidable (x.value ≤ y.value))
  abs := magnitude
  sqrt := root
  isFinite x := Arith.isFinite x.value
  epsilon := number Arith.epsilon
  minPositive := number Arith.minPositive
  maxFinite := number Arith.maxFinite

@[simp] theorem value_zero : (0 : Expression α).value = 0 :=
  rfl

variable (x y : Expression α)

theorem lt_iff : x < y ↔ x.value < y.value :=
  Iff.rfl

theorem le_iff : x ≤ y ↔ x.value ≤ y.value :=
  Iff.rfl

theorem beq_eq : (x == y) = (x.value == y.value) :=
  rfl

end Expression

end LeastSquares
