namespace LeastSquares

/-- The positive number `mantissa · 2 ^ exponent`. At the lower end of a binade the numbers below
are only half as far apart as those above. -/
structure Binary where
  mantissa : Nat
  exponent : Int
  lowerEnd : Bool
deriving DecidableEq, Repr

structure Decimal where
  coefficient : Nat
  exponent : Int
deriving DecidableEq, Repr

structure Ratio where
  numerator : Nat
  denominator : Nat
deriving DecidableEq, Repr

def tenPow (e : Nat) : Nat :=
  Nat.pow 10 e

namespace Ratio

def ofDecimal (d : Decimal) : Ratio :=
  match d.exponent with
  | .ofNat e => ⟨d.coefficient * tenPow e, 1⟩
  | .negSucc e => ⟨d.coefficient, tenPow (e + 1)⟩

def ofBinary (mantissa : Nat) (exponent : Int) : Ratio :=
  match exponent with
  | .ofNat e => ⟨mantissa <<< e, 1⟩
  | .negSucc e => ⟨mantissa, 1 <<< (e + 1)⟩

def le (a b : Ratio) : Bool :=
  decide (a.numerator * b.denominator ≤ b.numerator * a.denominator)

def lt (a b : Ratio) : Bool :=
  decide (a.numerator * b.denominator < b.numerator * a.denominator)

def add (a b : Ratio) : Ratio :=
  ⟨a.numerator * b.denominator + b.numerator * a.denominator, a.denominator * b.denominator⟩

end Ratio

namespace Binary

def value (x : Binary) : Ratio :=
  .ofBinary x.mantissa x.exponent

def low (x : Binary) : Ratio :=
  .ofBinary (if x.lowerEnd then 4 * x.mantissa - 1 else 4 * x.mantissa - 2) (x.exponent - 2)

def high (x : Binary) : Ratio :=
  .ofBinary (4 * x.mantissa + 2) (x.exponent - 2)

/-- Whether a decimal reads back as the number. A midpoint goes to the even mantissa. -/
def reads (x : Binary) (d : Decimal) : Bool :=
  let r := Ratio.ofDecimal d
  if x.mantissa % 2 = 0 then x.low.le r && r.le x.high else x.low.lt r && r.lt x.high

end Binary

def Ratio.leadingExponent (r : Ratio) : Int :=
  if r.denominator ≤ r.numerator then
    ((Nat.toDigits 10 (r.numerator / r.denominator)).length : Int) - 1
  else
    let ceiling := (r.denominator + r.numerator - 1) / r.numerator
    Int.negOfNat (Nat.toDigits 10 (ceiling - 1)).length

namespace Decimal

def floorAt (r : Ratio) (exponent : Int) : Decimal :=
  let coefficient :=
    match exponent with
    | .ofNat e => r.numerator / (r.denominator * tenPow e)
    | .negSucc e => r.numerator * tenPow (e + 1) / r.denominator
  ⟨coefficient, exponent⟩

def next (d : Decimal) : Decimal :=
  { d with coefficient := d.coefficient + 1 }

/-- The decimal with `digits` digits that reads back, if there is one: of the two neighbours of the
number the nearer, and the upper one if both are equally near. -/
def atDigits (x : Binary) (digits : Nat) : Option Decimal :=
  let below := floorAt x.value (x.value.leadingExponent - digits + 1)
  let above := below.next
  if x.reads above then
    if x.reads below
        && (x.value.add x.value).lt ((Ratio.ofDecimal below).add (Ratio.ofDecimal above)) then
      some below
    else some above
  else if x.reads below then some below
  else none

def stripZeros (d : Decimal) : Decimal :=
  if h : d.coefficient ≠ 0 ∧ d.coefficient % 10 = 0 then
    have : d.coefficient / 10 < d.coefficient :=
      Nat.div_lt_self (Nat.pos_of_ne_zero h.1) (by decide)
    stripZeros ⟨d.coefficient / 10, d.exponent + 1⟩
  else d
termination_by d.coefficient

def maxDigits : Nat := 17

/-- The shortest decimal that reads back, and the nearest to the number among the shortest. -/
def shortest (x : Binary) : Decimal :=
  let found := (List.range maxDigits).findSome? fun k => atDigits x (k + 1)
  (found.getD (floorAt x.value (x.value.leadingExponent - maxDigits + 1))).stripZeros

end Decimal

end LeastSquares
