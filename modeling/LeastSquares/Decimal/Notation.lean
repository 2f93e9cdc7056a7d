import LeastSquares.Decimal.Shortest

namespace LeastSquares

inductive Number
  | nan
  | infinite (negative : Bool)
  | zero (negative : Bool)
  | finite (negative : Bool) (magnitude : Binary)
deriving DecidableEq, Repr

def Number.ofBits (bits : Nat) : Number :=
  let negative := bits.testBit 63
  let biased : Nat := (bits >>> 52) % 2048
  let fraction : Nat := bits % (1 <<< 52)
  if biased = 2047 then
    if fraction = 0 then .infinite negative else .nan
  else if biased = 0 then
    if fraction = 0 then .zero negative else .finite negative ⟨fraction, -1074, false⟩
  else
    .finite negative
      ⟨(1 <<< 52) + fraction, (biased : Int) - 1075, decide (fraction = 0 ∧ 1 < biased)⟩

namespace Decimal

def signText (negative : Bool) : String :=
  if negative then "-" else ""

def positionalText (d : Decimal) : String :=
  let digits := (Nat.repr d.coefficient).toList
  match d.exponent with
  | .ofNat e => String.ofList (digits ++ List.replicate e '0')
  | .negSucc e =>
    let places := e + 1
    let padded := List.replicate (places + 1 - digits.length) '0' ++ digits
    let whole := padded.take (padded.length - places)
    String.ofList (whole ++ '.' :: padded.drop (padded.length - places))

/-- One digit before the point, and an exponent of ten without plus sign or padding. -/
def scientificText (d : Decimal) : String :=
  let digits := (Nat.repr d.coefficient).toList
  let exponent := d.exponent + (digits.length : Int) - 1
  match digits with
  | [] => ""
  | [c] => String.ofList [c, 'e'] ++ toString exponent
  | c :: rest => String.ofList (c :: '.' :: rest) ++ "e" ++ toString exponent

def textOf (zero : String) (finite : Decimal → String) : Number → String
  | .nan => "NaN"
  | .infinite negative => signText negative ++ "inf"
  | .zero negative => signText negative ++ zero
  | .finite negative x => signText negative ++ finite (shortest x)

def positional (x : Float) : String :=
  textOf "0" positionalText (.ofBits x.toBits.toNat)

def scientific (x : Float) : String :=
  textOf "0e0" scientificText (.ofBits x.toBits.toNat)

end Decimal

end LeastSquares
