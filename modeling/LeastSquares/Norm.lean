import LeastSquares.Arith
import LeastSquares.Fault
import LeastSquares.Vec

namespace LeastSquares

/-- The partial sums of squares. `large` and `small` are relative to the largest magnitude seen
in their band, `medium` is absolute. -/
structure Bands (α : Type) where
  large : α
  medium : α
  small : α
  largest : α
  largestSmall : α

namespace Bands

variable {α : Type} [Arith α]

def empty : Bands α :=
  ⟨0, 0, 0, 0, 0⟩

/-- Adds a component of magnitude `x`. Squares of magnitudes up to `lower` may underflow, and
`upper` is small enough for the squares below it to be summed. -/
def add (lower upper : α) (b : Bands α) (x : α) : Bands α :=
  if lower < x ∧ x < upper then
    { b with medium := b.medium + x * x }
  else if x ≤ lower then
    if b.largestSmall < x then
      let ratio := b.largestSmall / x
      { b with small := 1 + b.small * ratio * ratio, largestSmall := x }
    else if x == 0 then
      b
    else
      let ratio := x / b.largestSmall
      { b with small := b.small + ratio * ratio }
  else if b.largest < x then
    let ratio := b.largest / x
    { b with large := 1 + b.large * ratio * ratio, largest := x }
  else
    let ratio := x / b.largest
    { b with large := b.large + ratio * ratio }

def total (b : Bands α) : α :=
  if !(b.large == 0) then
    b.largest * Arith.sqrt (b.large + (b.medium / b.largest) / b.largest)
  else if !(b.medium == 0) then
    if b.largestSmall ≤ b.medium then
      Arith.sqrt (b.medium * (1 + (b.largestSmall / b.medium) * (b.largestSmall * b.small)))
    else
      Arith.sqrt (b.largestSmall * ((b.medium / b.largestSmall) + (b.largestSmall * b.small)))
  else
    b.largestSmall * Arith.sqrt b.small

end Bands

variable {α : Type}

/-- The magnitude up to which a component counts as small. -/
def smallBound [Arith α] : α :=
  Arith.sqrt Arith.minPositive

def largeBound [Arith α] (count : Nat) : α :=
  Arith.sqrt Arith.maxFinite / (count : α)

/-- The Euclidean norm, exactly zero for an empty list. -/
def bandedNorm [Arith α] (xs : List α) : α :=
  if xs.isEmpty then 0
  else
    (xs.foldl (fun b x => b.add smallBound (largeBound xs.length) (Arith.abs x))
      Bands.empty).total

def norm [Scalar α] {n : Nat} (v : Vec α n) : α :=
  Scalar.norm v.toList

def scaledNorm [Scalar α] {n : Nat} (scaling v : Vec α n) : α :=
  norm (Vec.ofFn fun i => scaling i * v i)

def scaledNorm? [Scalar α] (scaling v : Array α) : Except Fault α :=
  match Vec.ofArray? v.size scaling, Vec.ofArray? v.size v with
  | some scaling, some v => .ok (scaledNorm scaling v)
  | _, _ => .error .scalingAndVectorLengths

end LeastSquares
