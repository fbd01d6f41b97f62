/-!
Contract: double precision numbers as their 64 bits.

Owns:
- the bit layout: sign, eleven exponent bits and fifty-two fraction bits;
- rounding of an exact ratio to the nearest double, ties to the even mantissa.

Does not own: decimal text.  A number here is its bit pattern, so two patterns
of zero or two patterns that are not numbers are told apart.
-/

namespace SlotCompiler

/-- A double precision number, by its bits. -/
structure Binary64 where
  bits : UInt64
deriving DecidableEq, Repr, Inhabited

namespace Binary64

/-- The sign bit. -/
def isNegative (number : Binary64) : Bool :=
  0x8000000000000000 ≤ number.bits.toNat

/-- The eleven exponent bits. -/
def biasedExponent (number : Binary64) : Nat :=
  number.bits.toNat / 0x10000000000000 % 0x800

/-- The fifty-two fraction bits. -/
def fraction (number : Binary64) : Nat :=
  number.bits.toNat % 0x10000000000000

/-- Exponent bits all set and a fraction: no number. -/
def isNaN (number : Binary64) : Bool :=
  number.biasedExponent == 2047 && number.fraction != 0

/-- Exponent bits all set and no fraction: an infinity. -/
def isInfinite (number : Binary64) : Bool :=
  number.biasedExponent == 2047 && number.fraction == 0

def infinityBits : Nat := 2047 * 0x10000000000000

/-- The quotient rounded to the nearest natural number, a half to the even
neighbour. -/
def roundHalfEven (numerator denominator : Nat) : Nat :=
  let quotient := numerator / denominator
  let twice := 2 * (numerator % denominator)
  if twice < denominator then
    quotient
  else if denominator < twice then
    quotient + 1
  else if quotient % 2 = 0 then
    quotient
  else
    quotient + 1

/-- The exponent of the leading binary digit of a positive ratio. -/
def leadingExponent (numerator denominator : Nat) : Int :=
  let estimate : Int := (numerator.log2 : Int) - (denominator.log2 : Int)
  if numerator * Nat.pow 2 (-estimate).toNat < denominator * Nat.pow 2 estimate.toNat then
    estimate - 1
  else
    estimate

/-- The double nearest to a ratio.

The mantissa is counted in units of `2 ^ unit`.  Adding the mantissa to the
exponent field lets a mantissa that rounds up to the next power of two carry
into the exponent, and everything past the greatest finite double is an
infinity. -/
def ofRatio (negative : Bool) (numerator denominator : Nat) : Binary64 :=
  let sign := if negative then 0x8000000000000000 else 0
  if numerator = 0 then
    ⟨UInt64.ofNat sign⟩
  else
    let unit := max (leadingExponent numerator denominator - 52) (-1074)
    let mantissa := roundHalfEven (numerator * Nat.pow 2 (-unit).toNat)
      (denominator * Nat.pow 2 unit.toNat)
    let magnitude := (unit + 1074).toNat * 0x10000000000000 + mantissa
    ⟨UInt64.ofNat (sign + min magnitude infinityBits)⟩

def ofDecimal (negative : Bool) (digits : Nat) (exponent : Int) : Binary64 :=
  ofRatio negative (digits * Nat.pow 10 exponent.toNat) (Nat.pow 10 (-exponent).toNat)

/-- The double nearest to an integer. -/
def ofInt (value : Int) : Binary64 :=
  ofRatio (decide (value < 0)) value.natAbs 1

end Binary64

end SlotCompiler
