import SlotCompiler.Number.Binary64

/-!
Contract: the decimal text of a double.

Owns:
- the interval of reals that round to a finite double;
- the search for the fewest digits inside that interval, nearest to the value,
  an exact tie going up;
- the layout: positional from `0.0001` up to but not including ten to the
  sixteenth, exponent form elsewhere.
-/

namespace SlotCompiler

/-- A finite magnitude `mantissa * 2 ^ exponent`. -/
structure Scaled where
  mantissa : Nat
  exponent : Int
  /-- The gap to the next smaller double is half the gap to the next greater. -/
  narrowBelow : Bool
deriving DecidableEq, Repr

/-- A decimal `digits * 10 ^ exponent`. -/
structure Decimal where
  digits : Nat
  exponent : Int
deriving DecidableEq, Repr

namespace Scaled

/-- The magnitude of a finite double. -/
def ofBinary64 (number : Binary64) : Scaled :=
  if number.biasedExponent = 0 then
    { mantissa := number.fraction, exponent := -1074, narrowBelow := false }
  else
    { mantissa := 0x10000000000000 + number.fraction
      exponent := (number.biasedExponent : Int) - 1075
      narrowBelow := number.fraction == 0 && 1 < number.biasedExponent }

def compareScaled (left : Nat) (tens : Int) (right : Nat) (twos : Int) : Ordering :=
  compare (left * Nat.pow 10 tens.toNat * Nat.pow 2 (-twos).toNat)
    (right * Nat.pow 2 twos.toNat * Nat.pow 10 (-tens).toNat)

/-- A decimal lies among the reals that round to the magnitude: between the
midpoints to both neighbours, which belong to it when the mantissa is even. -/
def readsBack (magnitude : Scaled) (decimal : Decimal) : Bool :=
  let low :=
    if magnitude.narrowBelow then 4 * magnitude.mantissa - 1 else 4 * magnitude.mantissa - 2
  let high := 4 * magnitude.mantissa + 2
  let ends := magnitude.mantissa % 2 == 0
  let fromLow := compareScaled decimal.digits decimal.exponent low (magnitude.exponent - 2)
  let fromHigh := compareScaled decimal.digits decimal.exponent high (magnitude.exponent - 2)
  (fromLow == .gt || (ends && fromLow == .eq)) && (fromHigh == .lt || (ends && fromHigh == .eq))

def stepsBelow (magnitude : Scaled) (exponent : Int) : Nat :=
  (magnitude.mantissa * Nat.pow 2 magnitude.exponent.toNat * Nat.pow 10 (-exponent).toNat) /
    (Nat.pow 2 (-magnitude.exponent).toNat * Nat.pow 10 exponent.toNat)

/-- The least `k` with `magnitude < 10 ^ k`, searched upwards from a bound that
is surely too small. -/
def decimalScale (magnitude : Scaled) : Int :=
  let binary : Int := (magnitude.mantissa.log2 : Int) + magnitude.exponent
  let start : Int := binary * 30103 / 100000 - 1
  let fits (scale : Int) : Bool :=
    compareScaled 1 scale magnitude.mantissa magnitude.exponent == .gt
  if fits start then start
  else if fits (start + 1) then start + 1
  else if fits (start + 2) then start + 2
  else start + 3

/-- The decimal on one grid that reads back: of the two grid points around the
value the nearer one, the upper one on a tie. -/
def onGrid (magnitude : Scaled) (exponent : Int) : Option Decimal :=
  let below := magnitude.stepsBelow exponent
  let lower : Decimal := { digits := below, exponent := exponent }
  let upper : Decimal := { digits := below + 1, exponent := exponent }
  match magnitude.readsBack lower, magnitude.readsBack upper with
  | true, true =>
    match compareScaled (2 * below + 1) exponent magnitude.mantissa (magnitude.exponent + 1) with
    | .gt => some lower
    | _ => some upper
  | true, false => some lower
  | false, true => some upper
  | false, false => none

def exact (magnitude : Scaled) : Decimal :=
  { digits := magnitude.mantissa * Nat.pow 2 magnitude.exponent.toNat *
      Nat.pow 5 (-magnitude.exponent).toNat
    exponent := -((-magnitude.exponent).toNat : Int) }

/-- The shortest decimal of a nonzero magnitude: the coarsest of the grids of
one to seventeen digits that has a point which reads back. -/
def shortest (magnitude : Scaled) : Decimal :=
  let scale := magnitude.decimalScale
  ((List.range 17).findSome? fun digits =>
    magnitude.onGrid (scale - (digits + 1 : Nat))).getD magnitude.exact

end Scaled

namespace Decimal

/-- Move trailing zeros of the digits into the exponent, at most `fuel` of
them. -/
def stripZeros : Nat → Decimal → Decimal
  | 0, decimal => decimal
  | fuel + 1, decimal =>
    if decimal.digits % 10 = 0 ∧ decimal.digits ≠ 0 then
      stripZeros fuel
        { digits := decimal.digits / 10, exponent := decimal.exponent + 1 }
    else
      decimal

/-- Digits with a point after the first `before` of them.  A missing part
counts as zero and is written as a single zero digit. -/
def positional (digits : List Char) (before : Int) : String :=
  if before ≤ 0 then
    "0." ++ String.ofList (List.replicate (-before).toNat '0' ++ digits)
  else
    let whole := before.toNat
    if digits.length ≤ whole then
      String.ofList (digits ++ List.replicate (whole - digits.length) '0') ++ ".0"
    else
      String.ofList (digits.take whole) ++ "." ++ String.ofList (digits.drop whole)

/-- Digits with a point after the first one and a power of ten. -/
def scientific (digits : List Char) (exponent : Int) : String :=
  match digits with
  | [] => ""
  | [first] => String.ofList [first] ++ "e" ++ toString exponent
  | first :: others =>
    String.ofList [first] ++ "." ++ String.ofList others ++ "e" ++ toString exponent

/-- Lay a positive decimal out.  The exponent of the leading digit decides the
form: from -4 to 15 positional, otherwise scientific. -/
def layout (decimal : Decimal) : String :=
  let digits := Nat.toDigits 10 decimal.digits
  let leading := decimal.exponent + (digits.length : Int) - 1
  if -4 ≤ leading ∧ leading < 16 then
    positional digits (leading + 1)
  else
    scientific digits leading

end Decimal

/-- The text of a double: the fewest digits that read back as the same double,
always with a fraction digit or an exponent, the sign of zero kept. -/
def Binary64.text (number : Binary64) : String :=
  if number.isNaN then
    "NaN"
  else
    let magnitude := Scaled.ofBinary64 number
    let body :=
      if number.isInfinite then "inf"
      else if magnitude.mantissa = 0 then "0.0"
      else (magnitude.shortest.stripZeros 20).layout
    if number.isNegative then "-" ++ body else body

end SlotCompiler
