/-!
# Shortest decimals

A binary value stands for the interval of reals that round to it.  `shortest` chooses the decimal
with the fewest digits in that interval and, among those, the one nearest to the value: for one,
two, … digits it tests the two neighbours of the value on that decimal grid, in exact arithmetic.
`Layout.single` and `Layout.double` write the chosen digits positionally, never with an exponent.
-/

namespace Utterance

open Float.Model (Format UnpackedFloat)

/-- The number `digits * 10 ^ exponent`. -/
structure Decimal where
  digits : Nat
  exponent : Int
deriving DecidableEq, Repr

namespace Decimal

/-- How many decimal digits a number has. -/
def width (n : Nat) : Nat :=
  (Nat.toDigits 10 n).length

/-- Trailing zeros of the digits moved into the exponent. -/
def strip (d : Decimal) : Decimal :=
  if d.digits = 0 then d
  else if d.digits % 10 = 0 then strip ⟨d.digits / 10, d.exponent + 1⟩
  else d
termination_by d.digits
decreasing_by exact Nat.div_lt_self (by omega) (by decide)

/-- The reals that round to a value, as `low * 2 ^ exponent` to `high * 2 ^ exponent` around
`value * 2 ^ exponent`. -/
structure Interval where
  low : Nat
  value : Nat
  high : Nat
  exponent : Int
  /-- Whether the ends round to the value as well. -/
  closed : Bool

/-- The reals that round to `significand * 2 ^ exponent`, a value of `format`.  They reach half
way to both neighbours, and the lower neighbour of a power of two is only half as far away. -/
def Interval.around (format : Format) (significand : Nat) (exponent : Int) : Interval where
  low :=
    -- below a power of two the steps are half as long
    if significand = 1 <<< format.mantissaBitsWithoutImplicit ∧ format.minExponent < exponent then
      4 * significand - 1
    else
      4 * significand - 2
  value := 4 * significand
  high := 4 * significand + 2
  exponent := exponent - 2
  closed := significand % 2 == 0

/-- Whether `count * 10 ^ place` lies in the interval. -/
def Interval.holds (i : Interval) (count : Nat) (place : Int) : Bool :=
  -- both sides times these factors are whole numbers
  let up := Nat.pow 10 (-place).toNat <<< i.exponent.toNat
  let down := Nat.pow 10 place.toNat <<< (-i.exponent).toNat
  if i.closed then
    i.low * up ≤ count * down && count * down ≤ i.high * up
  else
    i.low * up < count * down && count * down < i.high * up

/-- The multiple of `10 ^ place` in the interval that is nearest to the value, the upper one when
two are equally near. -/
def Interval.nearest? (i : Interval) (place : Int) : Option Decimal :=
  let up := Nat.pow 10 (-place).toNat <<< i.exponent.toNat
  let down := Nat.pow 10 place.toNat <<< (-i.exponent).toNat
  -- only the multiples on both sides of the value can be the nearest
  let below := i.value * up / down
  match i.holds below place, i.holds (below + 1) place with
  | true, true =>
    if 2 * (i.value * up) < (2 * below + 1) * down then
      some ⟨below, place⟩
    else
      some ⟨below + 1, place⟩
  | true, false => some ⟨below, place⟩
  | false, true => some ⟨below + 1, place⟩
  | false, false => none

/-- The least `k` with `value < 10 ^ k`. -/
def Interval.magnitude (i : Interval) : Int :=
  let numerator := i.value <<< i.exponent.toNat
  let denominator := 1 <<< (-i.exponent).toNat
  if denominator ≤ numerator then width (numerator / denominator)
  else 1 - (width ((denominator - 1) / numerator) : Int)

/-- The digits of `significand * 2 ^ exponent` in full. -/
def exact (significand : Nat) (exponent : Int) : Decimal :=
  -- a fifth of a half is a tenth, so no digit is lost
  if 0 ≤ exponent then ⟨significand <<< exponent.toNat, 0⟩
  else ⟨significand * Nat.pow 5 (-exponent).toNat, exponent⟩

/-- The shortest decimal that rounds to `significand * 2 ^ exponent`, a value of `format`. -/
def shortest (format : Format) (significand : Nat) (exponent : Int) : Decimal :=
  let interval := Interval.around format significand exponent
  let magnitude := interval.magnitude
  -- seventeen digits are enough for both formats
  let found := (List.range 17).findSome? fun (n : Nat) =>
    interval.nearest? (magnitude - (n + 1))
  (found.getD (exact significand exponent)).strip

/-- The digits in positional notation. -/
def positional (d : Decimal) : String :=
  let digits := Nat.toDigits 10 d.digits
  if 0 ≤ d.exponent then
    String.ofList (digits ++ List.replicate d.exponent.toNat '0')
  else
    let places := (-d.exponent).toNat
    -- with a zero in front of the point where there is no digit
    let padded := List.replicate (places + 1 - digits.length) '0' ++ digits
    let whole := padded.length - places
    String.ofList (padded.take whole ++ '.' :: padded.drop whole)

/-- The decisions about number text that are not its digits. -/
structure Layout where
  notANumber : String
  infinity : String
  /-- Written after a number without a fraction. -/
  wholeSuffix : String

/-- The text of a value of `format`. -/
def Layout.write (layout : Layout) (format : Format) : UnpackedFloat → String
  | .notANumber => layout.notANumber
  | .infinity .positive => layout.infinity
  | .infinity .negative => "-" ++ layout.infinity
  | .zero .positive => "0" ++ layout.wholeSuffix
  | .zero .negative => "-0" ++ layout.wholeSuffix
  | .finite sign significand exponent _ =>
    let decimal := shortest format significand exponent
    let minus := match sign with
      | .positive => ""
      | .negative => "-"
    -- what has places has a point already
    let suffix := if 0 ≤ decimal.exponent then layout.wholeSuffix else ""
    minus ++ decimal.positional ++ suffix

/-- Numbers in messages: whole numbers carry no fraction. -/
def Layout.message : Layout := ⟨"NaN", "inf", ""⟩

/-- The text of a binary32 value. -/
def Layout.single (layout : Layout) (x : Float32) : String :=
  layout.write .binary32 x.toModel.unpack

/-- The text of a binary64 value. -/
def Layout.double (layout : Layout) (x : Float) : String :=
  layout.write .binary64 x.toModel.unpack

end Decimal

end Utterance
