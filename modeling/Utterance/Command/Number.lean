import Utterance.Binary
import Utterance.Toml.Number

/-!
# Numbers on the command line

Decimal numbers in full: digits before or after the point may be missing, but not both.
-/

namespace Utterance.Command

/-- The natural number below a limit that a text stands for, with or without a plus sign. -/
def readNatural (limit : Nat) (text : String) : Option Nat := do
  let digits := match text.toList with
    | '+' :: digits => digits
    | digits => digits
  if digits.isEmpty then none
  let n := Toml.digitsValue 10 (← digits.mapM Toml.digit?)
  if n < limit then some n else none

/-- A number without its sign, with an exponent that has been read. -/
def readSignificand (text : List Char) (exponent : Int) : Option Float32 := do
  let (whole, fraction) := match text.span (· ≠ '.') with
    | (whole, []) => (whole, [])
    | (whole, _ :: fraction) => (whole, fraction)
  if whole.isEmpty && fraction.isEmpty then none
  let digits ← (whole ++ fraction).mapM Toml.digit?
  let place := exponent - fraction.length
  some (Float32.ofScientific (Toml.digitsValue 10 digits) (place < 0) place.natAbs)

/-- The exponent of a number. -/
def readExponent (text : List Char) : Option Int := do
  let (negative, digits) := Toml.readSign text
  if digits.isEmpty then none
  let n := Toml.digitsValue 10 (← digits.mapM Toml.digit?)
  some (if negative then -n else n)

/-- The binary32 value nearest to the number that a text stands for. -/
def readSingle (text : String) : Option Float32 := do
  let (negative, text) := Toml.readSign text.toList
  let size ← match String.ofList (text.map Char.toLower) with
    | "inf" | "infinity" => some Binary.infinity
    | "nan" => some (.ofBits 0x7fc00000)
    | _ =>
      match text.span fun c => c ≠ 'e' ∧ c ≠ 'E' with
      | (significand, []) => readSignificand significand 0
      | (significand, _ :: exponent) => do readSignificand significand (← readExponent exponent)
  some (if negative then -size else size)

end Utterance.Command
