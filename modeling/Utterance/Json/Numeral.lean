import Utterance.Binary
import Utterance.Json.Fault

/-!
# Numbers

A number is read as it is spelled and then valued.  Whole numbers that fit 64 bits stay exact.  Any
other has as many of its digits as fit 64 bits scaled by a power of ten in binary64, and none may
be out of range.
-/

namespace Utterance.Json

/-- The spelling of a number. -/
structure Numeral where
  negative : Bool
  whole : List Nat
  /-- The digits after the point, empty without one. -/
  fraction : List Nat
  /-- The exponent, with whether it is negative. -/
  exponent : Option (Bool × List Nat)
deriving DecidableEq, Repr

/-- The value of a number. -/
inductive Number where
  /-- A number from `-2 ^ 63` to `2 ^ 64 - 1`, spelled without point or exponent. -/
  | whole (n : Int)
  | real (x : Float)

/-- The digits at the start of a text. -/
def readDigits : List Char → List Nat × List Char
  | [] => ([], [])
  | c :: rest =>
    if '0' ≤ c ∧ c ≤ '9' then
      let (digits, rest) := readDigits rest
      ((c.toNat - 48) :: digits, rest)
    else
      ([], c :: rest)

/-- The digits at the start of a text, of which there must be one. -/
def readSomeDigits (text : List Char) : Except Fault (Rest (List Nat)) :=
  match readDigits text with
  | ([], _) => .error .malformed
  | reading => .ok reading

/-- The part before the point, without superfluous zeros. -/
def readWhole (text : List Char) : Except Fault (Rest (List Nat)) := do
  let (digits, rest) ← readSomeDigits text
  -- a zero in front stands alone
  if digits.head? = some 0 ∧ 1 < digits.length then .error .malformed
  else .ok (digits, rest)

/-- The part after the whole digits that starts with a point. -/
def readFraction : List Char → Except Fault (Rest (List Nat))
  | '.' :: rest => readSomeDigits rest
  | text => .ok ([], text)

/-- The exponent. -/
def readExponent : List Char → Except Fault (Rest (Option (Bool × List Nat)))
  | c :: rest =>
    if c = 'e' ∨ c = 'E' then
      let (negative, rest) :=
        match rest with
        | '-' :: rest => (true, rest)
        | '+' :: rest => (false, rest)
        | rest => (false, rest)
      (readSomeDigits rest).map fun (digits, rest) => (some (negative, digits), rest)
    else .ok (none, c :: rest)
  | [] => .ok (none, [])

/-- Reads the spelling of a number. -/
def readNumeral (text : List Char) : Except Fault (Rest Numeral) := do
  let (negative, text) :=
    match text with
    | '-' :: rest => (true, rest)
    | text => (false, text)
  let (whole, text) ← readWhole text
  let (fraction, text) ← readFraction text
  let (exponent, text) ← readExponent text
  .ok ({ negative, whole, fraction, exponent }, text)

/-- The number that continues `n` by as many digits as keep it within 64 bits, and the digits
left over. -/
def absorb (n : Nat) : List Nat → Nat × List Nat
  | [] => (n, [])
  | digit :: rest =>
    if n * 10 + digit < UInt64.size then absorb (n * 10 + digit) rest else (n, digit :: rest)

/-- The number with the given digits. -/
def digitsValue (digits : List Nat) : Nat :=
  digits.foldl (fun n digit => n * 10 + digit) 0

/-- A value scaled by a power of ten, in steps that have a power of ten in binary64.  None if it
is out of range. -/
def scaled : (steps : Nat) → Float → Int → Option Float
  | 0, x, _ => some x
  | steps + 1, x, exponent =>
    -- this power of ten is the largest that binary64 has
    if exponent.natAbs ≤ 308 then
      let power := Float.ofScientific 1 false exponent.natAbs
      if 0 ≤ exponent then
        if (x * power).isInf then none else some (x * power)
      else
        some (x / power)
    -- a zero stays zero, however large the exponent is
    else if x == 0 then some x
    else if 0 ≤ exponent then none
    else scaled steps (x / Float.ofScientific 1 false 308) (exponent + 308)

/-- The largest exponent that is told apart from larger ones. -/
def exponentLimit : Nat :=
  0x7fffffff

/-- The value of a number that is not a whole one, without its sign. -/
def Numeral.magnitude (n : Numeral) : Option Float :=
  -- digits beyond 64 bits only move the point
  let (digits, dropped) := absorb 0 n.whole
  let (digits, beyond) := absorb digits n.fraction
  let place : Int := dropped.length - (n.fraction.length - beyond.length : Nat)
  let x := digits.toUInt64.toFloat
  match n.exponent with
  | none => scaled 4 x place
  | some (negative, exponent) =>
    let exponent := digitsValue exponent
    -- an exponent this large leaves nothing but zero or what is out of range
    if exponentLimit < exponent then
      if digits = 0 ∨ negative then some 0 else none
    else
      scaled 4 x (if negative then place - exponent else place + exponent)

/-- The value of a number, if it is in range. -/
def Numeral.value (n : Numeral) : Option Number :=
  let whole := digitsValue n.whole
  let isWhole := n.fraction.isEmpty && n.exponent.isNone
  if isWhole && !n.negative && whole < UInt64.size then some (.whole whole)
  -- the negative zero is not whole, so that its sign is kept
  else if isWhole && n.negative && 0 < whole && Int64.minValue.toInt ≤ -(whole : Int) then
    some (.whole (-whole))
  else n.magnitude.map fun x => .real (if n.negative then -x else x)

/-- The number as a binary32 value. -/
def Number.single : Number → Float32
  | .whole n => Float32.ofInt n
  | .real x => Binary.narrow x

end Utterance.Json
