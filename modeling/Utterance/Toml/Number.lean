import Utterance.Text.Hexadecimal
import Utterance.Toml.Blank
import Utterance.Toml.Value

/-!
# Numbers

A number is real when it has a fraction or an exponent, and whole otherwise.  Digits may be
separated by single underscores.  Reals are rounded once, to the nearest binary64 value.
-/

namespace Utterance.Toml

/-- The value of a decimal digit. -/
def digit? (c : Char) : Option Nat :=
  if '0' ≤ c ∧ c ≤ '9' then some (c.toNat - 48) else none

/-- The digits, in any base, at the start of a text that continues a number. -/
def readMoreDigits (digit? : Char → Option Nat) : List Char → Option (Rest (List Nat))
  | [] => some ([], [])
  | '_' :: c :: rest => do
    -- an underscore stands between two digits
    let digit ← digit? c
    let (digits, rest) ← readMoreDigits digit? rest
    some (digit :: digits, rest)
  | c :: rest =>
    match digit? c with
    | none => some ([], c :: rest)
    | some digit => do
      let (digits, rest) ← readMoreDigits digit? rest
      some (digit :: digits, rest)

/-- The digits at the start of a text, of which there must be one. -/
def readDigits (digit? : Char → Option Nat) : List Char → Option (Rest (List Nat))
  | [] => none
  | c :: rest => do
    let digit ← digit? c
    let (digits, rest) ← readMoreDigits digit? rest
    some (digit :: digits, rest)

/-- The number with the given digits. -/
def digitsValue (base : Nat) (digits : List Nat) : Nat :=
  digits.foldl (fun n digit => n * base + digit) 0

/-- Reads whether a number is negative. -/
def readSign : List Char → Rest Bool
  | '-' :: rest => (true, rest)
  | '+' :: rest => (false, rest)
  | text => (false, text)

/-- Reads the digits of a whole number in base ten, which has no superfluous zeros. -/
def readPlain : List Char → Option (Rest (List Nat))
  | '0' :: rest => some ([0], rest)
  | text => readDigits digit? text

/-- A number within 64 bits, of which one is for the sign. -/
def wholeInRange (n : Int) : Option Scalar :=
  -- the one limit for all bases
  if Int64.minValue.toInt ≤ n ∧ n ≤ Int64.maxValue.toInt then some (.whole n) else none

/-- Reads the digits of a whole number after the sign that names its base. -/
def readBased (base : Nat) (text : List Char) : Option (Rest Scalar) := do
  -- the digits of a base are hexadecimal digits below it
  let (digits, rest) ← readDigits (fun c => (Text.hexDigit? c).filter (· < base)) text
  some (← wholeInRange (digitsValue base digits), rest)

/-- Reads a whole number. -/
def readWhole : List Char → Option (Rest Scalar)
  | '0' :: 'x' :: rest => readBased 16 rest
  | '0' :: 'o' :: rest => readBased 8 rest
  | '0' :: 'b' :: rest => readBased 2 rest
  | text => do
    let (negative, text) := readSign text
    let (digits, rest) ← readPlain text
    let n := digitsValue 10 digits
    some (← wholeInRange (if negative then -n else n), rest)

/-- Reads the exponent of a real number. -/
def readExponent (text : List Char) : Option (Rest Int) := do
  let (negative, text) := readSign text
  let (digits, rest) ← readDigits digit? text
  let n := digitsValue 10 digits
  some (if negative then -n else n, rest)

/-- Reads what makes a number real: its fraction and its exponent. -/
def readPlaces : List Char → Option (Rest (List Nat × Int))
  | '.' :: rest => do
    let (fraction, rest) ← readDigits digit? rest
    match rest with
    | 'e' :: rest | 'E' :: rest =>
      let (exponent, rest) ← readExponent rest
      some ((fraction, exponent), rest)
    | rest => some ((fraction, 0), rest)
  | 'e' :: rest | 'E' :: rest => do
    let (exponent, rest) ← readExponent rest
    some (([], exponent), rest)
  | _ => none

/-- The binary64 value nearest to `n * 10 ^ exponent`. -/
def realOf (n : Nat) (exponent : Int) : Float :=
  Float.ofScientific n (exponent < 0) exponent.natAbs

/-- Reads a real number.  One above every finite value must be written as `inf`. -/
def readReal (text : List Char) : Option (Rest Scalar) := do
  let (negative, text) := readSign text
  let signed (x : Float) : Float := if negative then -x else x
  match text with
  | 'i' :: 'n' :: 'f' :: rest => some (.real (signed (.ofBits 0x7ff0000000000000)), rest)
  | 'n' :: 'a' :: 'n' :: rest => some (.real (.ofBits 0x7ff8000000000000), rest)
  | text =>
    let (whole, text) ← readPlain text
    let ((fraction, exponent), rest) ← readPlaces text
    -- the point is moved behind the last digit, and the exponent made up for it
    let x := realOf (digitsValue 10 (whole ++ fraction)) (exponent - fraction.length)
    if x.isInf && !negative then none else some (.real (signed x), rest)

/-- Reads a number. -/
def readNumber (text : List Char) : Option (Rest Scalar) :=
  -- a number with a point or an exponent is real
  match readReal text with
  | some reading => some reading
  | none => readWhole text

end Utterance.Toml
