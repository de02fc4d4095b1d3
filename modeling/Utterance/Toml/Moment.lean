import Utterance.Toml.Number

/-!
# Dates and times

A date, a time, or a date and a time with or without the distance from UTC.  Only whether one is
in order matters, not which one it is.
-/

namespace Utterance.Toml

/-- Reads a number of exactly so many digits. -/
def readFixed (digits : Nat) (text : List Char) : Option (Rest Nat) := do
  if text.length < digits then none
  else some (digitsValue 10 (← (text.take digits).mapM digit?), text.drop digits)

/-- Reads a number of two digits that may not exceed `most`. -/
def readPair (most : Nat) (text : List Char) : Option (List Char) := do
  let (n, rest) ← readFixed 2 text
  if n ≤ most then some rest else none

/-- Reads a given character. -/
def readMark (c : Char) : List Char → Option (List Char)
  | [] => none
  | d :: rest => if c = d then some rest else none

/-- The number of days in a month. -/
def daysIn (year month : Nat) : Nat :=
  match month with
  -- a leap year, but for centuries that 400 does not divide
  | 2 => if year % 4 = 0 ∧ (year % 100 ≠ 0 ∨ year % 400 = 0) then 29 else 28
  | 4 | 6 | 9 | 11 => 30
  | _ => 31

/-- Reads a date. -/
def readDate (text : List Char) : Option (List Char) := do
  let (year, rest) ← readFixed 4 text
  let (month, rest) ← readFixed 2 (← readMark '-' rest)
  let (day, rest) ← readFixed 2 (← readMark '-' rest)
  if 1 ≤ month ∧ month ≤ 12 ∧ 1 ≤ day ∧ day ≤ daysIn year month then some rest else none

/-- Reads a time of day. -/
def readTime (text : List Char) : Option (List Char) := do
  let rest ← readPair 23 text
  let rest ← readPair 59 (← readMark ':' rest)
  let rest ← readPair 60 (← readMark ':' rest)
  match rest with
  | '.' :: c :: rest =>
    -- a point needs a digit behind it
    if (digit? c).isSome then some (rest.dropWhile fun c => (digit? c).isSome) else none
  | rest => some rest

/-- Reads the distance from UTC, if there is one. -/
def readOffset : List Char → Option (List Char)
  | 'Z' :: rest => some rest
  | 'z' :: rest => some rest
  | '+' :: rest | '-' :: rest => do
    let rest ← readPair 23 rest
    readPair 59 (← readMark ':' rest)
  | text => some text

/-- Reads what follows a date: nothing, or a time. -/
def readTimeAfterDate : List Char → Option (List Char)
  | 'T' :: rest | 't' :: rest => do readOffset (← readTime rest)
  | ' ' :: rest =>
    match readTime rest with
    -- the blank may be that in front of a comment
    | none => some (' ' :: rest)
    | some rest => readOffset rest
  | text => some text

/-- Reads a date, a time or both. -/
def readMoment (text : List Char) : Option (List Char) :=
  match readDate text with
  | some rest => readTimeAfterDate rest
  | none => readTime text

end Utterance.Toml
