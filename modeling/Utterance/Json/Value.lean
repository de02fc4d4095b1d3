import Utterance.Json.Numeral
import Utterance.Json.Quoted

/-!
# JSON values

`readRaw` reads the spelling of a value and stops at a given depth of nesting; `Raw.value?` then
asks that its texts and numbers have values.  `readMembers` and `readItems` run over a container
and leave to a step function what to do with each of its entries, so that a reader of a known shape
can look at them as they come.
-/

namespace Utterance.Json

/-- The spelling of a value. -/
inductive Raw where
  | null
  | bool (b : Bool)
  | number (n : Numeral)
  | text (pieces : List Piece)
  | array (items : List Raw)
  | object (members : List (List Piece × Raw))

/-- A value. -/
inductive Value where
  | null
  | bool (b : Bool)
  | number (n : Number)
  | text (s : String)
  | array (items : List Value)
  | object (members : List (String × Value))

mutual

/-- The value of a spelling, if all of its texts and numbers have one. -/
def Raw.value? : Raw → Option Value
  | .null => some .null
  | .bool b => some (.bool b)
  | .number n => n.value.map .number
  | .text pieces => (joinPieces pieces).map fun chars => .text (String.ofList chars)
  | .array items => (Raw.values? items).map .array
  | .object members => (Raw.memberValues? members).map .object

/-- The values of some spellings. -/
def Raw.values? : List Raw → Option (List Value)
  | [] => some []
  | item :: rest => do return (← Raw.value? item) :: (← Raw.values? rest)

/-- The values of some members. -/
def Raw.memberValues? : List (List Piece × Raw) → Option (List (String × Value))
  | [] => some []
  | (key, item) :: rest => do
    return (String.ofList (← joinPieces key), ← Raw.value? item) :: (← Raw.memberValues? rest)

end

/-- Runs `step` over the items of an array from the one at the start of the text to the closing
bracket.  Every item takes a character, so `fuel` need not exceed the length of the text. -/
def readMoreItems {σ : Type} (step : σ → List Char → Except Fault (Rest σ)) :
    (fuel : Nat) → σ → List Char → Except Fault (Rest σ)
  | 0, _, _ => .error .malformed
  | fuel + 1, state, text => do
    -- an item is read before the text tells whether it was the last
    let (state, text) ← step state (skipBlanks text)
    match skipBlanks text with
    | ',' :: rest => readMoreItems step fuel state rest
    | ']' :: rest => .ok (state, rest)
    | _ => .error .malformed

/-- Runs `step` over the items of an array after its opening bracket. -/
def readItems {σ : Type} (step : σ → List Char → Except Fault (Rest σ)) (state : σ)
    (text : List Char) : Except Fault (Rest σ) :=
  match skipBlanks text with
  | ']' :: rest => .ok (state, rest)
  | text => readMoreItems step (text.length + 1) state text

/-- Reads the spelling of a key and the colon after it. -/
def readKey (text : List Char) : Except Fault (Rest (List Piece)) := do
  match skipBlanks text with
  | '"' :: rest =>
    -- a key is a text, and has a colon behind it
    let (key, rest) ← readPieces rest
    match skipBlanks rest with
    | ':' :: rest => .ok (key, rest)
    | _ => .error .malformed
  | _ => .error .malformed

/-- Tells `step` the text of a key, which must be one. -/
def withKey {σ : Type} (step : σ → String → List Char → Except Fault (Rest σ)) (state : σ)
    (key : List Piece) (text : List Char) : Except Fault (Rest σ) :=
  -- a key with half of a pair is no text
  match joinPieces key with
  | none => .error .malformed
  | some chars => step state (String.ofList chars) text

/-- Runs `step` over the members of an object from the one at the start of the text to the closing
brace, and `finish` before the brace is passed. -/
def readMoreMembers {σ τ : Type} (step : σ → List Piece → List Char → Except Fault (Rest σ))
    (finish : σ → Except Fault τ) : (fuel : Nat) → σ → List Char → Except Fault (Rest τ)
  | 0, _, _ => .error .malformed
  | fuel + 1, state, text => do
    let (key, text) ← readKey text
    let (state, text) ← step state key (skipBlanks text)
    match skipBlanks text with
    | ',' :: rest => readMoreMembers step finish fuel state rest
    | '}' :: rest => .ok (← finish state, rest)
    | _ => .error .malformed

/-- Runs `step` over the members of an object after its opening brace, and `finish` at the end. -/
def readMembers {σ τ : Type} (step : σ → List Piece → List Char → Except Fault (Rest σ))
    (finish : σ → Except Fault τ) (state : σ) (text : List Char) : Except Fault (Rest τ) :=
  match skipBlanks text with
  | '}' :: rest => do .ok (← finish state, rest)
  | text => readMoreMembers step finish (text.length + 1) state text

/-- Reads the spelling of a value that is no container.  A container is a mismatch. -/
def readScalar : List Char → Except Fault (Rest Raw)
  -- a literal is decided by its first letter
  | 'n' :: rest => do .ok (.null, ← expect "ull".toList rest)
  | 't' :: rest => do .ok (.bool true, ← expect "rue".toList rest)
  | 'f' :: rest => do .ok (.bool false, ← expect "alse".toList rest)
  | '"' :: rest => do
    let (pieces, rest) ← readPieces rest
    .ok (.text pieces, rest)
  | '[' :: _ => .error .mismatch
  | '{' :: _ => .error .mismatch
  | text => do
    let (n, rest) ← readNumeral text
    .ok (.number n, rest)

/-- Reads the spelling of a value with at most the given number of containers around a scalar. -/
def readRaw : (levels : Nat) → List Char → Except Fault (Rest Raw)
  | 0, '[' :: _ => .error .malformed
  | 0, '{' :: _ => .error .malformed
  | levels + 1, '[' :: rest => do
    -- items are put in front of each other, and turned around at the end
    let (items, rest) ← readItems (fun items text => do
      let (item, rest) ← readRaw levels text
      .ok (item :: items, rest)) [] rest
    .ok (.array items.reverse, rest)
  | levels + 1, '{' :: rest => do
    let (members, rest) ← readMembers (fun members key text => do
      let (item, rest) ← readRaw levels text
      .ok ((key, item) :: members, rest)) .ok [] rest
    .ok (.object members.reverse, rest)
  | _, text => readScalar text

/-- The value of what has been read. -/
def valued (reading : Except Fault (Rest Raw)) : Except Fault (Rest Value) := do
  let (raw, rest) ← reading
  -- half of a pair, or a number out of range, is found only now
  match raw.value? with
  | none => .error .malformed
  | some value => .ok (value, rest)

/-- How many containers may be open at once. -/
def nestingLimit : Nat :=
  127

/-- Reads a member or item of the outermost container. -/
def readInner (text : List Char) : Except Fault (Rest Value) :=
  valued (readRaw (nestingLimit - 1) text)

/-- Passes over a value of any depth, whether or not its texts and numbers have values. -/
def skipValue (text : List Char) : Except Fault (List Char) := do
  -- no depth is too deep for a text of this length
  let (_, rest) ← readRaw text.length text
  .ok rest

/-- Reads one value that is the whole text but for blanks. -/
def readWith {α : Type} (read : List Char → Except Fault (Rest α)) (text : String) :
    Except Fault α := do
  let (value, rest) ← read (skipBlanks text.toList)
  if (skipBlanks rest).isEmpty then .ok value else .error .malformed

/-- The fault of a value that is no container where one is wanted: its own, if its spelling is
broken, and otherwise a mismatch. -/
def scalarFault (text : List Char) : Fault :=
  match valued (readScalar text) with
  | .error fault => fault
  | .ok _ => .mismatch

end Utterance.Json
