import Utterance.Toml.Moment
import Utterance.Toml.Quoted
import Utterance.Toml.Table

/-!
# Documents

`readValue` reads values within a limit of nesting, `readStatements` the statements of a document,
and `read` the table that they make.  A text that is no document has no reading; why does not
matter.
-/

namespace Utterance.Toml

/-- One more than the most keys a dotted key may have, and than the most containers that may be
open at once. -/
def nestingLimit : Nat :=
  80

/-- Whether a character may stand in a key without quotes. -/
def isBare (c : Char) : Bool :=
  ('a' ≤ c && c ≤ 'z') || ('A' ≤ c && c ≤ 'Z') || ('0' ≤ c && c ≤ '9') || c == '_' || c == '-'

/-- Reads one key of a dotted key. -/
def readSimpleKey (text : List Char) : Option (Rest String) :=
  -- a key without bare characters has to be quoted
  match text.takeWhile isBare with
  | [] => (readShortQuoted text).map fun (key, rest) => (String.ofList key, rest)
  | key => some (String.ofList key, text.dropWhile isBare)

/-- Reads a dotted key with at most `most` keys, as its last key and those before it. -/
def readKey : (most : Nat) → List Char → Option (Rest (List String × String))
  | 0, _ => none
  | most + 1, text => do
    -- blanks around the points mean nothing
    let (key, rest) ← readSimpleKey (skipSpaces text)
    match skipSpaces rest with
    | '.' :: rest =>
      let ((path, last), rest) ← readKey most rest
      some ((key :: path, last), rest)
    | rest => some (([], key), rest)

/-- Reads the dotted key and the equals sign of an assignment. -/
def readTarget (text : List Char) : Option (Rest (List String × String)) := do
  let (target, rest) ← readKey (nestingLimit - 1) text
  match rest with
  | '=' :: rest => some (target, skipSpaces rest)
  | _ => none

/-- Reads the items of an array from the one at the start of the text to the closing bracket.
Every item takes a character, so `fuel` need not exceed the length of the text. -/
def readItems (readItem : List Char → Option (Rest Value)) :
    (fuel : Nat) → List Char → Option (Rest (List Value))
  | 0, _ => none
  | fuel + 1, text =>
    -- a comma may stand behind the last item
    match skipGaps false text with
    | ']' :: rest => some ([], rest)
    | text => do
      let (item, rest) ← readItem text
      match skipGaps false rest with
      | ']' :: rest => some ([item], rest)
      | ',' :: rest =>
        let (items, rest) ← readItems readItem fuel rest
        some (item :: items, rest)
      | _ => none

/-- Reads the assignments of a table on one line from the one at the start of the text to the
closing brace. -/
def readAssignments (readItem : List Char → Option (Rest Value)) :
    (fuel : Nat) → Entries → List Char → Option (Rest Entries)
  | 0, _, _ => none
  | fuel + 1, entries, text => do
    let ((path, key), rest) ← readTarget text
    let (item, rest) ← readItem rest
    let entries ← entries.assign path key item
    -- no comma may stand behind the last assignment
    match skipSpaces rest with
    | '}' :: rest => some (entries, rest)
    | ',' :: rest => readAssignments readItem fuel entries rest
    | _ => none

/-- Reads a value that is no container. -/
def readScalar : List Char → Option (Rest Value)
  | 't' :: 'r' :: 'u' :: 'e' :: rest => some (.scalar (.flag true), rest)
  | 'f' :: 'a' :: 'l' :: 's' :: 'e' :: rest => some (.scalar (.flag false), rest)
  | '"' :: rest => do
    let (text, rest) ← readQuoted ('"' :: rest)
    some (.scalar (.text (String.ofList text)), rest)
  | '\'' :: rest => do
    let (text, rest) ← readQuoted ('\'' :: rest)
    some (.scalar (.text (String.ofList text)), rest)
  | text =>
    -- a date is looked for before a number, as both start with digits
    match readMoment text with
    | some rest => some (.moment, rest)
    | none => (readNumber text).map fun (number, rest) => (.scalar number, rest)

/-- Reads a value with at most the given number of containers around a scalar. -/
def readValue : (levels : Nat) → List Char → Option (Rest Value)
  | 0, '[' :: _ => none
  | 0, '{' :: _ => none
  | levels + 1, '[' :: rest => do
    let (items, rest) ← readItems (readValue levels) (rest.length + 1) rest
    some (.array items, rest)
  | levels + 1, '{' :: rest =>
    match skipSpaces rest with
    | '}' :: rest => some (.table [], rest)
    | rest => do
      let (entries, rest) ← readAssignments (readValue levels) (rest.length + 1) [] rest
      some (.table (entryValues entries), rest)
  | _, text => readScalar text

/-- Reads one statement and the rest of its line. -/
def readStatement : List Char → Option (Rest Statement)
  -- two brackets open an element of an array, one opens a table
  | '[' :: '[' :: rest => do
    let ((path, key), rest) ← readKey (nestingLimit - 1) rest
    match rest with
    | ']' :: ']' :: rest => some (.openElement path key, ← readLineEnd rest)
    | _ => none
  | '[' :: rest => do
    let ((path, key), rest) ← readKey (nestingLimit - 1) rest
    match rest with
    | ']' :: rest => some (.openTable path key, ← readLineEnd rest)
    | _ => none
  | text => do
    let ((path, key), rest) ← readTarget text
    let (value, rest) ← readValue (nestingLimit - 1) rest
    some (.assign path key value, ← readLineEnd rest)

/-- Reads the statements of a document.  Every line takes a character, so `fuel` need not exceed
the length of the text. -/
def readStatements : (fuel : Nat) → List Char → Option (List Statement)
  | 0, _ => none
  | fuel + 1, text =>
    match skipSpaces text with
    | [] => some []
    | text =>
      -- a line may be empty or a comment
      match readLineEnd text with
      | some rest => readStatements fuel rest
      | none => do
        let (statement, rest) ← readStatement text
        some (statement :: (← readStatements fuel rest))

/-- A text without the byte order mark at its start. -/
def skipMark : List Char → List Char
  | '\ufeff' :: rest => rest
  | text => text

/-- The table that a document holds. -/
def read (document : String) : Option (List (String × Value)) := do
  let text := skipMark document.toList
  assemble (← readStatements (text.length + 1) text)

end Utterance.Toml
