/-!
# Faults in JSON texts
-/

namespace Utterance.Json

/-- What is wrong with a JSON text. -/
inductive Fault where
  /-- It is not JSON. -/
  | malformed
  /-- It is JSON of another shape than the one asked for. -/
  | mismatch
deriving DecidableEq, Repr

/-- What a reader finds at the start of a text, and the rest of the text. -/
abbrev Rest (α : Type) := α × List Char

/-- A text without blanks at its start. -/
def skipBlanks (text : List Char) : List Char :=
  text.dropWhile fun c => c == ' ' || c == '\t' || c == '\n' || c == '\r'

/-- Reads the given characters. -/
def expect (wanted text : List Char) : Except Fault (List Char) :=
  if wanted.isPrefixOf text then .ok (text.drop wanted.length) else .error .malformed

end Utterance.Json
