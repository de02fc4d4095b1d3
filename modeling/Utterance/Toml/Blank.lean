/-!
# Blanks, comments and line ends
-/

namespace Utterance.Toml

/-- What a reader finds at the start of a text, and the rest of the text. -/
abbrev Rest (α : Type) := α × List Char

/-- A text without spaces and tabs at its start. -/
def skipSpaces (text : List Char) : List Char :=
  text.dropWhile fun c => c == ' ' || c == '\t'

/-- Whether a character stands for itself in every text and comment on one line. -/
def isPrintable (c : Char) : Bool :=
  c == '\t' || (0x20 ≤ c.toNat && c.toNat != 0x7f)

/-- A text without the comment at its start. -/
def skipComment : List Char → List Char
  | '#' :: rest => rest.dropWhile isPrintable
  | text => text

/-- Reads a line feed, or a carriage return with a line feed. -/
def readNewline : List Char → Option (List Char)
  | '\n' :: rest => some rest
  | '\r' :: '\n' :: rest => some rest
  | _ => none

/-- Reads up to the end of the line, where only a comment may stand. -/
def readLineEnd (text : List Char) : Option (List Char) :=
  match skipComment (skipSpaces text) with
  | [] => some []
  | text => readNewline text

/-- A text without the blanks, line ends and comments at its start. -/
def skipGaps : (inComment : Bool) → List Char → List Char
  | _, '\n' :: rest => skipGaps false rest
  | _, '\r' :: '\n' :: rest => skipGaps false rest
  | true, c :: rest => if isPrintable c then skipGaps true rest else c :: rest
  | false, '#' :: rest => skipGaps true rest
  | false, ' ' :: rest => skipGaps false rest
  | false, '\t' :: rest => skipGaps false rest
  | _, text => text

end Utterance.Toml
