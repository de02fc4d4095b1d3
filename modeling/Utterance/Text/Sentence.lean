import Utterance.Text.Blank

/-!
# Sentences

A text is cut after each of `. ! , ? ;` that a blank follows.  Pieces are trimmed and empty ones
dropped, so nothing but blanks is lost.
-/

namespace Utterance.Text

/-- Whether a sentence may end with the character. -/
def isBreak (c : Char) : Bool :=
  c == '.' || c == '!' || c == ',' || c == '?' || c == ';'

/-- Whether a text starts with a blank. -/
def startsBlank : List Char → Bool
  | [] => false
  | c :: _ => isBlank c

/-- The text cut after each break that a blank follows. -/
def pieces : List Char → List (List Char)
  | [] => [[]]
  | c :: rest =>
    -- a break stays with the sentence that it ends
    if isBreak c && startsBlank rest then [c] :: pieces rest
    else
      match pieces rest with
      | [] => [[c]]
      | piece :: others => (c :: piece) :: others

/-- The pieces of a text, trimmed, without the empty ones. -/
def chunks (text : List Char) : List (List Char) :=
  ((pieces text).map trim).filter fun piece => !piece.isEmpty

/-- The sentences of a text. -/
def splitSentences (text : String) : List String :=
  (chunks text.toList).map String.ofList

end Utterance.Text
