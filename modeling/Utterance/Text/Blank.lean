/-!
# Blanks

The characters with the White_Space property, and texts without them at their ends.
-/

namespace Utterance.Text

/-- Whether a character has the White_Space property. -/
def isBlank (c : Char) : Bool :=
  -- tab to carriage return, the spaces, and the separators of lines and paragraphs
  let n := c.toNat
  (9 ≤ n && n ≤ 13) || n == 0x20 || n == 0x85 || n == 0xa0 || n == 0x1680 ||
    (0x2000 ≤ n && n ≤ 0x200a) || n == 0x2028 || n == 0x2029 || n == 0x202f || n == 0x205f ||
    n == 0x3000

/-- A text without blanks at its start. -/
def trimStart (text : List Char) : List Char :=
  text.dropWhile isBlank

/-- A text without blanks at its end. -/
def trimEnd (text : List Char) : List Char :=
  (text.reverse.dropWhile isBlank).reverse

/-- A text without blanks at its ends. -/
def trim (text : List Char) : List Char :=
  trimEnd (trimStart text)

/-- The maximal runs of characters that are not blank. -/
def words (text : List Char) : List (List Char) :=
  -- runs are either all blank or not at all
  (text.splitBy fun a b => isBlank a == isBlank b).filter fun run => !run.any isBlank

/-- The words of a text with one space between them. -/
def singleLine (text : String) : String :=
  String.ofList ([' '].intercalate (words text.toList))

end Utterance.Text
