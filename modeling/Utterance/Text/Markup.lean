import Utterance.Text.Blank

/-!
# Markup and scaffolding

Language models leak markdown and prompt scaffolding into what is meant to be spoken.  `sanitize`
removes the known markup and replaces scaffolding by a greeting.
-/

namespace Utterance.Text

/-- A text with the occurrences of `pattern` removed, from left to right and without overlap.  The
first `skip` characters belong to an occurrence that has been found. -/
def eraseFrom (pattern : List Char) : (skip : Nat) → List Char → List Char
  | _, [] => []
  | skip + 1, _ :: rest => eraseFrom pattern skip rest
  | 0, c :: rest =>
    -- the search goes on behind the occurrence, so what joins up is not found
    if pattern.isPrefixOf (c :: rest) then eraseFrom pattern (pattern.length - 1) rest
    else c :: eraseFrom pattern 0 rest

/-- A text with the occurrences of a non-empty pattern removed. -/
def erase (text pattern : List Char) : List Char :=
  eraseFrom pattern 0 text

/-- The markup that is removed, in this order. -/
def markup : List (List Char) :=
  ["## Response".toList, "##".toList, "**".toList]

/-- How prompt scaffolding begins. -/
def scaffolding : List (List Char) :=
  ["The system will".toList, "Conversation".toList]

/-- A text without markup and without blanks at its ends. -/
def stripped (text : List Char) : List Char :=
  trim (markup.foldl erase text)

/-- The text to speak: without markup, or `fallback` when the rest is prompt scaffolding. -/
def sanitize (text fallback : String) : String :=
  let clean := stripped text.toList
  -- the test is made on the text without markup
  if scaffolding.any (·.isPrefixOf clean) then fallback else String.ofList clean

/-- Spoken in place of prompt scaffolding. -/
def greeting : String :=
  "Hello. How can I help you?"

end Utterance.Text
