import Utterance.Text.Markup
import Utterance.Text.Sentence

/-!
# Preparing text

What is spoken for a text, and the chunks that it is spoken in.
-/

namespace Utterance.Text

/-- How text is prepared. -/
structure Settings where
  /-- Whether markup and scaffolding are removed. -/
  sanitize : Bool := true
  /-- Whether every sentence is a chunk of its own. -/
  splitSentences : Bool := true
  /-- The silence after every chunk, in milliseconds. -/
  chunkSilence : UInt32 := 100
  /-- Spoken in place of scaffolding. -/
  greeting : String := Text.greeting
deriving DecidableEq

/-- The text that is spoken. -/
def clean (s : Settings) (text : String) : String :=
  if s.sanitize then sanitize text s.greeting else String.ofList (trim text.toList)

/-- The text that is spoken, and its chunks. -/
def prepare (s : Settings) (text : String) : String × List String :=
  let clean := clean s text
  if s.splitSentences then (clean, splitSentences clean)
  -- a text of blanks only is no empty one, so it is spoken as it is
  else if clean.isEmpty then (clean, [])
  else (clean, [clean])

end Utterance.Text
