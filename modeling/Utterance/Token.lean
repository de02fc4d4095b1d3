/-!
# Speech tokens and scores
-/

namespace Utterance

/-- The id of a speech token. -/
abbrev Token := UInt32

/-- One score per token id, the score of token `i` at position `i`. -/
abbrev Scores := List Float32

end Utterance
