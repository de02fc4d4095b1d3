import Utterance.Token

/-!
# Oracles

A decode asks an oracle for the scores of the next token and tells it which token was taken.  The
oracle may change the world `σ` with every call and may fail with a message; what it has been told
lives in a context `κ` that the decode passes on.
-/

namespace Utterance.Decode

/-- The source of next-token scores. -/
structure Oracle (κ σ : Type) where
  /-- The scores for the position after the context. -/
  predict : κ → σ → Except String Scores × σ
  /-- The context extended by a token. -/
  advance : κ → Token → σ → Except String κ × σ

end Utterance.Decode
