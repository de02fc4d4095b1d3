import Utterance.Decode.Oracle
import Utterance.Fault

/-!
# Speech models

A speech model is an oracle that can also start a context from text and turn tokens into audio.
-/

namespace Utterance.Speech

/-- A model with contexts `κ` that acts on the world `σ`. -/
structure Model (κ σ : Type) extends Decode.Oracle κ σ where
  /-- The sample rate of its audio. -/
  rate : UInt32
  /-- A context for a text that ends with the given start token. -/
  prefill : String → Token → σ → Except SpeechFault κ × σ
  /-- The audio for some tokens. -/
  vocode : List Token → σ → Except SpeechFault (List Float32) × σ

end Utterance.Speech
