import Utterance.Audio.Wav
import Utterance.Speech.Synthesizer

/-!
# Speech services

What the front ends need of a synthesizer: audio for a text, as a WAV file in Base64.
-/

namespace Utterance.Speech

open Sampling (Overrides)

/-- Something that speaks texts. -/
abbrev Service (σ : Type) := String → Overrides → σ → Except SpeechFault Synthesis × σ

/-- Speech as the front ends send it. -/
structure EncodedSpeech where
  /-- The text as spoken. -/
  text : String
  /-- The WAV file in Base64. -/
  audio : String
  rate : UInt32
deriving DecidableEq, Repr

/-- What a front end answers when the writer of the WAV file breaks off: a request has a task of its
own, which is lost with it.  The number of the task and the words of the writer, which a front end
adds, are left out. -/
def taskLost : SpeechFault :=
  .channel "synthesis task failed: task panicked"

/-- Speaks a text and encodes the audio. -/
def speakEncoded {σ : Type} (service : Service σ) (text : String) (overrides : Overrides)
    (world : σ) : Except SpeechFault EncodedSpeech × σ :=
  let (spoken, world) := service text overrides world
  (do
    let synthesis ← spoken
    match Audio.Wav.encodeBase64 ⟨synthesis.samples, synthesis.rate⟩ with
    | .ok audio => .ok ⟨synthesis.text, audio, synthesis.rate⟩
    -- the fault of the writer is not passed on: the task is lost with it
    | .error _ => .error taskLost, world)

end Utterance.Speech
