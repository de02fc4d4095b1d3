import Utterance.Audio.Resample
import Utterance.Audio.Wav.File
import Utterance.Engine.Backend

/-!
# Voices

What the model knows of the speaker whose voice it uses, from a sample of that voice.
-/

namespace Utterance.Engine

/-- What conditions the speech. -/
structure Voice where
  /-- Stands in front of every text. -/
  conditioning : Tensor Float32
  /-- Stands in front of every row of speech tokens. -/
  prompt : List Int
  embeddings : Tensor Float32
  features : Tensor Float32

/-- Why an engine cannot be loaded. -/
inductive LoadFault where
  | speech (fault : SpeechFault)
  /-- The voice would be longer than a buffer can be.  Nothing recovers from this: it ends what is
  loading the engine. -/
  | overflow
deriving DecidableEq, Repr

/-- Part of loading an engine, in the world `σ`. -/
abbrev Loading (σ α : Type) := ExceptT LoadFault (StateM σ) α

/-- An action may be part of loading an engine: its faults become those of speech. -/
instance {σ : Type} :
    MonadLift (ExceptT SpeechFault (StateM σ)) (ExceptT LoadFault (StateM σ)) where
  monadLift act := act.adapt .speech

/-- The samples of a voice at a rate. -/
def voiceSamples (disk : Disk) (path : String) (rate : UInt32) :
    Except LoadFault (List Float32) := do
  -- the file is read first, then the rate is changed, and then the samples are counted
  let clip ← (Audio.Wav.load path disk).mapError .speech
  match Audio.resample clip.samples clip.rate rate with
  | none => .error .overflow
  | some [] => .error (.speech (.audio ("voice reference has no samples: " ++ path)))
  | some samples => .ok samples

/-- The voice in the outputs of the speech encoder. -/
def voiceOf (outputs : Named) : Except SpeechFault Voice := do
  -- outputs go by several names in the graphs that there are
  let output := outputNamed .speechEncoder
  let conditioning ← output ["audio_features", "cond_emb"] outputs
  let prompt ← output ["audio_tokens", "prompt_token"] outputs
  let embeddings ← output ["speaker_embeddings"] outputs
  let features ← output ["speaker_features"] outputs
  -- the prompt is a row of ids, all else are rows of values
  match prompt with
  | .single _ => .error (.synthesis "audio_tokens is not i64")
  | .whole prompt =>
    .ok {
      conditioning := ← extract "audio_features" conditioning
      prompt := prompt.data
      embeddings := ← extract "speaker_embeddings" embeddings
      features := ← extract "speaker_features" features }

/-- The voice that the speech encoder hears in some samples. -/
def hearVoice {ς σ : Type} (r : Backend ς σ) (encoder : ς) (samples : List Float32) :
    Action σ Voice := do
  let audio ← r.build "audio_values" (.single ⟨[1, samples.length], samples⟩)
  voiceOf (← r.call .speechEncoder encoder [("audio_values", audio)])

/-- The voice in a WAV file. -/
def encodeVoice {ς σ : Type} (r : Backend ς σ) (encoder : ς) (disk : Disk) (path : String)
    (rate : UInt32) : Loading σ Voice := do
  hearVoice r encoder (← voiceSamples disk path rate)

end Utterance.Engine
