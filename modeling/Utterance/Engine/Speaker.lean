import Utterance.Engine.LanguageModel
import Utterance.Speech.Model

/-!
# Engines as speech models
-/

namespace Utterance.Engine

variable {ς σ : Type}

/-- The token of silence. -/
def silenceToken : Int :=
  4299

/-- The tokens that are vocoded: the prompt of the voice, those that are sounds, and some silence to
fade out. -/
def spokenTokens (e : Engine ς) (tokens : List Token) : List Int :=
  -- ids from the vocabulary on are no sounds
  e.voice.prompt ++ (tokens.filter (· < e.vocabulary)).map (fun t => (t.toNat : Int)) ++
    List.replicate 3 silenceToken

/-- The audio for some tokens. -/
def vocode (r : Backend ς σ) (e : Engine ς) (tokens : List Token) :
    Action σ (List Float32) := do
  let speech ← r.build "speech_tokens" (.row (spokenTokens e tokens))
  let embeddings ← r.build "tensor" (.single e.voice.embeddings)
  let features ← r.build "tensor" (.single e.voice.features)
  let outputs ← r.call .conditionalDecoder e.conditionalDecoder
    [("speech_tokens", speech), ("speaker_embeddings", embeddings), ("speaker_features", features)]
  waveform (← extract "waveform" (← firstOutput .conditionalDecoder outputs))

/-- The engine as a speech model. -/
def toModel (r : Backend ς σ) (e : Engine ς) : Speech.Model Context σ where
  rate := e.rate
  -- the scores have come with the context, so nothing runs here
  predict context world := (.ok context.scores, world)
  advance context token world :=
    let (outcome, world) := (advance r e context token).run.run world
    (outcome.mapError (·.message), world)
  prefill text start world := (prefill r e text start).run.run world
  vocode tokens world := (vocode r e tokens).run.run world

end Utterance.Engine
