import Utterance.Engine.Assets
import Utterance.Engine.Voice

/-!
# Loaded engines

`Engine.load` finds the files of a model, loads them in a fixed order and encodes the voice.  The
first fault ends it.
-/

namespace Utterance

open Engine (AnyTensor Backend Settings Tokenizer Voice Loading LoadFault Assets encodeVoice)

/-- A model that has been loaded, with sessions `ς`. -/
structure Engine (ς : Type) where
  tokenizer : Tokenizer
  embedTokens : ς
  languageModel : ς
  conditionalDecoder : ς
  voice : Voice
  /-- The layers, heads and head size of the language model. -/
  layers : Nat
  heads : Nat
  headSize : Nat
  /-- Tokens from this one on are no sounds. -/
  vocabulary : UInt32
  rate : UInt32

/-- Loads the model that the settings ask for. -/
def Engine.load {ς σ : Type} (r : Backend ς σ) (disk : Disk) (s : Settings) :
    Loading σ (Engine ς) := do
  let assets ← (Assets.resolve disk s).mapError LoadFault.speech
  match s.voice with
  | none => throw (.speech (.configuration "model.voice_reference is required"))
  | some voicePath =>
    -- no threads at all means one
    let threads := max s.threads 1
    let speechEncoder ← r.openGraph assets.speechEncoder threads
    let embedTokens ← r.openGraph assets.embedTokens threads
    let languageModel ← r.openGraph assets.languageModel threads
    let conditionalDecoder ← r.openGraph assets.conditionalDecoder threads
    let tokenizer ← r.openTokenizer assets.tokenizer
    -- the encoder is needed for this only, and not kept
    let voice ← encodeVoice r speechEncoder disk voicePath s.rate
    return {
      tokenizer, embedTokens, languageModel, conditionalDecoder, voice
      layers := s.layers, heads := s.heads, headSize := s.headSize
      vocabulary := s.vocabulary, rate := s.rate }

end Utterance
