/-!
# Engine settings
-/

namespace Utterance.Engine

/-- Where the model's files are and how they are used. -/
structure Settings where
  /-- Where the files can be downloaded. -/
  repository : String := "onnx-community/chatterbox-ONNX"
  /-- The precision of the weights, which is part of the file names. -/
  variant : String := "fp32"
  /-- The directory that holds the files, if they are not to be downloaded. -/
  directory : Option String := none
  /-- The WAV file whose voice is used. -/
  voice : Option String := none
  /-- The threads of each session. -/
  threads : Nat := 1
  /-- The layers of the language model, each of which has a cache. -/
  layers : Nat := 30
  /-- The heads of each layer. -/
  heads : Nat := 16
  /-- The size of each head. -/
  headSize : Nat := 64
  /-- Tokens from this one on are no sounds. -/
  vocabulary : UInt32 := 6561
  /-- The sample rate of the audio. -/
  rate : UInt32 := 24000
deriving DecidableEq

end Utterance.Engine
