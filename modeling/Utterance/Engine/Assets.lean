import Utterance.Disk
import Utterance.Engine.Backend
import Utterance.Engine.Settings

/-!
# Model files

The files of the model in a local directory, and the first one that is missing.
-/

namespace Utterance.Engine

/-- What a variant adds to the names of its files. -/
def variantSuffix : String → String
  | "fp16" => "_fp16"
  | "q8" => "_quantized"
  | "quantized" => "_quantized"
  | "q4" => "_q4"
  | "q4f16" => "_q4f16"
  | _ => ""

/-- The file of a graph in the directory of a model. -/
def graphFile (graph variant : String) : String :=
  "onnx/" ++ graph ++ variantSuffix variant ++ ".onnx"

/-- The files of a model. -/
structure Assets where
  tokenizer : String
  speechEncoder : String
  embedTokens : String
  languageModel : String
  conditionalDecoder : String
deriving DecidableEq, Repr

/-- The paths of all files of a model in a directory. -/
def modelFiles (directory variant : String) : List String :=
  ("tokenizer.json" :: [Graph.speechEncoder, .embedTokens, .languageModel, .conditionalDecoder].map
    fun g => graphFile g.name variant).map (joinPath directory)

/-- A file that has to be in a directory. -/
def present (disk : Disk) (directory file : String) : Except SpeechFault String :=
  let path := joinPath directory file
  if disk.isFile path then .ok path else .error (.model ("missing model file: " ++ path))

/-- The files of a model in a directory. -/
def Assets.find (disk : Disk) (directory variant : String) : Except SpeechFault Assets := do
  -- in the order in which they are needed; the first that is missing is reported
  let graph (g : Graph) := present disk directory (graphFile g.name variant)
  .ok {
    tokenizer := ← present disk directory "tokenizer.json"
    speechEncoder := ← graph .speechEncoder
    embedTokens := ← graph .embedTokens
    languageModel := ← graph .languageModel
    conditionalDecoder := ← graph .conditionalDecoder }

/-- The files of the model that is asked for, which must have been downloaded. -/
def Assets.resolve (disk : Disk) (s : Settings) : Except SpeechFault Assets :=
  match s.directory with
  | some directory => Assets.find disk directory s.variant
  -- the network is never reached
  | none => .error (.model ("failed to download tokenizer.json: " ++ s.repository ++
      " cannot be reached"))

end Utterance.Engine
