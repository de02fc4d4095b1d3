import Utterance.Config.Field
import Utterance.Engine.Settings
import Utterance.Http.Address
import Utterance.Text.Preparation
import Utterance.Toml.Document
import Utterance.Toml.Sections

/-!
# Configurations

All settings of the speaker, and their form as a TOML document with a section for each group.
-/

namespace Utterance

/-- All settings of the speaker. -/
structure Config where
  sampling : Sampling.Settings := {}
  text : Text.Settings := {}
  model : Engine.Settings := {}
  server : Http.Settings := {}
deriving DecidableEq

namespace Config

/-- The fields of the sampling settings. -/
def samplingFields : List (Field Sampling.Settings) :=
  [.of "temperature" .single (·.temperature) fun s x => { s with temperature := x },
   .of "top_k" .size (·.topK) fun s n => { s with topK := n },
   .of "top_p" .single (·.topP) fun s x => { s with topP := x },
   .of "repetition_penalty" .single (·.repetitionPenalty)
     fun s x => { s with repetitionPenalty := x },
   .of "max_steps" .size (·.maxSteps) fun s n => { s with maxSteps := n },
   .of "start_token" .word32 (·.startToken) fun s t => { s with startToken := t },
   .of "stop_token" .word32 (·.stopToken) fun s t => { s with stopToken := t },
   .of "seed" (.optional .word64) (·.seed) fun s seed => { s with seed }]

/-- The fields of the text settings. -/
def textFields : List (Field Text.Settings) :=
  [.of "sanitize" .flag (·.sanitize) fun s b => { s with sanitize := b },
   .of "split_sentences" .flag (·.splitSentences) fun s b => { s with splitSentences := b },
   .of "chunk_silence_ms" .word32 (·.chunkSilence) fun s n => { s with chunkSilence := n },
   .of "fallback_greeting" .text (·.greeting) fun s greeting => { s with greeting }]

/-- The fields of the engine settings. -/
def modelFields : List (Field Engine.Settings) :=
  [.of "repo_id" .text (·.repository) fun s repository => { s with repository },
   .of "variant" .text (·.variant) fun s variant => { s with variant },
   .of "model_dir" (.optional .text) (·.directory) fun s directory => { s with directory },
   .of "voice_reference" (.optional .text) (·.voice) fun s voice => { s with voice },
   .of "intra_threads" .size (·.threads) fun s threads => { s with threads },
   .of "num_layers" .size (·.layers) fun s layers => { s with layers },
   .of "num_kv_heads" .size (·.heads) fun s heads => { s with heads },
   .of "head_dim" .size (·.headSize) fun s headSize => { s with headSize },
   .of "speech_vocab_size" .word32 (·.vocabulary) fun s vocabulary => { s with vocabulary },
   .of "sample_rate" .word32 (·.rate) fun s rate => { s with rate }]

/-- The fields of the server settings. -/
def serverFields : List (Field Http.Settings) :=
  [.of "host" .text (·.host) fun s host => { s with host },
   .of "port" .word16 (·.port) fun s port => { s with port }]

/-- The configuration in a table, with defaults for what is not there. -/
def ofTable (entries : List (String × Toml.Value)) : Option Config := do
  some {
    sampling := ← readSection entries "sampling" samplingFields {}
    text := ← readSection entries "text" textFields {}
    model := ← readSection entries "model" modelFields {}
    server := ← readSection entries "server" serverFields {} }

/-- The configuration in a document. -/
def ofToml (document : String) : Option Config := do
  ofTable (← Toml.read document)

/-- The sections that a configuration is written as. -/
def sections (c : Config) : List (String × List (String × Toml.Scalar)) :=
  [("sampling", writeFields samplingFields c.sampling),
   ("text", writeFields textFields c.text),
   ("model", writeFields modelFields c.model),
   ("server", writeFields serverFields c.server)]

/-- The document for a configuration, if all its numbers can be written. -/
def toToml (c : Config) : Option String :=
  Toml.write c.sections

end Config

end Utterance
