import Utterance.Audio.Silence
import Utterance.Decode.Decoder
import Utterance.Sampling.Overrides
import Utterance.Speech.Model
import Utterance.Text.Preparation

/-!
# Synthesis

A request is prepared, and its chunks are spoken one after the other: each one is prefilled,
decoded and vocoded, and followed by a gap of silence.  The first fault ends the request.
-/

namespace Utterance.Speech

open Decode (Decoder Finish)
open Sampling (Overrides)

/-- What became of one chunk. -/
structure ChunkReport where
  text : String
  /-- How many tokens were decoded. -/
  tokens : Nat
  finish : Finish
deriving DecidableEq, Repr

/-- The audio for a request. -/
structure Synthesis where
  /-- The text as spoken. -/
  text : String
  samples : List Float32
  rate : UInt32
  chunks : List ChunkReport

/-- The length of the audio in seconds. -/
def Synthesis.duration (s : Synthesis) : Float32 :=
  if s.rate = 0 then 0 else s.samples.length.toUInt64.toFloat32 / s.rate.toFloat32

/-- A model with the settings it is used with.  The sampling settings are in range. -/
structure Synthesizer (κ σ : Type) where
  exp : Float32 → Float32
  model : Model κ σ
  sampling : Sampling.Settings
  valid : sampling.Valid
  text : Text.Settings
  /-- Whether speech has been cancelled. -/
  cancelled : σ → Bool
  /-- A source of randomness for decodes without a seed. -/
  entropy : σ → Random.Generator × σ

namespace Synthesizer

variable {κ σ : Type}

/-- A synthesizer, or what is wrong with the sampling settings. -/
def new (exp : Float32 → Float32) (model : Model κ σ) (sampling : Sampling.Settings)
    (text : Text.Settings) (cancelled : σ → Bool) (entropy : σ → Random.Generator × σ) :
    Except SpeechFault (Synthesizer κ σ) :=
  match valid : sampling.check with
  | .error fault => .error (.ofSettings fault)
  | .ok () => .ok { exp, model, sampling, valid, text, cancelled, entropy }

/-- Speaks one chunk. -/
def speakChunk (s : Synthesizer κ σ) (sampling : Sampling.Settings) (chunk : String) (world : σ) :
    Except SpeechFault (ChunkReport × List Float32) × σ :=
  -- a fault ends the chunk at the call that it came from
  match s.model.prefill chunk sampling.startToken world with
  | (.error fault, world) => (.error fault, world)
  | (.ok context, world) =>
    -- each chunk draws from a new generator, unless there is a seed
    let (unseeded, world) := s.entropy world
    match Decoder.new sampling .multinomial unseeded with
    | .error fault => (.error (.ofSettings fault), world)
    | .ok decoder =>
      let run := decoder.decode s.exp s.model.toOracle s.cancelled (fun _ world => world) context
        world
      match run.outcome with
      | .error fault => (.error (.decode fault), run.world)
      | .ok output =>
        -- a decode that was cancelled is not vocoded
        if output.finish = .cancelled then (.error .cancelled, run.world)
        else
          match s.model.vocode output.tokens run.world with
          | (.error fault, world) => (.error fault, world)
          | (.ok audio, world) => (.ok (⟨chunk, output.tokens.length, output.finish⟩, audio), world)

/-- Speaks some chunks, each followed by `gap`. -/
def speakChunks (s : Synthesizer κ σ) (sampling : Sampling.Settings) (gap : List Float32) :
    List String → σ → Except SpeechFault (List ChunkReport × List Float32) × σ
  | [], world => (.ok ([], []), world)
  | chunk :: rest, world =>
    match s.speakChunk sampling chunk world with
    | (.error fault, world) => (.error fault, world)
    | (.ok (report, audio), world) =>
      match s.speakChunks sampling gap rest world with
      | (.error fault, world) => (.error fault, world)
      | (.ok (reports, samples), world) =>
        (.ok (report :: reports, audio ++ gap ++ samples), world)

/-- Speaks a text with some knobs overridden. -/
def speak (s : Synthesizer κ σ) (text : String) (overrides : Overrides) (world : σ) :
    Except SpeechFault Synthesis × σ :=
  -- nothing is prepared, and no call made, for overrides that are refused
  match s.sampling.override overrides with
  | .error fault => (.error (.ofSettings fault), world)
  | .ok sampling =>
    let (clean, chunks) := Text.prepare s.text text
    if chunks.isEmpty then (.error .emptyText, world)
    else
      -- the gap follows every chunk, the last one too
      let gap := Audio.silence s.model.rate s.text.chunkSilence
      match s.speakChunks sampling gap chunks world with
      | (.error fault, world) => (.error fault, world)
      | (.ok (reports, samples), world) => (.ok ⟨clean, samples, s.model.rate, reports⟩, world)

end Synthesizer

end Utterance.Speech
