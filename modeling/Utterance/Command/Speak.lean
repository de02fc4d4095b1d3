import Utterance.Audio.Wav.File
import Utterance.Command.Number
import Utterance.Command.Process
import Utterance.Engine.Speaker
import Utterance.Speech.Synthesizer

/-!
# The command `speak`

Speaks a text to a WAV file.
-/

namespace Utterance.Command.Speak

/-- The command line. -/
def synopsis : Synopsis where
  name := "speak"
  version
  about := "Speak text with Chatterbox"
  switches := [configSwitch,
    { long := "out", short := some 'o', placeholder := "OUT", about := "Output WAV path"
      default := some "speech.wav", accepts := fun path => !path.isEmpty },
    { long := "play", placeholder := "PLAY"
      about := "Player command to run on the output file (e.g. \x60afplay\x60, \x60aplay\x60)" },
    { long := "temperature", placeholder := "TEMPERATURE", about := "Sampling temperature override"
      accepts := fun x => (readSingle x).isSome },
    { long := "seed", placeholder := "SEED", about := "Seed for reproducible sampling"
      accepts := fun n => (readNatural UInt64.size n).isSome }]
  operand := some { placeholder := "TEXT", about := "Text to speak" }

variable {ς σ : Type}

/-- Plays a file. -/
def play (s : Surroundings ς σ) (player path : String) : Job σ Unit := do
  match ← onWorld (s.play player path) with
  | .ok printed => printBytes printed
  | .error (.notStarted reason) => throw (.complaint reason)
  | .error (.failed status) => throw (.complaint (player ++ " exited with " ++ status))

/-- Speaks the operands. -/
def run (s : Surroundings ς σ) (a : Arguments) : Job σ Unit := do
  let config ← loadConfig s.places a
  let engine ← loadEngine s.backend config
  let speaker ← orFail (Speech.Synthesizer.new s.exp (engine.toModel s.backend) config.sampling
    config.text (fun _ => false) s.entropy)
  let overrides : Sampling.Overrides :=
    { temperature := (a.value "temperature").bind readSingle
      seed := (a.value "seed").bind fun n => (readNatural UInt64.size n).map (·.toUInt64) }
  let speech ← orFail (← onWorld (speaker.speak (" ".intercalate a.operands) overrides))
  let out := (a.value "out").getD "speech.wav"
  let saved ← modifyGet fun p =>
    let (saved, disk) := Audio.Wav.save ⟨speech.samples, speech.rate⟩ out p.disk
    (saved, { p with disk })
  -- a writer that breaks off takes the command with it
  if let .error fault := saved then
    if fault = Audio.Wav.noHeader speech.rate then throw .abort
  orFail saved
  match a.value "play" with
  | none => pure ()
  | some player => play s player out

end Utterance.Command.Speak
