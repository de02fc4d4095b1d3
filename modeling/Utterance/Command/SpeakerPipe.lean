import Utterance.Command.Process
import Utterance.Engine.Speaker
import Utterance.Speech.Pipe

/-!
# The command `speaker-pipe`

Speaks the lines of its input.
-/

namespace Utterance.Command.SpeakerPipe

/-- The command line. -/
def synopsis : Synopsis where
  name := "speaker-pipe"
  version
  about := "Speak lines from stdin, replying with base64 WAV on stdout"
  switches := [configSwitch]

variable {ς σ : Type}

/-- The engine is loaded apart from the rest, so that an overflow ends in a complaint. -/
def loaderLost : Failure :=
  .complaint "model loader panicked: task panicked with message \"capacity overflow\""

/-- Serves the requests of an input. -/
def run (s : Surroundings ς σ) (input : List UInt8) (a : Arguments) : Job σ Unit := do
  let config ← loadConfig s.places a
  let engine ← loadEngine s.backend config loaderLost
  let speaker ← orFail (Speech.Synthesizer.new s.exp (engine.toModel s.backend) config.sampling
    config.text (fun _ => false) s.entropy)
  let session ← onWorld fun world =>
    let session := Speech.Pipe.run speaker.speak input none world
    (session, session.world)
  printBytes session.sink.written
  match session.outcome with
  | .ok _ => pure ()
  | .error fault => throw (.complaint ("speaker-pipe failed: " ++ fault.message))

end Utterance.Command.SpeakerPipe
