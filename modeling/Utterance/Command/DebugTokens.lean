import Utterance.Command.Number
import Utterance.Command.Process
import Utterance.Engine.Speaker
import Utterance.Decode.Decoder

/-!
# The command `debug-tokens`

Prints the tokens that the model likes best for a text, one step at a time.
-/

namespace Utterance.Command.DebugTokens

/-- The command line. -/
def synopsis : Synopsis where
  name := "debug-tokens"
  version
  about := "Print the first speech tokens Chatterbox picks for a text"
  switches := [configSwitch,
    { long := "steps", placeholder := "STEPS", about := "Number of decode steps"
      default := some "20", accepts := fun n => (readNatural UInt64.size n).isSome },
    { long := "repetition-penalty", placeholder := "REPETITION_PENALTY"
      about := "Repetition penalty", default := some "1.2"
      accepts := fun x => (readSingle x).isSome }]
  operand := some { placeholder := "TEXT", about := "Text to decode", default := some "Hi there!" }

/-- The settings of a diagnostic decode, in which only the penalty re-weighs scores. -/
def settings (s : Sampling.Settings) (a : Arguments) : Sampling.Settings :=
  { s with
    temperature := 1
    topK := 0
    topP := 1
    repetitionPenalty := ((a.value "repetition-penalty").bind readSingle).getD 1.2
    maxSteps := ((a.value "steps").bind (readNatural UInt64.size)).getD 20 }

/-- The lines about a selection. -/
def eventLines (e : Decode.StepEvent) : List String :=
  ("  Step " ++ toString e.step ++ ": token=" ++ toString e.token.toNat) ::
    if e.isStop then ["  Hit stop token!"] else []

/-- The line about a decode. -/
def summary (output : Decode.Output) : String :=
  "Generated " ++ toString output.tokens.length ++ " tokens (" ++ output.finish.name ++ "): [" ++
    ", ".intercalate (output.tokens.map fun t => toString t.toNat) ++ "]"

variable {ς σ : Type}

/-- Decodes the operand. -/
def run (s : Surroundings ς σ) (a : Arguments) : Job σ Unit := do
  let config ← loadConfig s.places a
  let settings := settings config.sampling a
  let unseeded ← onWorld s.entropy
  let decoder ← orFail ((Decode.Decoder.new settings .argMax unseeded).mapError .ofSettings)
  let text := a.operands.headD "Hi there!"
  printLine ("Generating for: " ++ text)
  printLine ("Start token: " ++ toString settings.startToken.toNat)
  printLine ("Stop token: " ++ toString settings.stopToken.toNat)
  let engine ← loadEngine s.backend config
  let model := engine.toModel s.backend
  let context ← orFail (← onWorld (model.prefill text settings.startToken))
  printLine ("Prefilled \"" ++ text ++ "\" (" ++ toString context.attended ++ " positions)")
  let run ← onWorld fun world =>
    let run := decoder.decode s.exp model.toOracle (fun _ => false) (fun _ world => world) context
      world
    (run, run.world)
  for line in run.events.flatMap eventLines do
    printLine line
  let output ← orFail (run.outcome.mapError .decode)
  printLine (summary output)

end Utterance.Command.DebugTokens
