import Utterance.Command.Arguments
import Utterance.Config.File
import Utterance.Engine.Basic
import Utterance.Random.Generator
import Utterance.Text.Utf8

/-!
# Processes

A command runs as a process: it reads and writes files, prints, and acts on the world of its
backend.  A failure ends it, in most cases with a message, and what was printed before stays
printed.
-/

namespace Utterance.Command

/-- What a command works on. -/
structure Process (σ : Type) where
  disk : Disk
  /-- What has been printed. -/
  output : List UInt8 := []
  world : σ

/-- Why a command does not complete. -/
inductive Failure where
  | complaint (message : String)
  /-- It is cut off where it stands. -/
  | abort
deriving DecidableEq, Repr

/-- Work that a failure may end. -/
abbrev Job (σ α : Type) := ExceptT Failure (StateM (Process σ)) α

/-- Why a player did not play. -/
inductive PlayFault where
  | notStarted (reason : String)
  | failed (status : String)

/-- What a command finds around it. -/
structure Surroundings (ς σ : Type) where
  backend : Engine.Backend ς σ
  places : Config.Places
  exp : Float32 → Float32
  entropy : σ → Random.Generator × σ
  /-- Runs a player on a file, and tells what it prints. -/
  play : String → String → σ → Except PlayFault (List UInt8) × σ

/-- How a process ends. -/
structure Exit (σ : Type) where
  code : Nat
  /-- The message of a failure. -/
  complaint : Option String := none
  process : Process σ

variable {σ : Type}

/-- Prints bytes. -/
def printBytes (bytes : List UInt8) : Job σ Unit :=
  modify fun p => { p with output := p.output ++ bytes }

/-- Prints a line. -/
def printLine (line : String) : Job σ Unit :=
  printBytes (Text.encodeUtf8 line ++ [10])

/-- Acts on the world of the backend. -/
def onWorld {α : Type} (act : σ → α × σ) : Job σ α :=
  modifyGet fun p =>
    let (result, world) := act p.world
    (result, { p with world })

/-- The result of something that may have ended with a fault. -/
def orFail {α : Type} : Except SpeechFault α → Job σ α
  | .ok a => pure a
  | .error fault => throw (.complaint fault.message)

/-- The version of all commands. -/
def version : String :=
  "0.1.0"

/-- The option for the configuration file, which all commands have. -/
def configSwitch : Switch where
  long := "config"
  short := some 'c'
  placeholder := "CONFIG"
  about := "Path to TOML configuration file"
  accepts path := !path.isEmpty

/-- The configuration that the command line asks for. -/
def loadConfig (places : Config.Places) (a : Arguments) : Job σ Config := do
  orFail (Config.loadOrDefault (a.value configSwitch.long) places (← get).disk)

/-- The engine that a configuration asks for.  Of an overflow the caller says what it leads to. -/
def loadEngine {ς : Type} (r : Engine.Backend ς σ) (c : Config) (overflow : Failure := .abort) :
    Job σ (Engine ς) := do
  let disk := (← get).disk
  match ← onWorld fun world => (Engine.load r disk c.model).run.run world with
  | .ok engine => return engine
  | .error (.speech fault) => throw (.complaint fault.message)
  | .error .overflow => throw overflow

/-- Runs a command on a command line. -/
def execute (s : Synopsis) (job : Arguments → Job σ Unit) (words : List String)
    (process : Process σ) : Exit σ :=
  match s.read words with
  | .misuse => { code := 2, process }
  | .print text => { code := 0, process := { process with output := Text.encodeUtf8 text } }
  | .run arguments =>
    match (job arguments).run.run process with
    | (.ok (), process) => { code := 0, process }
    | (.error (.complaint message), process) => { code := 1, complaint := some message, process }
    | (.error .abort, process) => { code := 101, process }

end Utterance.Command
