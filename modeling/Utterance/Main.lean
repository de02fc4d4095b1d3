import Utterance.Command.DebugTokens
import Utterance.Command.Speak
import Utterance.Command.SpeakerPipe

/-!
# The program

The first word of the command line names a command, the others are for that command.  No inference
backend is part of the program: all that comes before a graph is loaded works, and loading one
fails.
-/

namespace Utterance.Program

open Command (Arguments Exit Job Surroundings Synopsis)

/-- The backend of a program that has none. -/
def noBackend : Engine.Backend Empty Unit where
  load _ _ world := (.error "no inference backend is available", world)
  run session := nomatch session
  tokenizer _ world := (none, world)

/-- What commands find around them. -/
def surroundings (places : Config.Places) : Surroundings Empty Unit where
  backend := noBackend
  places
  exp := Float32.exp
  entropy world := (.ofSeed 0, world)
  play _ _ world := (.error (.notStarted "no player can be started"), world)

/-- The command with a name, and what it does. -/
def command? (s : Surroundings Empty Unit) :
    String → Option (Synopsis × (Arguments → Job Unit Unit))
  | "speak" => some (Command.Speak.synopsis, Command.Speak.run s)
  | "debug-tokens" => some (Command.DebugTokens.synopsis, Command.DebugTokens.run s)
  | "speaker-pipe" => some (Command.SpeakerPipe.synopsis, Command.SpeakerPipe.run s [])
  | _ => none

/-- The tree with a node at a path. -/
def withNode (disk : Disk) (path : String) (node : Node) : Disk :=
  match disk.makeParent path with
  | .error _ => disk
  | .ok disk =>
    match disk.locate path with
    | .error _ => disk
    | .ok place => disk.put place node

/-- The configuration file that a command line asks for. -/
def configPath (places : Config.Places) (s : Synopsis) (words : List String) : String :=
  match s.read words with
  | .run a => (a.value Command.configSwitch.long).getD places.path
  | _ => places.path

/-- The files that the configuration in a file speaks of. -/
def modelFiles (disk : Disk) (path : String) : List String :=
  match Config.load path disk with
  | .error _ => []
  | .ok c => (c.model.directory.map fun d => Engine.modelFiles d c.model.variant).getD []

/-- What is at a path of the machine. -/
def look (path : String) : IO (Option Node) := do
  try
    return some (.file (← IO.FS.readBinFile path).toList)
  catch
  | .inappropriateType .. => return some .directory
  | _ => return none

/-- Whether a file at a path of the machine can be read. -/
def isReadable (path : String) : IO Bool := do
  try
    let file ← IO.FS.Handle.mk path .read
    let _ ← file.read 1
    return true
  catch _ => return false

/-- Runs the command that the command line names. -/
def run (words : List String) : IO UInt32 := do
  let places : Config.Places :=
    { configHome := ← IO.getEnv "XDG_CONFIG_HOME", home := ← IO.getEnv "HOME" }
  match words with
  | name :: words =>
    match command? (surroundings places) name with
    | some (synopsis, job) =>
      let path := configPath places synopsis words
      let mut disk : Disk := { nodes := [] }
      if let some node ← look path then
        disk := withNode disk path node
      for file in modelFiles disk path do
        if ← isReadable file then
          disk := withNode disk file (.file [])
      let exit := Command.execute synopsis job words { disk, world := () }
      (← IO.getStdout).write ⟨exit.process.output.toArray⟩
      if let some message := exit.complaint then
        IO.eprintln ("Error: " ++ message)
      return exit.code.toUInt32
    | none => return 2
  | [] => return 2

end Utterance.Program

/-- Runs the program. -/
def main (words : List String) : IO UInt32 :=
  Utterance.Program.run words
