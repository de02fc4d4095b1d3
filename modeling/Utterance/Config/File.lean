import Utterance.Config.Settings
import Utterance.Disk
import Utterance.Fault

/-!
# Configuration files

Loading refuses a file that cannot be read, is no configuration, or has sampling settings out of
range.  Saving makes the directory of the file and writes whatever the settings are.
-/

namespace Utterance.Config

/-- What the surroundings say about where configuration files are. -/
structure Places where
  /-- The directory of configuration files, which counts if it is an absolute path. -/
  configHome : Option String
  /-- The home directory. -/
  home : Option String
  /-- The home directory of the account, for want of any other. -/
  account : Option String := none

/-- The home directory, if there is one. -/
def Places.homeDirectory (p : Places) : Option String :=
  -- an empty name counts as none
  match p.home.filter (!·.isEmpty) with
  | some home => some home
  | none => p.account

/-- The directory of configuration files. -/
def Places.directory (p : Places) : String :=
  -- a relative directory is ignored
  match p.configHome.filter (·.startsWith "/") with
  | some directory => directory
  | none => (p.homeDirectory.map (joinPath · ".config")).getD "/tmp"

/-- Where the configuration is by default. -/
def Places.path (p : Places) : String :=
  joinPath (joinPath p.directory "chatterbox-speaker") "config.toml"

/-- Why a document is refused that is no configuration. -/
def malformed : String :=
  "not a valid configuration"

/-- Why a configuration cannot be saved. -/
def unwritable : String :=
  "a number is out of range"

/-- The configuration in a file. -/
def load (path : String) (disk : Disk) : Except SpeechFault Config :=
  match disk.readText path with
  | .error fault => .error (.io fault.message)
  | .ok document =>
    match ofToml document with
    | none => .error (.configuration malformed)
    | some c =>
      -- what was read is checked before it is used
      match c.sampling.check with
      | .error fault => .error (.ofSettings fault)
      | .ok () => .ok c

/-- The configuration in the file asked for.  Without one, that at the default path if there is a
file, and the default settings if not. -/
def loadOrDefault (path : Option String) (places : Places) (disk : Disk) :
    Except SpeechFault Config :=
  match path with
  | some path => load path disk
  | none => if disk.isFile places.path then load places.path disk else .ok {}

/-- Writes a configuration to a file. -/
def save (c : Config) (path : String) (disk : Disk) : Except SpeechFault Unit × Disk :=
  -- the directory is made first, and stays even if nothing is written
  match disk.makeParent path with
  | .error fault => (.error (.io fault.message), disk)
  | .ok disk =>
    match c.toToml with
    | none => (.error (.configuration unwritable), disk)
    | some document =>
      match disk.write path (Text.encodeUtf8 document) with
      | .error fault => (.error (.io fault.message), disk)
      | .ok disk => (.ok (), disk)

end Utterance.Config
