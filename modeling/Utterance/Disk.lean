import Utterance.Text.Utf8

/-!
# Files

A tree of directories and regular files, with the ways in which reading and writing can fail.  A
path is a text with `/` between names; one that does not start with `/` starts at the working
directory.
-/

namespace Utterance

/-- What a place in the tree holds. -/
inductive Node where
  | directory
  | file (bytes : List UInt8)
deriving DecidableEq

/-- The names from the root to a place. -/
abbrev Location := List String

/-- A tree of files. -/
structure Disk where
  nodes : List (Location × Node)
  working : Location := []

namespace Disk

/-- Why a file cannot be read or written. -/
inductive Fault where
  | notFound
  | fileExists
  | notADirectory
  | isADirectory
  | nameTooLong
  /-- A path holds the character that ends a path. -/
  | misplacedEnd
  | notText
deriving DecidableEq, Repr

/-- The wording of a file fault. -/
def Fault.message : Fault → String
  | .notFound => "No such file or directory (os error 2)"
  | .fileExists => "File exists (os error 17)"
  | .notADirectory => "Not a directory (os error 20)"
  | .isADirectory => "Is a directory (os error 21)"
  | .nameTooLong => "File name too long (os error 36)"
  | .misplacedEnd => "file name contained an unexpected NUL byte"
  | .notText => "stream did not contain valid UTF-8"

/-- What is at a place. -/
def node? (d : Disk) (place : Location) : Option Node :=
  -- the root is no entry of its own
  if place.isEmpty then some .directory else d.nodes.lookup place

/-- The tree with something put at a place. -/
def put (d : Disk) (place : Location) (node : Node) : Disk :=
  { d with nodes := (place, node) :: d.nodes.filter (·.1 ≠ place) }

/-- A path taken apart. -/
structure Path where
  /-- The place where it starts. -/
  start : Location
  names : List String
  /-- Whether it ends with `/`, as only the path of a directory should. -/
  closed : Bool

/-- The longest name. -/
def nameLimit : Nat :=
  255

/-- The longest path. -/
def pathLimit : Nat :=
  4095

/-- Takes a path apart. -/
def takeApart (d : Disk) (path : String) : Except Fault Path :=
  if path.contains '\x00' then .error .misplacedEnd
  else if path.isEmpty then .error .notFound
  else if pathLimit < path.utf8ByteSize then .error .nameTooLong
  else .ok {
    -- a relative path starts in the working directory
    start := if path.startsWith "/" then [] else d.working
    names := (path.splitOn "/").filter (!·.isEmpty)
    closed := path.endsWith "/" }

/-- The place that `name` stands for in the directory at `place`. -/
def enter (place : Location) (name : String) : Location :=
  -- two points in the root stay there
  if name = "." then place
  else if name = ".." then place.dropLast
  else place ++ [name]

/-- The place that names lead to.  All but the last must be directories. -/
def walk (d : Disk) (place : Location) : List String → Except Fault Location
  | [] => .ok place
  | name :: rest =>
    -- the place that a name is taken from has to be a directory, `.` and `..` included
    match d.node? place with
    | none => .error .notFound
    | some (.file _) => .error .notADirectory
    | some .directory =>
      if nameLimit < name.utf8ByteSize then .error .nameTooLong
      else walk d (enter place name) rest

/-- The place that a path leads to. -/
def locate (d : Disk) (path : String) : Except Fault Location := do
  let path ← d.takeApart path
  -- a path that is closed leads to a directory
  d.walk path.start (if path.closed then path.names ++ ["."] else path.names)

/-- The place where a path wants a file.  The file need not exist, its directory must. -/
def locateNew (d : Disk) (path : String) : Except Fault Location := do
  let path ← d.takeApart path
  let isNew := path.names.getLast?.any fun name => name ≠ "." && name ≠ ".."
  -- the directory is looked for before the path is refused
  if path.closed && isNew then
    let _ ← d.walk path.start (path.names.dropLast ++ ["."])
    .error .isADirectory
  else d.walk path.start path.names

/-- The content of a file. -/
def read (d : Disk) (path : String) : Except Fault (List UInt8) := do
  match d.node? (← d.locate path) with
  | none => .error .notFound
  | some .directory => .error .isADirectory
  | some (.file bytes) => .ok bytes

/-- The content of a file as text. -/
def readText (d : Disk) (path : String) : Except Fault String := do
  match Text.decodeUtf8 (← d.read path) with
  | .error _ => .error .notText
  | .ok text => .ok text

/-- Whether a path leads to a regular file. -/
def isFile (d : Disk) (path : String) : Bool :=
  match d.read path with
  | .ok _ => true
  | .error _ => false

/-- The tree with a file written, in a directory that exists. -/
def write (d : Disk) (path : String) (bytes : List UInt8) : Except Fault Disk := do
  let place ← d.locateNew path
  match d.node? place with
  -- a file that is there is replaced
  | some .directory => .error .isADirectory
  | _ => .ok (d.put place (.file bytes))

/-- The tree with the directories on the way along some names.  When the first attempt to make the
last of them meets a file on its way, that file is no directory; when directories had to be `made`
before, the file is found where one of them should be. -/
def makeDirectories (d : Disk) (place : Location) (made : Bool) :
    List String → Except Fault Disk
  | [] => .ok d
  | name :: rest =>
    -- names are measured as they come, before anything is made for them
    if nameLimit < name.utf8ByteSize then .error .nameTooLong
    else
      let place := enter place name
      match d.node? place with
      | none => (d.put place .directory).makeDirectories place true rest
      | some .directory => d.makeDirectories place made rest
      | some (.file _) => .error (if made || rest.isEmpty then .fileExists else .notADirectory)

/-- The path up to its last name.  Single points do not count as names. -/
def parent (path : String) : String :=
  let names := ((path.splitOn "/").filter fun name => !name.isEmpty && name ≠ ".").dropLast
  (if path.startsWith "/" then "/" else "") ++ "/".intercalate names

/-- The tree with the directory that is to hold the file at `path`. -/
def makeParent (d : Disk) (path : String) : Except Fault Disk :=
  -- without a parent there is nothing to make
  if (parent path).isEmpty then .ok d
  else do
    let path ← d.takeApart (parent path)
    d.makeDirectories path.start false path.names

end Disk

/-- A relative path taken from a directory. -/
def joinPath (directory relative : String) : String :=
  if relative.startsWith "/" || directory.isEmpty then relative
  else if directory.endsWith "/" then directory ++ relative
  else directory ++ "/" ++ relative

end Utterance
