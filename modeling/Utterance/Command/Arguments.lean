/-!
# Command lines

A synopsis lists the options of a command, each of which takes a value, and the operands that may
stand beside them.  `Synopsis.read` takes a command line from left to right and stops at the first
word that does not fit; `Synopsis.help` describes the command.
-/

namespace Utterance.Command

/-- An option with a value. -/
structure Switch where
  long : String
  short : Option Char := none
  /-- What the value is called. -/
  placeholder : String
  about : String
  default : Option String := none
  /-- Whether a text is a value of the option. -/
  accepts : String → Bool := fun _ => true

/-- The words that are no options. -/
structure Operand where
  placeholder : String
  about : String
  /-- Stands in for the operand.  Without one there must be an operand, and there may be several. -/
  default : Option String := none

/-- What a command line may hold. -/
structure Synopsis where
  name : String
  version : String
  about : String
  switches : List Switch
  operand : Option Operand := none

/-- The words of a command line by what they mean. -/
structure Arguments where
  /-- The values of options, by their long names. -/
  values : List (String × String) := []
  operands : List String := []

/-- What a command line asks for. -/
inductive Invocation where
  | run (arguments : Arguments)
  /-- To print a text and do nothing else. -/
  | print (text : String)
  | misuse

/-- The value of an option, if it is given. -/
def Arguments.value (a : Arguments) (long : String) : Option String :=
  a.values.lookup long

/-- The arguments with the value of an option, which must not have one yet. -/
def Arguments.set (a : Arguments) (s : Switch) (value : String) : Option Arguments :=
  if s.accepts value && (a.value s.long).isNone then
    some { a with values := (s.long, value) :: a.values }
  else none

/-! ### Help -/

/-- A line of help: what is explained, and the explanation. -/
abbrev HelpLine := String × String

/-- An explanation with the default value. -/
def explained (about : String) (default : Option String) : String :=
  match default with
  | none => about
  | some value =>
    let value := if value.contains ' ' then "\"" ++ value ++ "\"" else value
    about ++ " [default: " ++ value ++ "]"

/-- The line for an option. -/
def Switch.helpLine (s : Switch) : HelpLine :=
  let short := match s.short with
    | some c => "-" ++ c.toString ++ ", "
    | none => "    "
  (short ++ "--" ++ s.long ++ " <" ++ s.placeholder ++ ">", explained s.about s.default)

/-- How an operand is written in help. -/
def Operand.form (o : Operand) : String :=
  if o.default.isSome then "[" ++ o.placeholder ++ "]" else "<" ++ o.placeholder ++ ">..."

/-- The width that help is laid out for. -/
def helpWidth : Nat :=
  100

/-- Some lines of help.  Explanations stand in a column, or each on a line of its own when the
column would begin far to the right and one of them does not fit. -/
def layOut (lines : List HelpLine) : String :=
  let widest := (lines.map (·.1.length)).foldl max 2
  let taken := widest + 12
  let crowded := 40 < taken && taken ≤ helpWidth &&
    lines.any fun (_, about) => helpWidth - taken < about.length
  String.join (lines.map fun (what, about) =>
    let gap := if crowded then "\n          "
      else String.ofList (List.replicate (widest + 2 - what.length) ' ')
    "  " ++ what ++ gap ++ about ++ "\n")

/-- The description of a command. -/
def Synopsis.help (s : Synopsis) : String :=
  let operand := match s.operand with
    | none => ""
    | some o => " " ++ o.form
  let arguments := match s.operand with
    | none => ""
    | some o => "Arguments:\n" ++ layOut [(o.form, explained o.about o.default)] ++ "\n"
  let options := s.switches.map Switch.helpLine ++
    [("-h, --help", "Print help"), ("-V, --version", "Print version")]
  s.about ++ "\n\nUsage: " ++ s.name ++ " [OPTIONS]" ++ operand ++ "\n\n" ++ arguments ++
    "Options:\n" ++ layOut options

/-- The name and version of a command. -/
def Synopsis.versionLine (s : Synopsis) : String :=
  s.name ++ " " ++ s.version ++ "\n"

/-! ### Reading -/

/-- The arguments with some more operands, if there may be so many. -/
def Synopsis.addOperands (s : Synopsis) (a : Arguments) (words : List String) :
    Option Arguments :=
  let operands := a.operands ++ words
  let most := match s.operand with
    | none => some 0
    | some o => if o.default.isSome then some 1 else none
  if most.all (operands.length ≤ ·) then some { a with operands } else none

/-- What is asked for when all words have been read. -/
def Synopsis.finish (s : Synopsis) (a : Arguments) : Invocation :=
  let required := s.operand.any (·.default.isNone)
  if required && a.operands.isEmpty then .misuse else .run a

/-- What the start of a word says. -/
inductive Word where
  /-- The rest of the command line is operands. -/
  | separator
  | help
  | version
  /-- An option, with its value if that is part of the word. -/
  | option (s : Switch) (value : Option String)
  | operand
  | unknown

/-- Takes apart a word that starts with two dashes, after those. -/
def Synopsis.longWord (s : Synopsis) (word : List Char) : Word :=
  let name := String.ofList (word.takeWhile (· ≠ '='))
  let value := match word.dropWhile (· ≠ '=') with
    | [] => none
    | _ :: value => some (String.ofList value)
  match s.switches.find? (·.long = name) with
  | some switch => .option switch value
  | none =>
    if value.isSome then .unknown
    else if name = "help" then .help
    else if name = "version" then .version
    else .unknown

/-- Takes apart a word that starts with one dash, after that. -/
def Synopsis.shortWord (s : Synopsis) (letter : Char) (rest : List Char) : Word :=
  match s.switches.find? (·.short = some letter) with
  | some switch =>
    match rest with
    | [] => .option switch none
    | '=' :: value => .option switch (some (String.ofList value))
    | value => .option switch (some (String.ofList value))
  | none =>
    if letter = 'h' then .help
    else if letter = 'V' then .version
    else .unknown

/-- Takes apart a word. -/
def Synopsis.word (s : Synopsis) (word : String) : Word :=
  match word.toList with
  | ['-', '-'] => .separator
  | '-' :: '-' :: rest => s.longWord rest
  | '-' :: letter :: rest => s.shortWord letter rest
  | _ => .operand

/-- Reads words, the first of which is the value of `waiting` if that is an option.  A word that
looks like an option is no value. -/
def Synopsis.readFrom (s : Synopsis) : (waiting : Option Switch) → Arguments → List String →
    Invocation
  | none, a, [] => s.finish a
  | some _, _, [] => .misuse
  | some switch, a, word :: rest =>
    if word.startsWith "-" && word ≠ "-" then .misuse
    else
      match a.set switch word with
      | none => .misuse
      | some a => s.readFrom none a rest
  | none, a, word :: rest =>
    match s.word word with
    | .separator =>
      match s.addOperands a rest with
      | none => .misuse
      | some a => s.finish a
    | .help => .print s.help
    | .version => .print s.versionLine
    | .option switch none => s.readFrom (some switch) a rest
    | .option switch (some value) =>
      match a.set switch value with
      | none => .misuse
      | some a => s.readFrom none a rest
    | .operand =>
      match s.addOperands a [word] with
      | none => .misuse
      | some a => s.readFrom none a rest
    | .unknown => .misuse

/-- What a command line asks for. -/
def Synopsis.read (s : Synopsis) (words : List String) : Invocation :=
  s.readFrom none {} words

end Utterance.Command
