import Utterance.Binary
import Utterance.Toml.Value

/-!
# Fields of a configuration file

A section is described once, as a list of fields, for reading and for writing.  `readFields` takes
what is there and leaves every other setting as it is; `writeFields` leaves out what is unset.
-/

namespace Utterance.Config

open Toml (Scalar Value)

/-- How values of a type stand in a file. -/
structure Kind (α : Type) where
  /-- The scalar for a value, or none if the value is written by leaving the field out. -/
  write : α → Option Scalar
  /-- The value for what stands in the file, if that has the right type and range. -/
  read : Value → Option α

namespace Kind

/-- Switches. -/
def flag : Kind Bool where
  write b := some (.flag b)
  read
    | .scalar (.flag b) => some b
    | _ => none

/-- Texts. -/
def text : Kind String where
  write s := some (.text s)
  read
    | .scalar (.text s) => some s
    | _ => none

/-- Natural numbers below a limit. -/
def natural (limit : Nat) : Kind Nat where
  write n := some (.whole n)
  read
    -- a number out of range is refused as one of another type is
    | .scalar (.whole n) => if 0 ≤ n ∧ n < limit then some n.toNat else none
    | _ => none

/-- Numbers of binary32.  A whole number may stand for one. -/
def single : Kind Float32 where
  write x := some (.real (Binary.widen x))
  read
    | .scalar (.real x) => some (Binary.narrow x)
    | .scalar (.whole n) => some (Float32.ofInt n)
    | _ => none

/-- Values of a kind, or nothing. -/
def optional {α : Type} (kind : Kind α) : Kind (Option α) where
  write
    -- there is no scalar for nothing, so the field is left out
    | none => none
    | some a => kind.write a
  read v := (kind.read v).map some

/-- Values of a type that stand in the file as those of another. -/
def through {α β : Type} (kind : Kind α) (out : β → α) (into : α → β) : Kind β where
  write b := kind.write (out b)
  read v := (kind.read v).map into

/-- Numbers of 16 bits. -/
def word16 : Kind UInt16 :=
  (natural UInt16.size).through (·.toNat) (·.toUInt16)

/-- Numbers of 32 bits. -/
def word32 : Kind UInt32 :=
  (natural UInt32.size).through (·.toNat) (·.toUInt32)

/-- Numbers of 64 bits. -/
def word64 : Kind UInt64 :=
  (natural UInt64.size).through (·.toNat) (·.toUInt64)

/-- Sizes. -/
def size : Kind Nat :=
  natural UInt64.size

end Kind

/-- A named part of the settings `S`. -/
structure Field (S : Type) where
  name : String
  /-- What is written for the part. -/
  write : S → Option Scalar
  /-- The settings with the part read. -/
  read : Value → S → Option S

/-- The field for a part that can be had and set. -/
def Field.of {S α : Type} (name : String) (kind : Kind α) (part : S → α) (set : S → α → S) :
    Field S where
  name
  write s := kind.write (part s)
  read v s := (kind.read v).map (set s)

/-- The entries that settings are written with. -/
def writeFields {S : Type} (fields : List (Field S)) (s : S) : List (String × Scalar) :=
  fields.filterMap fun field => (field.write s).map (field.name, ·)

/-- The settings with the fields read that `find` has by position or name. -/
def readFields {S : Type} (find : Nat → String → Option Value) :
    (position : Nat) → List (Field S) → S → Option S
  | _, [], s => some s
  | position, field :: rest, s =>
    -- a field that is not found keeps its value
    match find position field.name with
    | none => readFields find (position + 1) rest s
    | some v => do readFields find (position + 1) rest (← field.read v s)

/-- How the fields of a section are found: in a table by name, in an array by position.  A date
has none of them. -/
def fieldsIn : Value → Option (Nat → String → Option Value)
  | .table entries => some fun _ name => entries.lookup name
  | .array items => some fun position _ => items[position]?
  | .moment => some fun _ _ => none
  | .scalar _ => none

/-- The settings in the named section, or the ones given if there is none. -/
def readSection {S : Type} (entries : List (String × Value)) (name : String)
    (fields : List (Field S)) (s : S) : Option S :=
  -- a section that is left out keeps all of its values
  match entries.lookup name with
  | none => some s
  | some v => do readFields (← fieldsIn v) 0 fields s

end Utterance.Config
