import Utterance.Toml.Value

/-!
# Tables

A document grows its tables statement by statement.  Each table remembers how it came about, since
that decides what may still be added: a table with a header of its own is closed to dotted keys, a
table made by dotted keys is closed to headers, and a table that only other headers imply may still
get its own.  A value, once assigned, is never added to.
-/

namespace Utterance.Toml

/-- How a table came about. -/
inductive Origin where
  /-- By a header of its own. -/
  | header
  /-- On the way to the table of another header. -/
  | implied
  /-- By a dotted key. -/
  | dotted
deriving DecidableEq, Repr

/-- What stands under a key of a table that may still grow. -/
inductive Node where
  | value (v : Value)
  | table (origin : Origin) (entries : List (String × Node))
  /-- An array of tables, of which only the last may grow. -/
  | tables (earlier : List (List (String × Node))) (last : List (String × Node))

/-- A table that may still grow. -/
abbrev Entries := List (String × Node)

namespace Entries

/-- The entries with a node under a key, in place of the one that is there. -/
def put (key : String) (node : Node) : Entries → Entries
  | [] => [(key, node)]
  | (other, old) :: rest =>
    if other = key then (key, node) :: rest else (other, old) :: put key node rest

/-- The entries with the table at a path changed.  Tables missing on the way are added, with the
given origin. -/
def change (made : Origin) (visit : Origin → Entries → Option Entries) :
    (path : List String) → Origin → Entries → Option Entries
  | [], origin, entries => visit origin entries
  | key :: path, _, entries =>
    match entries.lookup key with
    | none => do
      let inner ← change made visit path made []
      some (entries.put key (.table made inner))
    | some (.table origin inner) =>
      -- dotted keys do not add to a table that has a header
      if made = .dotted ∧ origin = .header then none
      else do
        let inner ← change made visit path origin inner
        some (entries.put key (.table origin inner))
    -- the last of an array of tables is the one that grows
    | some (.tables earlier last) => do
      let last ← change made visit path .header last
      some (entries.put key (.tables earlier last))
    | some (.value _) => none

/-- The entries with a value at a dotted key. -/
def assign (path : List String) (key : String) (v : Value) (entries : Entries) : Option Entries :=
  entries.change .dotted (fun origin entries =>
    -- a dotted key goes on only in tables that dotted keys have made
    if path ≠ [] ∧ origin ≠ .dotted then none
    else
      match entries.lookup key with
      -- no key is given twice
      | none => some (entries.put key (.value v))
      | some _ => none) path .header

/-- The entries with the table of a header. -/
def openTable (path : List String) (key : String) (entries : Entries) : Option Entries :=
  entries.change .implied (fun _ entries =>
    match entries.lookup key with
    | none => some (entries.put key (.table .header []))
    -- a table that was implied gets its header later
    | some (.table .implied inner) => some (entries.put key (.table .header inner))
    | some _ => none) path .header

/-- The entries with one more table in the array of a header. -/
def openElement (path : List String) (key : String) (entries : Entries) : Option Entries :=
  entries.change .implied (fun _ entries =>
    match entries.lookup key with
    | none => some (entries.put key (.tables [] []))
    | some (.tables earlier last) => some (entries.put key (.tables (earlier ++ [last]) []))
    | some _ => none) path .header

end Entries

mutual

/-- The value that a node has in the end. -/
def Node.toValue : Node → Value
  | .value v => v
  | .table _ entries => .table (entryValues entries)
  | .tables earlier last => .array (tableValues earlier ++ [.table (entryValues last)])

/-- The values that some entries have in the end. -/
def entryValues : List (String × Node) → List (String × Value)
  | [] => []
  | (key, node) :: rest => (key, node.toValue) :: entryValues rest

/-- The values that some tables have in the end. -/
def tableValues : List (List (String × Node)) → List Value
  | [] => []
  | entries :: rest => .table (entryValues entries) :: tableValues rest

end

/-- What a document says, one statement at a time.  Paths are never empty: the last key stands
apart. -/
inductive Statement where
  | assign (path : List String) (key : String) (v : Value)
  | openTable (path : List String) (key : String)
  | openElement (path : List String) (key : String)

/-- A document of which some statements have been taken in. -/
structure Draft where
  /-- The path of the table that assignments go to. -/
  current : List String := []
  entries : Entries := []

/-- The draft with one more statement. -/
def Draft.add (d : Draft) : Statement → Option Draft
  | .assign path key v => do
    -- the tables on the way to the current one are there already
    let entries ← d.entries.change .implied (fun _ entries => entries.assign path key v) d.current
      .header
    some { d with entries }
  | .openTable path key => do
    some ⟨path ++ [key], ← d.entries.openTable path key⟩
  | .openElement path key => do
    some ⟨path ++ [key], ← d.entries.openElement path key⟩

/-- The table that some statements make. -/
def assemble (statements : List Statement) : Option (List (String × Value)) := do
  let draft ← statements.foldlM Draft.add {}
  some (entryValues draft.entries)

end Utterance.Toml
