import Mathlib.Data.List.Basic
import Utterance.Toml.Table

/-!
# Tables of sections

The statements of a document of sections open one table after the other and fill it, so that the
draft only ever grows at its end.

## Key results

- `add_openTable`, `add_assign`: what one statement adds
- `foldlM_assigns`, `foldlM_sections`: what the statements of a section and of a document add
- `assemble_statements`: the table that a document of sections makes
-/

namespace Utterance.Toml

variable {key name : String} {entries inner : Entries} {node old : Node} {v : Value}

/-! ## Entries -/

/-- The keys of some entries, by which `lookup` goes. -/
def keys {α : Type} (entries : List (String × α)) : List String :=
  entries.map Prod.fst

/-- `lookup` finds nothing under a key that is not among the `keys`. -/
theorem lookup_eq_none {α : Type} {entries : List (String × α)} (h : key ∉ keys entries) :
    entries.lookup key = none := by
  rw [List.lookup_eq_none_iff]
  rintro ⟨other, a⟩ hmem
  rw [bne_iff_ne]
  rintro rfl
  exact h (List.mem_map_of_mem hmem)

/-- After entries with other `keys`, `lookup` finds an entry. -/
theorem lookup_append_cons {α : Type} {entries : List (String × α)} (h : key ∉ keys entries)
    (a : α) (rest : List (String × α)) : (entries ++ (key, a) :: rest).lookup key = some a := by
  rw [List.lookup_append, lookup_eq_none h, List.lookup_cons_self]
  rfl

/-- `put` adds an entry with a new key at the end. -/
theorem put_of_notMem (h : key ∉ keys entries) (node : Node) :
    entries.put key node = entries ++ [(key, node)] := by
  induction entries with
  | nil => rfl
  | cons entry entries ih =>
    rw [keys, List.map_cons, List.mem_cons, not_or] at h
    rw [Entries.put, if_neg (Ne.symm h.1), ih h.2, List.cons_append]

/-- `put` replaces the last entry, if no earlier one has its key. -/
theorem put_append_singleton (h : key ∉ keys entries) (old node : Node) :
    Entries.put key node (entries ++ [(key, old)]) = entries ++ [(key, node)] := by
  induction entries with
  | nil => exact if_pos rfl
  | cons entry entries ih =>
    rw [keys, List.map_cons, List.mem_cons, not_or] at h
    rw [List.cons_append, Entries.put, if_neg (Ne.symm h.1), ih h.2, List.cons_append]

/-! ## Statements -/

/-- `Draft.add` of a header adds an empty table to the draft, and makes it the current one. -/
theorem add_openTable (h : name ∉ keys entries) (current : List String) :
    Draft.add ⟨current, entries⟩ (.openTable [] name) =
      some ⟨[name], entries ++ [(name, .table .header [])]⟩ := by
  simp only [Draft.add, Entries.openTable, Entries.change, lookup_eq_none h, put_of_notMem h, bind,
    Option.bind_some, List.nil_append]

/-- `Draft.add` of an assignment adds a value to the last table of the draft. -/
theorem add_assign (hname : name ∉ keys entries) (hkey : key ∉ keys inner) (v : Value) :
    Draft.add ⟨[name], entries ++ [(name, .table .header inner)]⟩ (.assign [] key v) =
      some ⟨[name], entries ++ [(name, .table .header (inner ++ [(key, .value v)]))]⟩ := by
  simp only [Draft.add, Entries.change, lookup_append_cons hname, Entries.assign,
    lookup_eq_none hkey, put_of_notMem hkey, put_append_singleton hname, bind]
  simp

/-! ## Sections -/

/-- A table of values, with the name of its header; a `Value` for each key. -/
abbrev Section := String × List (String × Value)

/-- The statements of a section: `openTable`, and then an `assign` for each value. -/
def Section.statements (sect : Section) : List Statement :=
  .openTable [] sect.1 :: sect.2.map fun (key, v) => .assign [] key v

/-- The table of a section, as a `Node` of the document. -/
def Section.entry (sect : Section) : String × Node :=
  (sect.1, .table .header (sect.2.map fun (key, v) => (key, .value v)))

/-- Assignments add their values one after the other to the last table, by `Draft.add`. -/
theorem foldlM_assigns (hname : name ∉ keys entries) (values : List (String × Value))
    (hkeys : (keys inner ++ keys values).Nodup) :
    (values.map fun (key, v) => Statement.assign [] key v).foldlM Draft.add
        ⟨[name], entries ++ [(name, .table .header inner)]⟩ =
      some ⟨[name], entries ++ [(name, .table .header
        (inner ++ values.map fun (key, v) => (key, .value v)))]⟩ := by
  -- what has been assigned so far is in the table, so the induction is for any such start
  induction values generalizing inner with
  | nil => simp
  | cons value values ih =>
    obtain ⟨key, v⟩ := value
    have hkey : key ∉ keys inner := fun h =>
      (List.nodup_append.mp hkeys).2.2 key h key List.mem_cons_self rfl
    have hrest : (keys (inner ++ [(key, Node.value v)]) ++ keys values).Nodup := by
      simpa [keys] using hkeys
    rw [List.map_cons, List.foldlM_cons, add_assign hname hkey]
    simp only [bind, Option.bind_some]
    rw [ih hrest]
    simp

/-- Sections add their tables one after the other, by `Draft.add`. -/
theorem foldlM_sections (sections : List Section) (hnames : (keys entries ++ keys sections).Nodup)
    (hkeys : ∀ sect ∈ sections, (keys sect.2).Nodup) (current : List String) :
    ∃ current', (sections.flatMap Section.statements).foldlM Draft.add ⟨current, entries⟩ =
      some ⟨current', entries ++ sections.map Section.entry⟩ := by
  -- induction on the sections; the header opens a new table, and the entries fill it
  induction sections generalizing entries current with
  | nil => exact ⟨current, by simp⟩
  | cons sect sections ih =>
    obtain ⟨hsect, hkeys⟩ := List.forall_mem_cons.mp hkeys
    have hname : sect.1 ∉ keys entries := fun h =>
      (List.nodup_append.mp hnames).2.2 sect.1 h sect.1 List.mem_cons_self rfl
    have hrest : (keys (entries ++ [sect.entry]) ++ keys sections).Nodup := by
      simpa [keys, Section.entry] using hnames
    obtain ⟨current', hfold⟩ := ih hrest hkeys [sect.1]
    refine ⟨current', ?_⟩
    rw [List.flatMap_cons, List.foldlM_append, Section.statements, List.foldlM_cons,
      add_openTable hname]
    simp only [bind, Option.bind_some]
    rw [foldlM_assigns hname sect.2 (by simpa [keys] using hsect)]
    simpa [Section.entry] using hfold

/-- The `entryValues` of entries that are values are these. -/
theorem entryValues_values (values : List (String × Value)) :
    entryValues (values.map fun (key, v) => (key, .value v)) = values := by
  induction values with
  | nil => rfl
  | cons value values ih => rw [List.map_cons, entryValues, ih, Node.toValue]

/-- The `entryValues` of the tables of sections are tables of their values. -/
theorem entryValues_sections (sections : List Section) :
    entryValues (sections.map Section.entry) =
      sections.map fun (name, values) => (name, .table values) := by
  induction sections with
  | nil => rfl
  | cons sect sections ih =>
    rw [List.map_cons, List.map_cons, Section.entry, entryValues, ih, Node.toValue,
      entryValues_values]

/-- `assemble` makes a table of tables of a document of sections. -/
theorem assemble_statements (sections : List Section) (hnames : (keys sections).Nodup)
    (hkeys : ∀ sect ∈ sections, (keys sect.2).Nodup) :
    assemble (sections.flatMap Section.statements) =
      some (sections.map fun (name, values) => (name, .table values)) := by
  have hall : (keys ([] : List (String × Node)) ++ keys sections).Nodup := hnames
  obtain ⟨current, hfold⟩ := foldlM_sections sections hall hkeys []
  rw [assemble, hfold, List.nil_append]
  exact congrArg some (entryValues_sections sections)

end Utterance.Toml
