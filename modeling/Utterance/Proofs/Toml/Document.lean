import Utterance.Proofs.Toml.Number
import Utterance.Proofs.Toml.Quoted
import Utterance.Proofs.Toml.Table
import Utterance.Toml.Document

/-!
# Reading documents of sections

A document of sections is read back as the tables that it was written for, if its keys need no
quotes and its scalars can be written.

## Key results

- `readScalar_write`: a scalar is read back up to the end of its line
- `lines_section`: the lines of a section are read as its statements
- `read_write`: a document is read back
-/

namespace Utterance.Toml

variable {rest : List Char}

/-! ## Scalars -/

/-- A scalar that `Scalar.write` writes such that it can be read back. -/
def Scalar.Readable : Scalar → Prop
  | .text _ | .flag _ => True
  | .whole n => (Scalar.whole n).fits = true
  | .real x => ∃ q, Binary.Stands x q ∧ 0 < q ∧ q ≤ 2 ^ 255

/-- `quote` starts with a quote, a double or a single one. -/
theorem exists_quote (text : List Char) :
    ∃ inside, quote text = '"' :: inside ∨ quote text = '\'' :: inside := by
  simp only [quote]
  split_ifs
  · exact ⟨_, .inl rfl⟩
  · exact ⟨_, .inr rfl⟩
  · exact ⟨_, .inl rfl⟩
  · exact ⟨_, .inr rfl⟩
  · exact ⟨_, .inl rfl⟩
  · exact ⟨_, .inl rfl⟩

/-- `readScalar` reads a text in quotes back. -/
theorem readScalar_quote (s : String) (rest : List Char) :
    readScalar (quote s.toList ++ '\n' :: rest) = some (.scalar (.text s), '\n' :: rest) := by
  have hread : readQuoted (quote s.toList ++ '\n' :: rest) = some (s.toList, '\n' :: rest) :=
    readQuoted_quote s.toList nofun nofun
  obtain ⟨inside, hquote | hquote⟩ := exists_quote s.toList <;>
    rw [hquote, List.cons_append] at hread ⊢ <;> rw [readScalar, hread] <;>
    simp [String.ofList_toList]

/-- What starts like a number is read by `readNumber`. -/
theorem readScalar_of_readNumber {text : List Char} {s : Scalar} (htext : Numeric text)
    (hnumber : readNumber (text ++ '\n' :: rest) = some (s, '\n' :: rest)) :
    readScalar (text ++ '\n' :: rest) = some (.scalar s, '\n' :: rest) := by
  have hmoment := htext.readMoment_eq rest
  obtain ⟨c, tail, rfl, hc⟩ := htext.exists_cons
  have hne : ∀ d : Char, d.isDigit = false → d ≠ '-' → c ≠ d := by
    rintro d hd hdash rfl
    exact hc.elim (fun h => ne_of_isDigit h hd rfl) hdash
  rw [List.cons_append] at hmoment hnumber ⊢
  -- a digit or a sign opens neither a flag nor a text in quotes
  rw [readScalar, hmoment, hnumber]
  · rfl
  · intro _ h
    injection h with h
    exact hne 't' rfl (by decide) h
  · intro _ h
    injection h with h
    exact hne 'f' rfl (by decide) h
  · intro _ h
    injection h with h
    exact hne '"' rfl (by decide) h
  · intro _ h
    injection h with h
    exact hne '\'' rfl (by decide) h

/-- `readScalar` reads a scalar back up to the end of its line. -/
theorem readScalar_write {s : Scalar} (h : s.Readable) (rest : List Char) :
    readScalar (s.write ++ '\n' :: rest) = some (.scalar s, '\n' :: rest) := by
  cases s with
  | text s => exact readScalar_quote s rest
  | whole n => exact readScalar_of_readNumber (numeric_whole n) (readNumber_whole h rest)
  | real x =>
    obtain ⟨q, hx, hpos, hq⟩ := h
    exact readScalar_of_readNumber (numeric_real hx hpos) (readNumber_real hx hpos hq rest)
  | flag b => cases b <;> rfl

/-- A text that is `Numeric` starts with no blank, and with no bracket. -/
theorem Numeric.exists_head {text : List Char} (h : Numeric text) :
    ∃ c tail, text = c :: tail ∧ c ∉ [' ', '\t', '[', '\x7b'] := by
  obtain ⟨c, tail, htext, hc⟩ := h.exists_cons
  refine ⟨c, tail, htext, ?_⟩
  intro hmem
  simp only [List.mem_cons, List.not_mem_nil, or_false] at hmem
  obtain rfl | rfl | rfl | rfl := hmem <;> exact absurd hc (by decide)

/-- The text that `Scalar.write` gives starts with no blank, and with no bracket. -/
theorem exists_head_write {s : Scalar} (h : s.Readable) :
    ∃ c tail, s.write = c :: tail ∧ c ∉ [' ', '\t', '[', '\x7b'] := by
  -- one case for each kind of scalar
  cases s with
  | text s =>
    obtain ⟨inside, hquote | hquote⟩ := exists_quote s.toList
    · exact ⟨_, _, hquote, by decide⟩
    · exact ⟨_, _, hquote, by decide⟩
  | whole n => exact (numeric_whole n).exists_head
  | real x =>
    obtain ⟨q, hx, hpos, -⟩ := h
    exact (numeric_real hx hpos).exists_head
  | flag b => cases b <;> exact ⟨_, _, rfl, by decide⟩

/-! ## Lines -/

/-- In a line that does not start with a blank `skipSpaces` has none to skip. -/
theorem skipSpaces_cons {c : Char} (hspace : c ≠ ' ') (htab : c ≠ '\t') (rest : List Char) :
    skipSpaces (c :: rest) = c :: rest := by
  rw [skipSpaces, List.dropWhile_cons_of_neg]
  simp [hspace, htab]

/-- `readValue` reads the value of an entry as its scalar, since no bracket opens an array or a
table. -/
theorem readValue_write {s : Scalar} (h : s.Readable) (levels : ℕ) (rest : List Char) :
    readValue levels (s.write ++ '\n' :: rest) = some (.scalar s, '\n' :: rest) := by
  have hread := readScalar_write h rest
  obtain ⟨c, tail, hwrite, hc⟩ := exists_head_write h
  simp only [List.mem_cons, List.not_mem_nil, or_false, not_or] at hc
  rw [hwrite, List.cons_append] at hread ⊢
  rw [readValue.eq_def]
  split <;> simp_all

/-- A key that needs no quotes: it has some characters, and each of them `isBare`. -/
def Bare (key : String) : Prop :=
  key.toList ≠ [] ∧ ∀ c ∈ key.toList, isBare c = true

/-- Whether a key is `Bare` is decided character by character. -/
instance (key : String) : Decidable (Bare key) :=
  decidable_of_iff ((!key.toList.isEmpty && key.toList.all isBare) = true) (by
    rw [Bool.and_eq_true, List.all_eq_true, Bool.not_eq_true', List.isEmpty_eq_false_iff, Bare])

/-- `readSimpleKey` ends a key that is `Bare` at the first character that is not. -/
theorem readSimpleKey_append {key : String} (h : Bare key) {c : Char} (hc : isBare c = false)
    (rest : List Char) : readSimpleKey (key.toList ++ c :: rest) = some (key, c :: rest) := by
  obtain ⟨hne, hbare⟩ := h
  -- the key takes its own characters and ends at the one that follows
  have htake : (key.toList ++ c :: rest).takeWhile isBare = key.toList := by
    rw [List.takeWhile_append_of_pos hbare, List.takeWhile_cons_of_neg (by simp [hc]),
      List.append_nil]
  have hdrop : (key.toList ++ c :: rest).dropWhile isBare = c :: rest := by
    rw [List.dropWhile_append_of_pos hbare, List.dropWhile_cons_of_neg (by simp [hc])]
  rw [readSimpleKey, htake, hdrop]
  split
  · next hnil => exact absurd hnil hne
  · rw [String.ofList_toList]

/-- A character that `isBare` is none that is not. -/
theorem ne_of_isBare {c d : Char} (h : isBare c = true) (hd : isBare d = false) : c ≠ d := by
  rintro rfl
  rw [h] at hd
  cases hd

/-- A `Bare` key starts with a character that stands in no other place. -/
theorem Bare.exists_cons {key : String} (h : Bare key) :
    ∃ c tail, key.toList = c :: tail ∧ isBare c = true := by
  obtain ⟨c, tail, hcons⟩ := List.exists_cons_of_ne_nil h.1
  exact ⟨c, tail, hcons, h.2 c (hcons ▸ List.mem_cons_self)⟩

/-- `skipSpaces` finds no blank in front of a `Bare` key. -/
theorem skipSpaces_bare {key : String} (h : Bare key) (rest : List Char) :
    skipSpaces (key.toList ++ rest) = key.toList ++ rest := by
  obtain ⟨c, tail, hcons, hc⟩ := h.exists_cons
  rw [hcons, List.cons_append,
    skipSpaces_cons (ne_of_isBare hc (by decide)) (ne_of_isBare hc (by decide))]

/-- `readKey` reads a key that stands alone up to what follows it behind blanks. -/
theorem readKey_bare {key : String} (h : Bare key) (most : ℕ) {c d : Char} {tail : List Char}
    (hc : isBare c = false) (hskip : skipSpaces (c :: rest) = d :: tail) (hd : d ≠ '.') :
    readKey (most + 1) (key.toList ++ c :: rest) = some (([], key), d :: tail) := by
  rw [readKey, skipSpaces_bare h, readSimpleKey_append h hc]
  simp only [bind, Option.bind_some, hskip]
  split
  · next heq =>
    injection heq with heq
    exact absurd heq hd
  · rfl

/-- `readStatement` reads a header and the end of its line. -/
theorem readStatement_header {name : String} (h : Bare name) (rest : List Char) :
    readStatement ('[' :: (name.toList ++ ']' :: '\n' :: rest)) =
      some (.openTable [] name, rest) := by
  have hkey : readKey (nestingLimit - 1) (name.toList ++ ']' :: '\n' :: rest) =
      some (([], name), ']' :: '\n' :: rest) :=
    readKey_bare h _ (by decide) rfl (by decide)
  obtain ⟨c, tail, hcons, hc⟩ := h.exists_cons
  rw [readStatement, hkey]
  · rfl
  · rw [hcons]
    intro _ heq
    injection heq with heq
    exact ne_of_isBare hc (by decide) heq

/-- `readStatement` reads an entry and the end of its line. -/
theorem readStatement_entry {key : String} {s : Scalar} (hkey : Bare key) (hs : s.Readable)
    (rest : List Char) :
    readStatement (writeEntry (key, s) ++ rest) = some (.assign [] key (.scalar s), rest) := by
  have htext : writeEntry (key, s) ++ rest =
      key.toList ++ ' ' :: '=' :: ' ' :: (s.write ++ '\n' :: rest) := by
    simp [writeEntry]
  have hread : readKey (nestingLimit - 1) (key.toList ++ ' ' :: '=' :: ' ' ::
      (s.write ++ '\n' :: rest)) = some (([], key), '=' :: ' ' :: (s.write ++ '\n' :: rest)) :=
    readKey_bare hkey _ (by decide) rfl (by decide)
  have hskip : skipSpaces (' ' :: (s.write ++ '\n' :: rest)) = s.write ++ '\n' :: rest := by
    obtain ⟨c, tail, hwrite, hc⟩ := exists_head_write hs
    simp only [List.mem_cons, List.not_mem_nil, or_false, not_or] at hc
    rw [hwrite, List.cons_append]
    exact skipSpaces_cons hc.1 hc.2.1 _
  have htarget : readTarget (key.toList ++ ' ' :: '=' :: ' ' :: (s.write ++ '\n' :: rest)) =
      some (([], key), s.write ++ '\n' :: rest) := by
    rw [readTarget, hread]
    simp only [bind, Option.bind_some, hskip]
  have hhead : ∀ tail,
      key.toList ++ ' ' :: '=' :: ' ' :: (s.write ++ '\n' :: rest) ≠ '[' :: tail := by
    obtain ⟨c, tail, hcons, hc⟩ := hkey.exists_cons
    rw [hcons]
    intro _ heq
    injection heq with heq
    exact ne_of_isBare hc (by decide) heq
  -- neither bracket that could open a header starts an entry
  rw [htext, readStatement, htarget]
  · simp only [bind, Option.bind_some, readValue_write hs]
    rfl
  · exact fun tail => hhead _
  · exact hhead

/-! ## Documents -/

/-- `readStatements` reads the text as the statements, with any fuel that its length leaves. -/
def Lines (text : List Char) (statements : List Statement) : Prop :=
  ∀ fuel, text.length < fuel → readStatements fuel text = some statements

/-- A text without `Lines` has no statements. -/
theorem lines_nil : Lines [] [] := by
  intro fuel hfuel
  obtain ⟨fuel, rfl⟩ := Nat.exists_eq_succ_of_ne_zero hfuel.ne'
  rfl

/-- An empty line in front of some `Lines` adds no statement. -/
theorem Lines.newline {text : List Char} {statements : List Statement} (h : Lines text statements) :
    Lines ('\n' :: text) statements := by
  intro fuel hfuel
  obtain ⟨fuel, rfl⟩ := Nat.exists_eq_succ_of_ne_zero (Nat.ne_zero_of_lt hfuel)
  exact h fuel (by simpa using hfuel)

/-- `readLineEnd` takes what a statement starts with for no line end. -/
theorem readLineEnd_eq_none {c : Char} (hc : c ∉ [' ', '\t', '#', '\n', '\r']) (tail : List Char) :
    readLineEnd (c :: tail) = none := by
  simp only [List.mem_cons, List.not_mem_nil, or_false, not_or] at hc
  obtain ⟨hspace, htab, hhash, hnewline, hreturn⟩ := hc
  -- neither a comment nor a line feed starts here
  rw [readLineEnd, skipSpaces_cons hspace htab, skipComment]
  · dsimp only
    rw [readNewline]
    · intro _ h
      injection h with h
      exact hnewline h
    · intro _ h
      injection h with h
      exact hreturn h
  · intro _ h
    injection h with h
    exact hhash h

/-- A line in front of some `Lines` adds the statement that `readStatement` reads from it. -/
theorem Lines.statement {c : Char} {tail : List Char} {statement : Statement}
    {statements : List Statement} (hc : c ∉ [' ', '\t', '#', '\n', '\r'])
    (hread : readStatement (c :: (tail ++ rest)) = some (statement, rest))
    (h : Lines rest statements) : Lines (c :: (tail ++ rest)) (statement :: statements) := by
  intro fuel hfuel
  -- there is fuel for one more line, and what the line takes leaves enough for the rest
  obtain ⟨fuel, rfl⟩ := Nat.exists_eq_succ_of_ne_zero (Nat.ne_zero_of_lt hfuel)
  have hend := readLineEnd_eq_none hc (tail ++ rest)
  have hrest : readStatements fuel rest = some statements := by
    refine h fuel ?_
    rw [List.length_cons, List.length_append] at hfuel
    omega
  simp only [List.mem_cons, List.not_mem_nil, or_false, not_or] at hc
  rw [Nat.succ_eq_add_one, readStatements, skipSpaces_cons hc.1 hc.2.1]
  simp only [hend, hread, hrest, bind, Option.bind_some]

/-- A section that can be written and read back: its keys are `Bare`, and its values `Readable`. -/
structure OrderlySection (sect : String × List (String × Scalar)) : Prop where
  bare_name : Bare sect.1
  bare_key : ∀ entry ∈ sect.2, Bare entry.1
  nodup_keys : (keys sect.2).Nodup
  readable : ∀ entry ∈ sect.2, entry.2.Readable

/-- A document that can be written and read back: each section is so as an `OrderlySection`, and no
name comes twice. -/
structure Orderly (sections : List (String × List (String × Scalar))) : Prop where
  nodup_names : (keys sections).Nodup
  orderly : ∀ sect ∈ sections, OrderlySection sect

/-- A `Section` of values that are scalars. -/
def Section.ofScalars (sect : String × List (String × Scalar)) : Section :=
  (sect.1, sect.2.map fun (key, s) => (key, .scalar s))

/-- The lines of `writeEntry` are read as assignments, one after the other. -/
theorem lines_entries {entries : List (String × Scalar)} {statements : List Statement}
    (hkeys : ∀ entry ∈ entries, Bare entry.1) (hscalars : ∀ entry ∈ entries, entry.2.Readable)
    (h : Lines rest statements) :
    Lines (entries.flatMap writeEntry ++ rest)
      ((entries.map fun (key, s) => Statement.assign [] key (.scalar s)) ++ statements) := by
  -- induction on the entries, one line each
  induction entries with
  | nil => exact h
  | cons entry entries ih =>
    obtain ⟨key, s⟩ := entry
    obtain ⟨hkey, hkeys⟩ := List.forall_mem_cons.mp hkeys
    obtain ⟨hs, hscalars⟩ := List.forall_mem_cons.mp hscalars
    have hread := readStatement_entry hkey hs (entries.flatMap writeEntry ++ rest)
    obtain ⟨c, tail, hcons, hc⟩ := hkey.exists_cons
    have hline : ∃ tail, writeEntry (key, s) = c :: tail := by
      rw [writeEntry, hcons]
      exact ⟨_, rfl⟩
    obtain ⟨tail, hline⟩ := hline
    rw [hline, List.cons_append] at hread
    rw [List.flatMap_cons, hline, List.append_assoc, List.cons_append]
    refine Lines.statement ?_ hread (ih hkeys hscalars)
    intro hmem
    simp only [List.mem_cons, List.not_mem_nil, or_false] at hmem
    obtain rfl | rfl | rfl | rfl | rfl := hmem <;> exact absurd hc (by decide)

/-- The lines of `writeSection` are read as the statements of the section. -/
theorem lines_section {sect : String × List (String × Scalar)} {statements : List Statement}
    (hsect : OrderlySection sect) (h : Lines rest statements) :
    Lines (writeSection sect ++ rest) ((Section.ofScalars sect).statements ++ statements) := by
  -- the header, then the lines of the entries
  have hread := readStatement_header hsect.bare_name (sect.2.flatMap writeEntry ++ rest)
  have hlines := lines_entries hsect.bare_key hsect.readable h
  have htext : writeSection sect ++ rest =
      '[' :: ((sect.1.toList ++ [']', '\n']) ++ (sect.2.flatMap writeEntry ++ rest)) := by
    simp [writeSection]
  rw [htext, Section.statements, Section.ofScalars, List.map_map]
  refine Lines.statement (by decide) ?_ hlines
  rw [List.append_assoc]
  exact hread

/-- The `Lines` of a document are read as the statements of its sections, one after the other. -/
theorem lines_document {sections : List (String × List (String × Scalar))}
    (h : ∀ sect ∈ sections, OrderlySection sect) :
    Lines (['\n'].intercalate (sections.map writeSection))
      ((sections.map Section.ofScalars).flatMap Section.statements) := by
  induction sections with
  | nil => exact lines_nil
  | cons sect sections ih =>
    obtain ⟨hsect, hsections⟩ := List.forall_mem_cons.mp h
    rw [List.map_cons, List.map_cons, List.flatMap_cons]
    cases sections with
    | nil => simpa using lines_section hsect lines_nil
    | cons sect' sections =>
      -- a blank line stands between one section and the next
      simpa using lines_section hsect (ih hsections).newline

/-- `write` gives a document exactly if all its scalars can be written. -/
theorem write_isSome_iff {sections : List (String × List (String × Scalar))} :
    (write sections).isSome = true ↔
      ∀ sect ∈ sections, ∀ entry ∈ sect.2, entry.2.fits = true := by
  rw [write, Option.isSome_ite]
  simp only [List.all_eq_true]

/-- `read` gives back the sections of a document that `write` gives, as tables. -/
theorem read_write {sections : List (String × List (String × Scalar))} (h : Orderly sections)
    {document : String} (hwrite : write sections = some document) :
    read document = some (sections.map fun sect =>
      (sect.1, .table (sect.2.map fun (key, s) => (key, .scalar s)))) := by
  have htext : document.toList = ['\n'].intercalate (sections.map writeSection) := by
    rw [write] at hwrite
    split at hwrite
    · rw [← Option.some.inj hwrite, String.toList_ofList]
    · cases hwrite
  -- the text is empty or starts with a header
  have hmark : skipMark document.toList = document.toList := by
    rw [htext]
    match sections with
    | [] => rfl
    | [_] => rfl
    | _ :: _ :: _ => rfl
  have hnames : (keys (sections.map Section.ofScalars)).Nodup := by
    simpa [keys, Section.ofScalars, Function.comp_def] using h.nodup_names
  have hkeys : ∀ sect ∈ sections.map Section.ofScalars, (keys sect.2).Nodup := by
    intro sect hsect
    obtain ⟨sect, hmem, rfl⟩ := List.mem_map.mp hsect
    simpa [keys, Section.ofScalars, Function.comp_def] using (h.orderly sect hmem).nodup_keys
  have hread := lines_document h.orderly
  rw [← htext] at hread
  rw [read]
  dsimp only
  rw [hmark, hread _ (Nat.lt_succ_self _)]
  simp only [bind, Option.bind_some]
  rw [assemble_statements _ hnames hkeys]
  simp [Section.ofScalars, Function.comp_def]

end Utterance.Toml
