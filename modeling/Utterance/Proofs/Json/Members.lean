import Utterance.Proofs.Json.Numeral
import Utterance.Proofs.Json.Quoted

/-!
# Reading objects

An object is read member by member.  Where the step of a reader takes every member from what is
written for it, the reader takes the object; and an object of written values is read as their
object.

## Key results

- `readMembers_of_takesAll`: an object whose members are taken one after the other
- `valued_readRaw_object`: an object of values that are read as they were written
-/

namespace Utterance.Json

variable {σ τ : Type} {step : σ → List Piece → List Char → Except Fault (Rest σ)}
  (finish : σ → Except Fault τ) {state next last : σ}

/-- A member of an object is over before `rest`: a comma or the closing brace follows. -/
def Stops (rest : List Char) : Prop :=
  rest.head? = some ',' ∨ rest.head? = some '\x7d'

/-- The member with its key in quotes and what is written for its value. -/
def spell (member : String × List Char) : List Char :=
  quote member.1 ++ ':' :: member.2

/-- The members with commas between them. -/
def spellAll (members : List (String × List Char)) : List Char :=
  [','].intercalate (members.map spell)

/-- The step takes a member from what is written for it, whatever comes after. -/
def Takes (step : σ → List Piece → List Char → Except Fault (Rest σ)) (state : σ)
    (member : String × List Char) (next : σ) : Prop :=
  ∀ rest, Stops rest → skipBlanks (member.2 ++ rest) = member.2 ++ rest ∧
    step state (member.1.toList.map pieceOf) (member.2 ++ rest) = .ok (next, rest)

/-- The step `Takes` the members one after the other. -/
inductive TakesAll (step : σ → List Piece → List Char → Except Fault (Rest σ)) :
    σ → List (String × List Char) → σ → Prop
  | nil (state : σ) : TakesAll step state [] state
  | cons {state next last : σ} {member : String × List Char} {members : List (String × List Char)}
      (h : Takes step state member next) (hrest : TakesAll step next members last) :
      TakesAll step state (member :: members) last

/-! ## Members -/

/-- `spellAll` puts a comma after a member that is not the last one. -/
theorem spellAll_cons (member : String × List Char) {members : List (String × List Char)}
    (hne : members ≠ []) :
    spellAll (member :: members) = spell member ++ ',' :: spellAll members := by
  rw [spellAll, List.map_cons, List.intercalate_cons_of_ne_nil (by simpa using hne)]
  simp [spellAll]

/-- What `spellAll` writes for some members starts with a quote. -/
theorem exists_spellAll_append {members : List (String × List Char)} (hne : members ≠ [])
    (rest : List Char) : ∃ tail, spellAll members ++ rest = '"' :: tail := by
  obtain ⟨member, members, rfl⟩ := List.exists_cons_of_ne_nil hne
  by_cases hnil : members = []
  · rw [hnil, spellAll, List.map_singleton, List.intercalate_singleton]
    exact ⟨_, rfl⟩
  · rw [spellAll_cons member hnil]
    exact ⟨_, rfl⟩

/-- A member takes at least one character, so the fuel of `readMembers` is enough. -/
theorem length_le_length_spellAll (members : List (String × List Char)) :
    members.length ≤ (spellAll members).length := by
  induction members with
  | nil => exact Nat.zero_le _
  | cons member members ih =>
    -- the last member has no comma after it
    by_cases hnil : members = []
    · simp only [hnil, spellAll, spell, List.map_singleton, List.intercalate_singleton,
        List.length_append, List.length_cons, List.length_nil]
      omega
    · rw [spellAll_cons member hnil]
      simp only [List.length_cons, List.length_append]
      omega

section Takes

variable {member : String × List Char} (h : Takes step state member next) (fuel : ℕ)
  (rest : List Char)

include h

/-- `readMoreMembers` takes a member with a comma after it and goes on. -/
theorem Takes.readMoreMembers_comma :
    readMoreMembers step finish (fuel + 1) state (spell member ++ ',' :: rest) =
      readMoreMembers step finish fuel next rest := by
  obtain ⟨hstart, hstep⟩ := h (',' :: rest) (.inl rfl)
  have hblanks : skipBlanks (',' :: rest) = ',' :: rest := rfl
  rw [readMoreMembers, spell, List.append_assoc, List.cons_append, readKey_quote]
  simp only [bind, Except.bind, hstart, hstep, hblanks]

/-- `readMoreMembers` takes the last member, with the closing brace, and finishes. -/
theorem Takes.readMoreMembers_brace :
    readMoreMembers step finish (fuel + 1) state (spell member ++ '}' :: rest) =
      (finish next).map (·, rest) := by
  obtain ⟨hstart, hstep⟩ := h ('}' :: rest) (.inr rfl)
  have hblanks : skipBlanks ('}' :: rest) = '}' :: rest := rfl
  rw [readMoreMembers, spell, List.append_assoc, List.cons_append, readKey_quote]
  simp only [bind, Except.bind, hstart, hstep, hblanks]
  cases finish next <;> rfl

end Takes

/-- `readMoreMembers` takes members up to the closing brace, by induction on how they are taken. -/
theorem TakesAll.readMoreMembers {members : List (String × List Char)}
    (h : TakesAll step state members last) (hne : members ≠ []) {fuel : ℕ}
    (hfuel : members.length ≤ fuel) (rest : List Char) :
    readMoreMembers step finish fuel state (spellAll members ++ '}' :: rest) =
      (finish last).map (·, rest) := by
  induction h generalizing fuel with
  | nil => exact absurd rfl hne
  | @cons state next last member members h hrest ih =>
    obtain ⟨fuel, rfl⟩ := Nat.exists_eq_add_one.mpr
      ((Nat.succ_pos members.length).trans_le hfuel)
    -- fuel is spent on each member, and the brace after the last one takes none
    by_cases hnil : members = []
    · cases hrest with
      | cons => cases hnil
      | nil =>
        rw [spellAll, List.map_singleton, List.intercalate_singleton,
          h.readMoreMembers_brace finish fuel rest]
    · rw [spellAll_cons member hnil, List.append_assoc, List.cons_append,
        h.readMoreMembers_comma finish fuel]
      exact ih hnil (Nat.le_of_succ_le_succ hfuel)

/-- `readMembers` reads an object whose members are taken one after the other. -/
theorem readMembers_of_takesAll {members : List (String × List Char)}
    (h : TakesAll step state members last) (hne : members ≠ []) (rest : List Char) :
    readMembers step finish state (spellAll members ++ '}' :: rest) =
      (finish last).map (·, rest) := by
  have hfuel : members.length ≤ (spellAll members ++ '}' :: rest).length + 1 := by
    have hlength := length_le_length_spellAll members
    rw [List.length_append]
    omega
  have hread := h.readMoreMembers finish hne hfuel rest
  -- the object is not empty, so its closing brace is not what follows at once
  obtain ⟨tail, htail⟩ := exists_spellAll_append hne ('}' :: rest)
  rw [htail] at hread ⊢
  exact hread

/-! ## Values -/

/-- The value is read from `spelled`, what is written for it in an object. -/
def Spells (spelled : List Char) (value : Value) : Prop :=
  ∃ raw : Raw, raw.value? = some value ∧ ∀ levels rest, Stops rest →
    skipBlanks (spelled ++ rest) = spelled ++ rest ∧
      readRaw levels (spelled ++ rest) = .ok (raw, rest)

/-- `readRaw` reads a value that does not open a container as a scalar. -/
theorem readRaw_of_ne {c : Char} (hbracket : c ≠ '[') (hbrace : c ≠ '{') (levels : ℕ)
    (rest : List Char) : readRaw levels (c :: rest) = readScalar (c :: rest) := by
  rw [readRaw] <;> simp [hbracket, hbrace]

/-- A quoted text `Spells` the text. -/
theorem spells_quote (text : String) : Spells (quote text) (.text text) := by
  refine ⟨_, value_text text, fun levels rest _ => ?_⟩
  have hscalar := readScalar_quote text rest
  rw [quote_append] at hscalar ⊢
  exact ⟨rfl, (readRaw_of_ne (by decide) (by decide) levels _).trans hscalar⟩

/-- Digits spell a number that fits 64 bits. -/
theorem spells_toDigits {n : ℕ} (h : n < UInt64.size) :
    Spells (Nat.toDigits 10 n) (.number (.whole n)) := by
  refine ⟨.number (wholeNumeral n), by rw [Raw.value?, value_wholeNumeral h, Option.map_some],
    fun levels rest hrest => ?_⟩
  -- what may follow a value ends a numeral
  have hend : ∀ c ∈ rest.head?, c.isDigit = false ∧ c ≠ '.' ∧ c ≠ 'e' ∧ c ≠ 'E' := by
    intro c hc
    obtain h | h := hrest <;> rw [h] at hc <;> cases hc <;> decide
  have hnumeral := readNumeral_toDigits n hend
  obtain ⟨c, digits, hcons⟩ := List.exists_cons_of_ne_nil (Nat.toDigits_ne_nil (n := n) (b := 10))
  have hdigit : c.isDigit = true :=
    Nat.isDigit_of_mem_toDigits (by decide) le_rfl (hcons ▸ List.mem_cons_self)
  rw [hcons, List.cons_append] at hnumeral ⊢
  -- a digit opens neither a blank nor a list nor an object
  have hne : ∀ d : Char, d.isDigit = false → c ≠ d := by
    rintro d hd rfl
    rw [hdigit] at hd
    cases hd
  refine ⟨?_, ?_⟩
  · simp [skipBlanks, hne ' ' rfl, hne '\t' rfl, hne '\n' rfl, hne '\r' rfl]
  · rw [readRaw_of_ne (hne '[' rfl) (hne '{' rfl), readScalar_of_isDigit hdigit, hnumeral]
    rfl

/-- Reads a member with `readRaw` in front of those that have been read. -/
def pushMember (levels : ℕ) (members : List (List Piece × Raw)) (key : List Piece)
    (text : List Char) : Except Fault (Rest (List (List Piece × Raw))) := do
  let (item, rest) ← readRaw levels text
  .ok ((key, item) :: members, rest)

/-- `readRaw` of an object, in terms of `readMembers`. -/
theorem readRaw_brace (levels : ℕ) (text : List Char) :
    readRaw (levels + 1) ('{' :: text) =
      (readMembers (pushMember levels) .ok [] text).map fun (members, rest) =>
        (.object members.reverse, rest) := by
  rw [readRaw]
  change (readMembers (pushMember levels) .ok [] text >>= fun (members, rest) =>
    (.ok (Raw.object members.reverse, rest) : Except Fault (Rest Raw))) = _
  cases readMembers (pushMember levels) .ok [] text <;> rfl

/-- `pushMember` takes written values as members, by induction on them. -/
theorem exists_takesAll {members : List (String × List Char × Value)}
    (h : ∀ member ∈ members, Spells member.2.1 member.2.2) (levels : ℕ)
    (state : List (List Piece × Raw)) :
    ∃ raws : List (List Piece × Raw),
      TakesAll (pushMember levels) state (members.map fun member => (member.1, member.2.1))
        (raws.reverse ++ state) ∧
      Raw.memberValues? raws = some (members.map fun member => (member.1, member.2.2)) := by
  induction members generalizing state with
  | nil => exact ⟨[], .nil state, by rw [Raw.memberValues?]; rfl⟩
  | cons member members ih =>
    -- members are pushed in front, so they come out in reverse
    obtain ⟨⟨raw, hvalue, hread⟩, hmembers⟩ := List.forall_mem_cons.mp h
    obtain ⟨raws, htakes, hvalues⟩ := ih hmembers ((member.1.toList.map pieceOf, raw) :: state)
    refine ⟨(member.1.toList.map pieceOf, raw) :: raws, ?_, ?_⟩
    · rw [List.reverse_cons, List.append_assoc, List.singleton_append, List.map_cons]
      refine .cons (fun rest hrest => ?_) htakes
      obtain ⟨hstart, hraw⟩ := hread levels rest hrest
      exact ⟨hstart, by simp only [pushMember, hraw, bind, Except.bind]⟩
    · rw [Raw.memberValues?, hvalue, hvalues, joinPieces_map_pieceOf]
      simp [String.ofList_toList]

/-- `readRaw` of an object of values that are read as they were written. -/
theorem valued_readRaw_object {members : List (String × List Char × Value)}
    (h : ∀ member ∈ members, Spells member.2.1 member.2.2) (hne : members ≠ []) (levels : ℕ)
    (rest : List Char) :
    valued (readRaw (levels + 1)
      ('{' :: (spellAll (members.map fun member => (member.1, member.2.1)) ++ '}' :: rest))) =
        .ok (.object (members.map fun member => (member.1, member.2.2)), rest) := by
  obtain ⟨raws, htakes, hvalues⟩ := exists_takesAll h levels []
  have hread := readMembers_of_takesAll .ok htakes (by simpa using hne) rest
  rw [readRaw_brace, hread, List.append_nil]
  simp [valued, bind, Except.bind, Except.map, Raw.value?, hvalues]

end Utterance.Json
