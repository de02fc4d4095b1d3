import Utterance.Proofs.Json.Members

/-!
# Readers of values and of members

What is left after reading is no longer than the text was.  So a text bounds the depth of the values
in it, and a value that is read within some depth is read within any depth from the length of its
text on.  Two readers of the members of an object are compared from the end: what the one makes of
all members says which state the other must have reached before each of them.

## Key results

- `readRaw_follows`: reading within different depths
- `skipValue_of_readInner`, `skipValue_of_valued_readScalar`: passing over what can be read
- `Mirrors.readMembers`: a reader of objects that succeeds where another does
-/

namespace Utterance.Json

variable {α β σ ρ τ υ : Type} {text rest : List Char}

/-- A `>>=` succeeds when both parts do. -/
theorem bind_eq_ok_iff {x : Except Fault α} {f : α → Except Fault β} {b : β} :
    x >>= f = .ok b ↔ ∃ a, x = .ok a ∧ f a = .ok b := by
  cases x with
  | error fault => exact iff_of_false nofun nofun
  | ok a =>
    constructor
    · exact fun h => ⟨a, rfl, h⟩
    · rintro ⟨a', ⟨⟩, h⟩
      exact h

/-- A `map` succeeds when what it maps does. -/
theorem map_eq_ok_iff {x : Except Fault α} {f : α → β} {b : β} :
    x.map f = .ok b ↔ ∃ a, x = .ok a ∧ f a = b := by
  cases x <;> simp [Except.map]

/-! ## What is left of a text -/

/-- `skipBlanks` does not make a text longer. -/
theorem length_skipBlanks_le (text : List Char) : (skipBlanks text).length ≤ text.length :=
  (List.dropWhile_suffix _).length_le

/-- `expect` does not make a text longer. -/
theorem length_of_expect {wanted : List Char} (h : expect wanted text = .ok rest) :
    rest.length ≤ text.length := by
  unfold expect at h
  split at h
  · cases h
    exact (List.drop_suffix _ _).length_le
  · cases h

/-- `withPiece` succeeds only on a reading that does. -/
theorem exists_of_withPiece {piece : Piece} {reading : Except Fault (Rest (List Piece))}
    {pieces : List Piece} (h : withPiece piece reading = .ok (pieces, rest)) :
    ∃ others, reading = .ok (others, rest) := by
  cases reading with
  | error fault => cases h
  | ok reading =>
    cases h
    exact ⟨_, rfl⟩

/-- `readPieces` does not make a text longer, by induction along its recursion: every piece takes a
character. -/
theorem length_of_readPieces {pieces : List Piece} (h : readPieces text = .ok (pieces, rest)) :
    rest.length ≤ text.length := by
  -- each piece takes at least one character
  fun_induction readPieces text generalizing pieces with
  | case1 => cases h
  | case2 rest =>
    cases h
    simp
  | case3 a b c d rest hunit => cases h
  | case4 a b c d rest n hunit ih =>
    obtain ⟨others, hothers⟩ := exists_of_withPiece h
    have hle := ih hothers
    simp only [List.length_cons]
    omega
  | case5 c rest hescape => cases h
  | case6 c rest hnot c' hescape ih =>
    obtain ⟨others, hothers⟩ := exists_of_withPiece h
    have hle := ih hothers
    simp only [List.length_cons]
    omega
  | case7 c rest hrefused => cases h
  | case8 c rest hquote hunit hescape hplain ih =>
    obtain ⟨others, hothers⟩ := exists_of_withPiece h
    have hle := ih hothers
    simp only [List.length_cons]
    omega

/-- `readDigits` does not make a text longer. -/
theorem length_readDigits_le (text : List Char) : (readDigits text).2.length ≤ text.length := by
  fun_induction readDigits text with
  | case1 => simp
  | case2 c rest hdigit digits rest' hread ih =>
    rw [hread] at ih
    exact ih.trans (Nat.le_succ _)
  | case3 c rest hother => simp

/-- `readSomeDigits` does not make a text longer. -/
theorem length_of_readSomeDigits {digits : List Nat}
    (h : readSomeDigits text = .ok (digits, rest)) : rest.length ≤ text.length := by
  have hle := length_readDigits_le text
  unfold readSomeDigits at h
  split at h
  · cases h
  · rw [Except.ok.injEq] at h
    rwa [h] at hle

/-- `readWhole` does not make a text longer. -/
theorem length_of_readWhole {digits : List Nat} (h : readWhole text = .ok (digits, rest)) :
    rest.length ≤ text.length := by
  simp only [readWhole, bind_eq_ok_iff] at h
  obtain ⟨⟨digits', rest'⟩, hread, h⟩ := h
  split at h
  · cases h
  · cases h
    exact length_of_readSomeDigits hread

/-- `readFraction` does not make a text longer. -/
theorem length_of_readFraction {digits : List Nat} (h : readFraction text = .ok (digits, rest)) :
    rest.length ≤ text.length := by
  unfold readFraction at h
  split at h
  · have hle := length_of_readSomeDigits h
    simp only [List.length_cons]
    omega
  · cases h
    exact le_rfl

/-- `readExponent` does not make a text longer. -/
theorem length_of_readExponent {exponent : Option (Bool × List Nat)}
    (h : readExponent text = .ok (exponent, rest)) : rest.length ≤ text.length := by
  unfold readExponent at h
  split at h
  · next c rest' =>
    split at h
    · simp only [Except.map] at h
      split at h
      · cases h
      · next reading hread =>
        obtain ⟨digits, rest''⟩ := reading
        cases h
        have hle := length_of_readSomeDigits hread
        -- a sign may stand before the digits
        split at hle <;> simp only [List.length_cons] at hle ⊢ <;> omega
    · cases h
      exact le_rfl
  · cases h
    exact le_rfl

/-- `readNumeral` does not make a text longer: none of its parts does. -/
theorem length_of_readNumeral {n : Numeral} (h : readNumeral text = .ok (n, rest)) :
    rest.length ≤ text.length := by
  simp only [readNumeral, bind_eq_ok_iff] at h
  obtain ⟨⟨whole, text₁⟩, hwhole, ⟨fraction, text₂⟩, hfraction, ⟨exponent, text₃⟩, hexponent, h⟩ :=
    h
  cases h
  have hle₁ := length_of_readWhole hwhole
  have hle₂ : text₂.length ≤ text₁.length := length_of_readFraction hfraction
  have hle₃ : text₃.length ≤ text₂.length := length_of_readExponent hexponent
  -- a sign may stand before the digits
  split at hle₁ <;> simp only [List.length_cons] at hle₁ ⊢ <;> omega

/-- A literal does not make a text longer. -/
theorem length_of_literal {wanted : List Char} {literal raw : Raw}
    (h : (do .ok (literal, ← expect wanted text)) = .ok (raw, rest)) :
    rest.length ≤ text.length := by
  obtain ⟨rest', hread, h⟩ := bind_eq_ok_iff.mp h
  cases h
  exact length_of_expect hread

/-- `readScalar` does not make a text longer. -/
theorem length_of_readScalar {raw : Raw} (h : readScalar text = .ok (raw, rest)) :
    rest.length ≤ text.length := by
  unfold readScalar at h
  split at h
  -- three literals, a text, two characters that open a container, and a number
  · exact (length_of_literal h).trans (Nat.le_succ _)
  · exact (length_of_literal h).trans (Nat.le_succ _)
  · exact (length_of_literal h).trans (Nat.le_succ _)
  · obtain ⟨⟨pieces, rest'⟩, hread, h⟩ := bind_eq_ok_iff.mp h
    cases h
    have hle := length_of_readPieces hread
    simp only [List.length_cons]
    omega
  · cases h
  · cases h
  · obtain ⟨⟨n, rest'⟩, hread, h⟩ := bind_eq_ok_iff.mp h
    cases h
    exact length_of_readNumeral hread

/-- `readKey` does not make a text longer. -/
theorem length_of_readKey {key : List Piece} (h : readKey text = .ok (key, rest)) :
    rest.length ≤ text.length := by
  -- blanks may come in front of the key and in front of the colon
  have hblanks := length_skipBlanks_le text
  unfold readKey at h
  split at h
  · next quoted hquote =>
    rw [hquote, List.length_cons] at hblanks
    obtain ⟨⟨key', text'⟩, hread, h⟩ := bind_eq_ok_iff.mp h
    have hle := length_of_readPieces hread
    have hblanks' := length_skipBlanks_le text'
    simp only at h
    split at h
    · next rest' hcolon =>
      rw [hcolon, List.length_cons] at hblanks'
      cases h
      omega
    · cases h
  · cases h

/-! ## Containers -/

/-- In texts of at most `n` characters, `other` reads what `read` does, and what is left is no
longer than the text was. -/
def Follows (n : ℕ) (read other : List Char → Except Fault (Rest α)) : Prop :=
  ∀ text x rest, text.length ≤ n → read text = .ok (x, rest) →
    other text = .ok (x, rest) ∧ rest.length ≤ text.length

section Containers

variable {n : ℕ}

/-- `Follows` holds of what is made of what has been read. -/
theorem Follows.map {read other : List Char → Except Fault (Rest α)} (h : Follows n read other)
    (f : α → β) :
    Follows n (fun text => (read text).map fun reading => (f reading.1, reading.2))
      (fun text => (other text).map fun reading => (f reading.1, reading.2)) := by
  intro text y rest hlength hread
  obtain ⟨⟨x, rest'⟩, hx, hy⟩ := map_eq_ok_iff.mp hread
  cases hy
  obtain ⟨hother, hshort⟩ := h text x _ hlength hx
  exact ⟨map_eq_ok_iff.mpr ⟨_, hother, rfl⟩, hshort⟩

/-- `readMoreItems` follows itself with another step, if the steps do. -/
theorem readMoreItems_follows {step other : σ → List Char → Except Fault (Rest σ)}
    (h : ∀ state, Follows n (step state) (other state)) (fuel : ℕ) (state : σ) :
    Follows n (readMoreItems step fuel state) (readMoreItems other fuel state) := by
  -- both readers have the same fuel; only what the steps do within it differs
  induction fuel generalizing state with
  | zero => intro text x rest _ hread; cases hread
  | succ fuel ih =>
    intro text x rest hlength hread
    have hblanks := length_skipBlanks_le text
    simp only [readMoreItems, bind_eq_ok_iff] at hread ⊢
    obtain ⟨⟨next, text'⟩, hstep, hread⟩ := hread
    obtain ⟨hother, hshort⟩ := h state _ _ _ (by omega) hstep
    have hblanks' := length_skipBlanks_le text'
    split at hread
    · next rest' hcomma =>
      rw [hcomma, List.length_cons] at hblanks'
      obtain ⟨hmore, hshort'⟩ := ih next _ _ _ (by omega) hread
      refine ⟨⟨_, hother, ?_⟩, by omega⟩
      simp only [hcomma]
      exact hmore
    · next rest' hbracket =>
      rw [hbracket, List.length_cons] at hblanks'
      cases hread
      refine ⟨⟨_, hother, ?_⟩, by omega⟩
      simp only [hbracket]
    · cases hread

/-- `readItems` follows itself with another step, if the steps do. -/
theorem readItems_follows {step other : σ → List Char → Except Fault (Rest σ)}
    (h : ∀ state, Follows n (step state) (other state)) (state : σ) :
    Follows n (readItems step state) (readItems other state) := by
  intro text x rest hlength hread
  -- the opening bracket takes a character, so what is inside is shorter
  have hblanks := length_skipBlanks_le text
  unfold readItems at hread ⊢
  split at hread
  · next rest' hbracket =>
    rw [hbracket, List.length_cons] at hblanks
    cases hread
    exact ⟨rfl, by omega⟩
  · obtain ⟨hmore, hshort⟩ := readMoreItems_follows h _ state _ _ _ (by omega) hread
    exact ⟨hmore, by omega⟩

/-- `readMoreMembers` follows itself with another step, if the steps do. -/
theorem readMoreMembers_follows {step other : σ → List Piece → List Char → Except Fault (Rest σ)}
    (h : ∀ state key, Follows n (step state key) (other state key)) (finish : σ → Except Fault τ)
    (fuel : ℕ) (state : σ) :
    Follows n (readMoreMembers step finish fuel state)
      (readMoreMembers other finish fuel state) := by
  induction fuel generalizing state with
  | zero => intro text x rest _ hread; cases hread
  | succ fuel ih =>
    intro text x rest hlength hread
    simp only [readMoreMembers, bind_eq_ok_iff] at hread ⊢
    obtain ⟨⟨key, text₁⟩, hkey, ⟨next, text₂⟩, hstep, hread⟩ := hread
    have hshort₁ : text₁.length ≤ text.length := length_of_readKey hkey
    simp only at hstep hread
    -- a member takes at least its key, so the step is within the length that it is known for
    have hblanks₁ := length_skipBlanks_le text₁
    obtain ⟨hother, hshort₂⟩ := h state key _ _ _ (by omega) hstep
    have hblanks₂ := length_skipBlanks_le text₂
    split at hread
    · next rest' hcomma =>
      rw [hcomma, List.length_cons] at hblanks₂
      obtain ⟨hmore, hshort⟩ := ih next _ _ _ (by omega) hread
      refine ⟨⟨_, hkey, _, hother, ?_⟩, by omega⟩
      simp only [hcomma]
      exact hmore
    · next rest' hbrace =>
      rw [hbrace, List.length_cons] at hblanks₂
      obtain ⟨result, hfinish, hread⟩ := bind_eq_ok_iff.mp hread
      cases hread
      refine ⟨⟨_, hkey, _, hother, ?_⟩, by omega⟩
      simp only [hbrace]
      exact bind_eq_ok_iff.mpr ⟨_, hfinish, rfl⟩
    · cases hread

/-- `readMembers` follows itself with another step, if the steps do. -/
theorem readMembers_follows {step other : σ → List Piece → List Char → Except Fault (Rest σ)}
    (h : ∀ state key, Follows n (step state key) (other state key)) (finish : σ → Except Fault τ)
    (state : σ) : Follows n (readMembers step finish state) (readMembers other finish state) := by
  intro text x rest hlength hread
  have hblanks := length_skipBlanks_le text
  unfold readMembers at hread ⊢
  split at hread
  · next rest' hbrace =>
    rw [hbrace, List.length_cons] at hblanks
    obtain ⟨result, hfinish, hread'⟩ := bind_eq_ok_iff.mp hread
    cases hread'
    exact ⟨hread, by omega⟩
  · obtain ⟨hmore, hshort⟩ := readMoreMembers_follows h finish _ state _ _ _ (by omega) hread
    exact ⟨hmore, by omega⟩

end Containers

/-! ## Depth -/

/-- Reads an item with `readRaw` in front of those that have been read. -/
def pushItem (levels : ℕ) (items : List Raw) (text : List Char) :
    Except Fault (Rest (List Raw)) := do
  let (item, rest) ← readRaw levels text
  .ok (item :: items, rest)

/-- `pushItem` as a reading with something made of it. -/
theorem pushItem_eq (levels : ℕ) (items : List Raw) :
    pushItem levels items = fun text =>
      (readRaw levels text).map fun reading => (reading.1 :: items, reading.2) := by
  funext text
  unfold pushItem
  cases readRaw levels text <;> rfl

/-- `pushMember` as a reading with something made of it. -/
theorem pushMember_eq (levels : ℕ) (members : List (List Piece × Raw)) (key : List Piece) :
    pushMember levels members key = fun text =>
      (readRaw levels text).map fun reading => ((key, reading.1) :: members, reading.2) := by
  funext text
  unfold pushMember
  cases readRaw levels text <;> rfl

/-- `readRaw` of an array, in terms of `readItems`. -/
theorem readRaw_bracket (levels : ℕ) (text : List Char) :
    readRaw (levels + 1) ('[' :: text) =
      (readItems (pushItem levels) [] text).map fun (items, rest) =>
        (.array items.reverse, rest) := by
  rw [readRaw]
  change (readItems (pushItem levels) [] text >>= fun (items, rest) =>
    (.ok (Raw.array items.reverse, rest) : Except Fault (Rest Raw))) = _
  cases readItems (pushItem levels) [] text <;> rfl

/-- `readRaw` reads a scalar within any depth. -/
theorem readRaw_of_readScalar {raw : Raw} (h : readScalar text = .ok (raw, rest)) (levels : ℕ) :
    readRaw levels text = .ok (raw, rest) := by
  cases text with
  | nil => cases h
  | cons c text =>
    have hbracket : c ≠ '[' := by rintro rfl; cases h
    have hbrace : c ≠ '{' := by rintro rfl; cases h
    rw [readRaw_of_ne hbracket hbrace, h]

/-- Without a level left `readRaw` reads nothing but scalars. -/
theorem readRaw_zero_of_ok {raw : Raw} (h : readRaw 0 text = .ok (raw, rest)) :
    readScalar text = .ok (raw, rest) := by
  cases text with
  | nil => cases h
  | cons c text =>
    have hbracket : c ≠ '[' := by rintro rfl; cases h
    have hbrace : c ≠ '{' := by rintro rfl; cases h
    rwa [readRaw_of_ne hbracket hbrace] at h

/-- What `readRaw` reads is read within any depth that its text cannot exceed. -/
theorem readRaw_follows (levels depth : ℕ) : Follows depth (readRaw levels) (readRaw depth) := by
  -- by the depth within which the value is read; an opening bracket takes a character of the text
  induction levels generalizing depth with
  | zero =>
    intro text raw rest hlength hread
    have hscalar := readRaw_zero_of_ok hread
    exact ⟨readRaw_of_readScalar hscalar depth, length_of_readScalar hscalar⟩
  | succ levels ih =>
    intro text raw rest hlength hread
    cases text with
    | nil => cases hread
    | cons c text =>
      rw [List.length_cons] at hlength ⊢
      obtain ⟨depth, rfl⟩ : ∃ inner, depth = inner + 1 := ⟨depth - 1, by omega⟩
      by_cases hbracket : c = '['
      · subst hbracket
        rw [readRaw_bracket, map_eq_ok_iff] at hread ⊢
        obtain ⟨⟨items, rest'⟩, hitems, hraw⟩ := hread
        cases hraw
        have hpush (items : List Raw) :
            Follows depth (pushItem levels items) (pushItem depth items) := by
          simpa only [pushItem_eq] using (ih depth).map (· :: items)
        obtain ⟨hother, hshort⟩ := readItems_follows hpush [] _ _ _ (by omega) hitems
        exact ⟨⟨_, hother, rfl⟩, by omega⟩
      by_cases hbrace : c = '{'
      · subst hbrace
        rw [readRaw_brace, map_eq_ok_iff] at hread ⊢
        obtain ⟨⟨members, rest'⟩, hmembers, hraw⟩ := hread
        cases hraw
        have hpush (members : List (List Piece × Raw)) (key : List Piece) :
            Follows depth (pushMember levels members key) (pushMember depth members key) := by
          simpa only [pushMember_eq] using (ih depth).map fun item => (key, item) :: members
        obtain ⟨hother, hshort⟩ := readMembers_follows hpush .ok [] _ _ _ (by omega) hmembers
        exact ⟨⟨_, hother, rfl⟩, by omega⟩
      · rw [readRaw_of_ne hbracket hbrace] at hread ⊢
        exact ⟨hread, length_of_readScalar hread⟩

/-! ## Passing over values -/

/-- `valued` succeeds when the value that is read can be represented. -/
theorem valued_eq_ok_iff {reading : Except Fault (Rest Raw)} {value : Value} :
    valued reading = .ok (value, rest) ↔
      ∃ raw, reading = .ok (raw, rest) ∧ raw.value? = some value := by
  cases reading with
  | error fault => exact iff_of_false nofun nofun
  | ok reading =>
    obtain ⟨raw, rest'⟩ := reading
    simp only [valued, bind, Except.bind]
    cases hvalue : raw.value? with
    | none => simp [hvalue]
    | some other => simp [hvalue]; tauto

/-- What `readRaw` reads within some depth `skipValue` passes over. -/
theorem skipValue_of_readRaw {levels : ℕ} {raw : Raw} (h : readRaw levels text = .ok (raw, rest)) :
    skipValue text = .ok rest := by
  obtain ⟨hother, -⟩ := readRaw_follows levels text.length text raw rest le_rfl h
  exact bind_eq_ok_iff.mpr ⟨_, hother, rfl⟩

/-- What `readInner` reads `skipValue` passes over. -/
theorem skipValue_of_readInner {value : Value} (h : readInner text = .ok (value, rest)) :
    skipValue text = .ok rest := by
  obtain ⟨raw, hread, -⟩ := valued_eq_ok_iff.mp h
  exact skipValue_of_readRaw hread

/-- A scalar that is read `skipValue` passes over. -/
theorem skipValue_of_valued_readScalar {value : Value}
    (h : valued (readScalar text) = .ok (value, rest)) : skipValue text = .ok rest := by
  obtain ⟨raw, hread, -⟩ := valued_eq_ok_iff.mp h
  exact skipValue_of_readRaw (readRaw_of_readScalar hread 0)

/-- The value has no entries, so it is read as a scalar. -/
def Value.IsScalar : Value → Prop
  | .array _ | .object _ => False
  | _ => True

/-- An array is no scalar. -/
theorem Raw.not_isScalar_of_array {items : List Raw} {value : Value}
    (h : (Raw.array items).value? = some value) : ¬value.IsScalar := by
  rw [Raw.value?, Option.map_eq_some_iff] at h
  obtain ⟨values, -, rfl⟩ := h
  exact id

/-- An object is no scalar. -/
theorem Raw.not_isScalar_of_object {members : List (List Piece × Raw)} {value : Value}
    (h : (Raw.object members).value? = some value) : ¬value.IsScalar := by
  rw [Raw.value?, Option.map_eq_some_iff] at h
  obtain ⟨values, -, rfl⟩ := h
  exact id

/-- A value without entries is read by `readScalar`: its spelling opens no container. -/
theorem valued_readScalar_of_readInner {value : Value} (hscalar : value.IsScalar)
    (h : readInner text = .ok (value, rest)) : valued (readScalar text) = .ok (value, rest) := by
  obtain ⟨raw, hread, hvalue⟩ := valued_eq_ok_iff.mp h
  refine valued_eq_ok_iff.mpr ⟨raw, ?_, hvalue⟩
  rw [nestingLimit] at hread
  -- only a list and an object are read otherwise, and neither is a scalar
  cases text with
  | nil => cases hread
  | cons c text =>
    by_cases hbracket : c = '['
    · subst hbracket
      rw [readRaw_bracket, map_eq_ok_iff] at hread
      obtain ⟨⟨items, rest'⟩, -, hraw⟩ := hread
      cases hraw
      exact absurd hscalar (Raw.not_isScalar_of_array hvalue)
    by_cases hbrace : c = '{'
    · subst hbrace
      rw [readRaw_brace, map_eq_ok_iff] at hread
      obtain ⟨⟨members, rest'⟩, -, hraw⟩ := hread
      cases hraw
      exact absurd hscalar (Raw.not_isScalar_of_object hvalue)
    · rwa [readRaw_of_ne hbracket hbrace] at hread

/-! ## Readers of objects -/

/-- A reader of objects that other states and another end mirror.  The states are matched from the
end on: where `step` makes `d'` of `d`, and `d'` matches `g'`, the other step makes `g'` of a state
that matches `d`. -/
structure Mirrors (matching : σ → ρ → Prop)
    (step : σ → List Piece → List Char → Except Fault (Rest σ)) (finish : σ → Except Fault τ)
    (other : ρ → List Piece → List Char → Except Fault (Rest ρ)) (finishOther : ρ → Except Fault υ)
    (f : τ → υ) : Prop where
  step : ∀ {d key text d' rest g'}, step d key text = .ok (d', rest) → matching d' g' →
    ∃ g, matching d g ∧ other g key text = .ok (g', rest)
  finish : ∀ {d x}, finish d = .ok x → ∃ g, matching d g ∧ finishOther g = .ok (f x)

section Mirrors

variable {matching : σ → ρ → Prop} {step : σ → List Piece → List Char → Except Fault (Rest σ)}
  {finish : σ → Except Fault τ} {other : ρ → List Piece → List Char → Except Fault (Rest ρ)}
  {finishOther : ρ → Except Fault υ} {f : τ → υ} {d : σ} {x : τ}

/-- `readMoreMembers`: if the one reader takes the members, so does the other, from a state that
matches. -/
theorem Mirrors.readMoreMembers (hmirrors : Mirrors matching step finish other finishOther f)
    {fuel : ℕ} (h : readMoreMembers step finish fuel d text = .ok (x, rest)) :
    ∃ g, matching d g ∧ readMoreMembers other finishOther fuel g text = .ok (f x, rest) := by
  -- the other state after a member is known before the one in front of it
  induction fuel generalizing d text with
  | zero => cases h
  | succ fuel ih =>
    simp only [Json.readMoreMembers, bind_eq_ok_iff] at h ⊢
    obtain ⟨⟨key, text₁⟩, hkey, ⟨d', text₂⟩, hread, h⟩ := h
    simp only at hread h
    split at h
    · next rest' hcomma =>
      obtain ⟨g', hmatching', hmore⟩ := ih h
      obtain ⟨g, hmatching, hother⟩ := hmirrors.step hread hmatching'
      refine ⟨g, hmatching, _, hkey, _, hother, ?_⟩
      simp only [hcomma]
      exact hmore
    · next rest' hbrace =>
      obtain ⟨result, hdone, h⟩ := bind_eq_ok_iff.mp h
      cases h
      obtain ⟨g', hmatching', hdone'⟩ := hmirrors.finish hdone
      obtain ⟨g, hmatching, hother⟩ := hmirrors.step hread hmatching'
      refine ⟨g, hmatching, _, hkey, _, hother, ?_⟩
      simp only [hbrace]
      exact bind_eq_ok_iff.mpr ⟨_, hdone', rfl⟩
    · cases h

/-- `readMembers`: if the one reader takes the object, so does the other, from a state that
matches. -/
theorem Mirrors.readMembers (hmirrors : Mirrors matching step finish other finishOther f)
    (h : readMembers step finish d text = .ok (x, rest)) :
    ∃ g, matching d g ∧ readMembers other finishOther g text = .ok (f x, rest) := by
  unfold Json.readMembers at h ⊢
  split at h
  · obtain ⟨result, hdone, h⟩ := bind_eq_ok_iff.mp h
    cases h
    obtain ⟨g, hmatching, hdone'⟩ := hmirrors.finish hdone
    exact ⟨g, hmatching, bind_eq_ok_iff.mpr ⟨_, hdone', rfl⟩⟩
  · exact hmirrors.readMoreMembers h

end Mirrors

/-- `readWith` carries over what holds at the start of a text to the whole text. -/
theorem readWith_of_imp {read : List Char → Except Fault (Rest α)}
    {other : List Char → Except Fault (Rest β)} {f : α → β}
    (h : ∀ {text x rest}, read text = .ok (x, rest) → other text = .ok (f x, rest)) {text : String}
    {x : α} (hread : readWith read text = .ok x) : readWith other text = .ok (f x) := by
  obtain ⟨⟨value, rest⟩, hvalue, hrest⟩ := bind_eq_ok_iff.mp hread
  refine bind_eq_ok_iff.mpr ⟨_, h hvalue, ?_⟩
  simp only at hrest ⊢
  split at hrest
  · next hend =>
    cases hrest
    exact if_pos hend
  · cases hrest

end Utterance.Json
