import Mathlib.Tactic.IntervalCases
import Utterance.Json.Value

/-!
# Reading what has been quoted

A text that has been put in quotes is read back as it was.  Its characters are read one at a time,
each from what it was written as, and no character is written as half of a pair.

## Key results

- `readPieces_quoteChar`: a character is read back from what it was written as
- `joinPieces_map_pieceOf`: the pieces that are read make the text again
- `valued_readScalar_quote`: a quoted text is a value, the text
-/

namespace Utterance.Json

/-- What the character `c` is read back as: those that `quoteChar` escapes by number are code
units. -/
def pieceOf (c : Char) : Piece :=
  match c with
  | '\x08' | '\x0c' | '\n' | '\r' | '\t' => .char c
  | c => if c.toNat < 0x20 then .unit c.toNat else .char c

/-- The escape of a control character has its number in hexadecimal. -/
theorem hexValue_control {n : ℕ} (h : n < 0x20) :
    Text.hexValue? ['0', '0', Text.hexDigit (n / 16), Text.hexDigit (n % 16)] = some n := by
  interval_cases n <;> decide

/-- `readPieces` reads a character back from what `quoteChar` wrote it as. -/
theorem readPieces_quoteChar (c : Char) (rest : List Char) :
    readPieces (quoteChar c ++ rest) = withPiece (pieceOf c) (readPieces rest) := by
  unfold quoteChar
  -- seven characters have an escape of their own
  split
  · rfl
  · rfl
  · rfl
  · rfl
  · rfl
  · rfl
  · rfl
  · next hquote hbackslash hb hf hn hr ht =>
    have hpiece : pieceOf c = if c.toNat < 0x20 then .unit c.toNat else .char c := by
      unfold pieceOf
      split <;> first | contradiction | rfl
    rw [hpiece]
    by_cases hcontrol : c.toNat < 0x20
    · rw [if_pos hcontrol, if_pos hcontrol]
      simp only [List.cons_append, List.nil_append, readPieces, hexValue_control hcontrol]
    · rw [if_neg hcontrol, if_neg hcontrol]
      have hplain : ¬(c.toNat < 0x20 ∨ c = '\\') := by
        rintro (h | h)
        · exact hcontrol h
        · exact hbackslash h
      rw [List.singleton_append, readPieces.eq_def]
      split <;> simp_all

/-- `readPieces` reads the characters between quotes up to the closing one. -/
theorem readPieces_flatMap_quoteChar (chars rest : List Char) :
    readPieces (chars.flatMap quoteChar ++ '"' :: rest) = .ok (chars.map pieceOf, rest) := by
  induction chars with
  | nil => rw [List.flatMap_nil, List.nil_append, readPieces, List.map_nil]
  | cons c chars ih =>
    rw [List.flatMap_cons, List.append_assoc, readPieces_quoteChar, ih, List.map_cons]
    rfl

/-- `pieceOf` is no half of a pair: it is a character, or a code unit below all of those. -/
theorem pieceOf_cases (c : Char) :
    pieceOf c = .char c ∨ c.toNat < 0x20 ∧ pieceOf c = .unit c.toNat := by
  -- the short escapes stand for themselves, and only control characters are left
  unfold pieceOf
  split
  · exact .inl rfl
  · exact .inl rfl
  · exact .inl rfl
  · exact .inl rfl
  · exact .inl rfl
  · split
    · next h => exact .inr ⟨h, rfl⟩
    · exact .inl rfl

/-- In `joinPieces`, a code unit that is no half of a pair stands for a character. -/
theorem joinPieces_unit {n : ℕ} (hhigh : isHigh n = false) (hlow : isLow n = false)
    (pieces : List Piece) :
    joinPieces (.unit n :: pieces) = (joinPieces pieces).map (Char.ofNat n :: ·) := by
  match pieces with
  | [] | .char _ :: _ | .unit _ :: _ => simp [joinPieces, hhigh, hlow]

/-- `joinPieces` makes the text again of the pieces that are read. -/
theorem joinPieces_map_pieceOf (chars : List Char) :
    joinPieces (chars.map pieceOf) = some chars := by
  induction chars with
  | nil => rfl
  | cons c chars ih =>
    rw [List.map_cons]
    obtain hchar | ⟨hcontrol, hunit⟩ := pieceOf_cases c
    · rw [hchar, joinPieces, ih, Option.map_some]
    · have hhigh : isHigh c.toNat = false := by simp [isHigh]; omega
      have hlow : isLow c.toNat = false := by simp [isLow]; omega
      rw [hunit, joinPieces_unit hhigh hlow, ih, Option.map_some, Char.ofNat_toNat]

section Quotes

variable (text : String) (rest : List Char)

/-- What `quote` writes, character by character. -/
theorem quote_append :
    quote text ++ rest = '"' :: (text.toList.flatMap quoteChar ++ '"' :: rest) := by
  rw [quote, List.cons_append, List.append_assoc, List.singleton_append]

/-- `readScalar` reads what `quote` wrote as a text. -/
theorem readScalar_quote :
    readScalar (quote text ++ rest) = .ok (.text (text.toList.map pieceOf), rest) := by
  rw [quote_append, readScalar, readPieces_flatMap_quoteChar]
  rfl

/-- The value of the text that is read is the text. -/
theorem value_text : (Raw.text (text.toList.map pieceOf)).value? = some (.text text) := by
  rw [Raw.value?, joinPieces_map_pieceOf, Option.map_some, String.ofList_toList]

/-- What `quote` wrote is a value, the text. -/
theorem valued_readScalar_quote :
    valued (readScalar (quote text ++ rest)) = .ok (.text text, rest) := by
  rw [readScalar_quote]
  simp only [valued, bind, Except.bind, value_text]

/-- `readKey` reads a key and the colon after it. -/
theorem readKey_quote :
    readKey (quote text ++ ':' :: rest) = .ok (text.toList.map pieceOf, rest) := by
  rw [quote_append]
  simp [readKey, skipBlanks, readPieces_flatMap_quoteChar, bind, Except.bind]

/-- `withKey` tells a step that goes by keys the key that was quoted. -/
theorem withKey_map_pieceOf {σ : Type} (step : σ → String → List Char → Except Fault (Rest σ))
    (state : σ) : withKey step state (text.toList.map pieceOf) rest = step state text rest := by
  rw [withKey, joinPieces_map_pieceOf]
  exact congrArg (step state · rest) String.ofList_toList

end Quotes

end Utterance.Json
