import Mathlib.Data.List.Basic
import Utterance.Text.Utf8

/-!
# UTF-8 both ways

The decoder reads the bytes of a character one at a time and keeps in a `Partial` what it has of it.
Whatever bytes it still accepts then complete the encoding of one character, and so the bytes that
are decoded are those of the text that comes out.

## Key results

- `decodeFrom_encodeChar`: the bytes of a character are decoded to it
- `Completes.of_lead`: the bytes that are accepted after a leading byte complete a character
- `decodeUtf8_eq_ok_iff`: decoding is the inverse of encoding
- `mem_encodeUtf8_iff`: which texts have a line feed among their bytes
-/

namespace Utterance.Text

open String (utf8EncodeChar)

/-! ## The bytes of a text -/

/-- `ByteArray.toList` goes through the array from the front and adds what is left of it. -/
theorem toList_loop (bytes : ByteArray) (i : ℕ) (front : List UInt8) :
    ByteArray.toList.loop bytes i front = front.reverse ++ bytes.data.toList.drop i := by
  fun_induction ByteArray.toList.loop bytes i front with
  | case1 i front hi ih =>
    have hlength : i < bytes.data.toList.length := by simpa using hi
    rw [ih, List.drop_eq_getElem_cons hlength]
    simp [ByteArray.get!, hi]
  | case2 i front hi =>
    rw [List.drop_eq_nil_of_le (by simpa using Nat.le_of_not_lt hi)]
    simp

/-- The bytes of `encodeUtf8` are those of the characters, one after the other. -/
theorem encodeUtf8_eq_flatMap (text : String) :
    encodeUtf8 text = text.toList.flatMap utf8EncodeChar := by
  have hbytes : text.toUTF8 = (text.toList.flatMap utf8EncodeChar).toByteArray := by
    rw [String.toUTF8_eq_toByteArray, ← List.utf8Encode, ← String.toByteArray_ofList,
      String.ofList_toList]
  rw [encodeUtf8, hbytes, ByteArray.toList, toList_loop, List.toList_data_toByteArray]
  rfl

/-- The bytes that `encodeUtf8` gives for one text and another come one after the other. -/
theorem encodeUtf8_append (text text' : String) :
    encodeUtf8 (text ++ text') = encodeUtf8 text ++ encodeUtf8 text' := by
  simp only [encodeUtf8_eq_flatMap, String.toList_append, List.flatMap_append]

/-! ## Characters -/

/-- A valid code point is the number of its character: `Char.toNat` is inverse to `Char.ofNat`. -/
theorem toNat_ofNat {n : ℕ} (h : n.isValidChar) : (Char.ofNat n).toNat = n := by
  rw [Char.ofNat, dif_pos h]
  rfl

/-- What is below 256 is the number of its byte: `UInt8.toNat` is inverse to `UInt8.ofNat`. -/
theorem toNat_byte {n : ℕ} (h : n < 256) : (UInt8.ofNat n).toNat = n :=
  UInt8.toNat_ofNat_of_lt' h

section Lengths

variable {n : ℕ} (hvalid : n.isValidChar)

include hvalid

/-- Below 128 `utf8EncodeChar` gives one byte, the number of the character. -/
theorem encodeChar_one (h : n < 0x80) : utf8EncodeChar (Char.ofNat n) = [.ofNat n] := by
  have hn : (Char.ofNat n).val.toNat = n := toNat_ofNat hvalid
  simp only [utf8EncodeChar, hn, if_pos (Nat.le_of_lt_succ h)]

/-- Below 2048 `utf8EncodeChar` gives two bytes. -/
theorem encodeChar_two (h : 0x80 ≤ n) (h' : n < 0x800) :
    utf8EncodeChar (Char.ofNat n) = [.ofNat (n / 64 + 0xc0), .ofNat (n % 64 + 0x80)] := by
  have hn : (Char.ofNat n).val.toNat = n := toNat_ofNat hvalid
  have hhigh : n / 64 % 32 = n / 64 := by omega
  simp only [utf8EncodeChar, hn, if_neg (show ¬n ≤ 0x7f by omega),
    if_pos (Nat.le_of_lt_succ h'), hhigh]

/-- Below 65536 `utf8EncodeChar` gives three bytes. -/
theorem encodeChar_three (h : 0x800 ≤ n) (h' : n < 0x10000) :
    utf8EncodeChar (Char.ofNat n) =
      [.ofNat (n / 4096 + 0xe0), .ofNat (n / 64 % 64 + 0x80), .ofNat (n % 64 + 0x80)] := by
  have hn : (Char.ofNat n).val.toNat = n := toNat_ofNat hvalid
  have hhigh : n / 4096 % 16 = n / 4096 := by omega
  simp only [utf8EncodeChar, hn, if_neg (show ¬n ≤ 0x7f by omega),
    if_neg (show ¬n ≤ 0x7ff by omega), if_pos (Nat.le_of_lt_succ h'), hhigh]

/-- For any other character `utf8EncodeChar` gives four bytes. -/
theorem encodeChar_four (h : 0x10000 ≤ n) :
    utf8EncodeChar (Char.ofNat n) =
      [.ofNat (n / 262144 + 0xf0), .ofNat (n / 4096 % 64 + 0x80), .ofNat (n / 64 % 64 + 0x80),
        .ofNat (n % 64 + 0x80)] := by
  have hn : (Char.ofNat n).val.toNat = n := toNat_ofNat hvalid
  have hhigh : n / 262144 % 8 = n / 262144 := by
    simp only [Nat.isValidChar] at hvalid
    omega
  simp only [utf8EncodeChar, hn, if_neg (show ¬n ≤ 0x7f by omega),
    if_neg (show ¬n ≤ 0x7ff by omega), if_neg (show ¬n ≤ 0xffff by omega), hhigh]

end Lengths

/-! ## Decoding what is encoded -/

/-- The character that a leading byte opens, as `Partial.ofLead` has it: the second byte is limited
where the first one alone does not rule out a surrogate, a code point that is too large, or one that
fewer bytes can encode. -/
theorem Partial.ofLead_eq (b : ℕ) :
    Partial.ofLead b =
      if b < 0xc2 then none
      else if b < 0xe0 then some ⟨b - 0xc0, 1, 1, 0x80, 0xbf⟩
      else if b < 0xf0 then
        some ⟨b - 0xe0, 1, 2, if b = 0xe0 then 0xa0 else 0x80, if b = 0xed then 0x9f else 0xbf⟩
      else if b < 0xf5 then
        some ⟨b - 0xf0, 1, 3, if b = 0xf0 then 0x90 else 0x80, if b = 0xf4 then 0x8f else 0xbf⟩
      else none := by
  unfold Partial.ofLead
  grind

section Steps

variable {index value taken missing low high n m : ℕ} {rest : List UInt8}

/-- `decodeFrom` takes a byte below 128 for its character. -/
theorem decodeFrom_single (h : n < 0x80) :
    decodeFrom index none (.ofNat n :: rest) =
      (decodeFrom (index + 1) none rest).map (Char.ofNat n :: ·) := by
  have hbyte := toNat_byte (show n < 256 by omega)
  simp only [decodeFrom, hbyte, if_pos h]

/-- A leading byte opens a character, which `decodeFrom` reads with the bytes behind it. -/
theorem decodeFrom_lead (hmin : 0x80 ≤ n) (hmax : n < 256) {p : Partial}
    (h : Partial.ofLead n = some p) :
    decodeFrom index none (.ofNat n :: rest) = decodeFrom index (some p) rest := by
  have hbyte := toNat_byte hmax
  simp only [decodeFrom, hbyte, if_neg (Nat.not_lt.mpr hmin), h]

/-- A byte that others follow gives `decodeFrom` six more bits for the open character. -/
theorem decodeFrom_next (hlow : low ≤ m % 64 + 0x80) (hhigh : m % 64 + 0x80 ≤ high) :
    decodeFrom index (some ⟨value, taken, missing + 2, low, high⟩)
        (.ofNat (m % 64 + 0x80) :: rest) =
      decodeFrom index (some ⟨value * 64 + m % 64, taken + 1, missing + 1, 0x80, 0xbf⟩) rest := by
  have hbyte := toNat_byte (show m % 64 + 0x80 < 256 by omega)
  have hrange : ¬(m % 64 + 0x80 < low || high < m % 64 + 0x80) = true := by simp [hlow, hhigh]
  simp only [decodeFrom, hbyte, if_neg hrange, Nat.add_sub_cancel]
  rfl

/-- The last byte gives `decodeFrom` the last six bits, and closes the character. -/
theorem decodeFrom_last (hlow : low ≤ m % 64 + 0x80) (hhigh : m % 64 + 0x80 ≤ high) :
    decodeFrom index (some ⟨value, taken, 1, low, high⟩) (.ofNat (m % 64 + 0x80) :: rest) =
      (decodeFrom (index + taken + 1) none rest).map (Char.ofNat (value * 64 + m % 64) :: ·) := by
  have hbyte := toNat_byte (show m % 64 + 0x80 < 256 by omega)
  have hrange : ¬(m % 64 + 0x80 < low || high < m % 64 + 0x80) = true := by simp [hlow, hhigh]
  simp only [decodeFrom, hbyte, if_neg hrange, Nat.add_sub_cancel]
  rfl

end Steps

/-- `decodeFrom` decodes the bytes of a character to it. -/
theorem decodeFrom_encodeChar (index : ℕ) (c : Char) (rest : List UInt8) :
    decodeFrom index none (utf8EncodeChar c ++ rest) =
      (decodeFrom (index + (utf8EncodeChar c).length) none rest).map (c :: ·) := by
  obtain ⟨n, hvalid, rfl⟩ : ∃ n : ℕ, n.isValidChar ∧ c = Char.ofNat n :=
    ⟨c.toNat, c.valid, c.ofNat_toNat.symm⟩
  have hbound := hvalid
  simp only [Nat.isValidChar] at hbound
  -- by the number of bytes: the first one keeps the high bits, and each of the others six more
  by_cases hone : n < 0x80
  · rw [encodeChar_one hvalid hone, List.singleton_append, decodeFrom_single hone]
    rfl
  by_cases htwo : n < 0x800
  · have hlead := Partial.ofLead_eq (n / 64 + 0xc0)
    rw [if_neg (by omega), if_pos (by omega), Nat.add_sub_cancel] at hlead
    have hvalue : n / 64 * 64 + n % 64 = n := by omega
    rw [encodeChar_two hvalid (by omega) htwo, List.cons_append, List.singleton_append,
      decodeFrom_lead (by omega) (by omega) hlead, decodeFrom_last (by omega) (by omega), hvalue]
    rfl
  by_cases hthree : n < 0x10000
  · have hlead := Partial.ofLead_eq (n / 4096 + 0xe0)
    rw [if_neg (by omega), if_neg (by omega), if_pos (by omega), Nat.add_sub_cancel] at hlead
    have hvalue : (n / 4096 * 64 + n / 64 % 64) * 64 + n % 64 = n := by omega
    rw [encodeChar_three hvalid (by omega) hthree, List.cons_append, List.cons_append,
      List.singleton_append, decodeFrom_lead (by omega) (by omega) hlead,
      decodeFrom_next (by split <;> omega) (by split <;> omega),
      decodeFrom_last (by omega) (by omega), hvalue]
    rfl
  · have hlead := Partial.ofLead_eq (n / 262144 + 0xf0)
    rw [if_neg (by omega), if_neg (by omega), if_neg (by omega), if_pos (by omega),
      Nat.add_sub_cancel] at hlead
    have hvalue : ((n / 262144 * 64 + n / 4096 % 64) * 64 + n / 64 % 64) * 64 + n % 64 = n := by
      omega
    rw [encodeChar_four hvalid (by omega), List.cons_append, List.cons_append, List.cons_append,
      List.singleton_append, decodeFrom_lead (by omega) (by omega) hlead,
      decodeFrom_next (by split <;> omega) (by split <;> omega),
      decodeFrom_next (by omega) (by omega), decodeFrom_last (by omega) (by omega), hvalue]
    rfl

/-! ## Encoding what is decoded -/

/-- Every byte that is accepted next leads on to the bytes of one character, of which `before` has
been read. -/
inductive Completes : Partial → List UInt8 → Prop
  | last {p : Partial} {before : List UInt8} (hmissing : p.missing = 1)
      (h : ∀ byte : UInt8, p.low ≤ byte.toNat → byte.toNat ≤ p.high →
        utf8EncodeChar (Char.ofNat (p.value * 64 + (byte.toNat - 0x80))) = before ++ [byte]) :
      Completes p before
  | next {p : Partial} {before : List UInt8} (hmissing : p.missing ≠ 1)
      (h : ∀ byte : UInt8, p.low ≤ byte.toNat → byte.toNat ≤ p.high →
        Completes { value := p.value * 64 + (byte.toNat - 0x80), taken := p.taken + 1,
                    missing := p.missing - 1 } (before ++ [byte])) :
      Completes p before

/-- `UInt8.ofNat` of the number of a byte is that byte. -/
theorem ofNat_eq {n : ℕ} {byte : UInt8} (h : n = byte.toNat) : UInt8.ofNat n = byte :=
  h ▸ UInt8.ofNat_toNat

/-- Whatever is accepted after a leading byte `Completes` a character. -/
theorem Completes.of_lead {byte : UInt8} {p : Partial}
    (h : Partial.ofLead byte.toNat = some p) : Completes p [byte] := by
  have hbyte := byte.toNat_lt
  rw [Partial.ofLead_eq] at h
  -- by the number of bytes, in the ranges in which `Partial.ofLead_eq` has the leading byte
  split at h
  · nomatch h
  split at h
  · rw [← Option.some.inj h]
    refine .last rfl fun second hlow hhigh => ?_
    dsimp only at hlow hhigh ⊢
    rw [encodeChar_two (by simp only [Nat.isValidChar]; omega) (by omega) (by omega)]
    simp only [List.cons_append, List.nil_append, List.cons.injEq, and_true]
    exact ⟨ofNat_eq (by omega), ofNat_eq (by omega)⟩
  split at h
  · rw [← Option.some.inj h]
    refine .next (by dsimp only; omega) fun second hlow hhigh =>
      .last rfl fun third hlow' hhigh' => ?_
    dsimp only at hlow hhigh hlow' hhigh' ⊢
    -- neither a surrogate nor a code point that two bytes can encode
    have hsecond : 0x80 ≤ second.toNat ∧ second.toNat ≤ 0xbf ∧
        (byte.toNat = 0xe0 → 0xa0 ≤ second.toNat) ∧ (byte.toNat = 0xed → second.toNat ≤ 0x9f) := by
      split at hlow <;> split at hhigh <;> omega
    rw [encodeChar_three (by simp only [Nat.isValidChar]; omega) (by omega) (by omega)]
    simp only [List.cons_append, List.nil_append, List.cons.injEq, and_true]
    exact ⟨ofNat_eq (by omega), ofNat_eq (by omega), ofNat_eq (by omega)⟩
  split at h
  · rw [← Option.some.inj h]
    refine .next (by dsimp only; omega) fun second hlow hhigh =>
      .next (by dsimp only; omega) fun third hlow' hhigh' =>
        .last rfl fun fourth hlow'' hhigh'' => ?_
    dsimp only at hlow hhigh hlow' hhigh' hlow'' hhigh'' ⊢
    -- neither too large nor a code point that three bytes can encode
    have hsecond : 0x80 ≤ second.toNat ∧ second.toNat ≤ 0xbf ∧
        (byte.toNat = 0xf0 → 0x90 ≤ second.toNat) ∧ (byte.toNat = 0xf4 → second.toNat ≤ 0x8f) := by
      split at hlow <;> split at hhigh <;> omega
    rw [encodeChar_four (by simp only [Nat.isValidChar]; omega) (by omega)]
    simp only [List.cons_append, List.nil_append, List.cons.injEq, and_true]
    exact ⟨ofNat_eq (by omega), ofNat_eq (by omega), ofNat_eq (by omega), ofNat_eq (by omega)⟩
  · nomatch h

/-- What has been read when a character is open, which it `Completes`, or none is. -/
def Pending : Option Partial → List UInt8 → Prop
  | none, before => before = []
  | some p, before => Completes p before

/-- What `Except.map` gives with a character in front is that character and what is decoded without
it. -/
theorem exists_of_map_cons {chars : List Char} {c : Char} {decoded : Except Utf8Fault (List Char)}
    (h : decoded.map (c :: ·) = .ok chars) : ∃ rest, decoded = .ok rest ∧ chars = c :: rest := by
  cases decoded with
  | error fault => nomatch h
  | ok rest => exact ⟨rest, rfl, (Except.ok.inj h).symm⟩

/-- The bytes that `decodeFrom` decodes are those of the characters that come out. -/
theorem of_decodeFrom {index : ℕ} {opened : Option Partial} {before bytes : List UInt8}
    {chars : List Char} (h : decodeFrom index opened bytes = .ok chars)
    (hpending : Pending opened before) : before ++ bytes = chars.flatMap utf8EncodeChar := by
  fun_induction decodeFrom index opened bytes generalizing before chars with
  | case1 =>
    rw [show before = [] from hpending, ← Except.ok.inj h]
    rfl
  | case2 | case4 | case6 => nomatch h
  | case3 =>
    -- a character of one byte
    rename_i byte _ _ hbyte ih
    obtain ⟨chars, hrest, rfl⟩ := exists_of_map_cons h
    have hone := encodeChar_one (n := byte.toNat) (by simp only [Nat.isValidChar]; omega) hbyte
    rw [show before = [] from hpending, List.flatMap_cons, hone, ← ih hrest rfl, UInt8.ofNat_toNat]
    rfl
  | case5 =>
    -- a leading byte
    rename_i hlead ih
    rw [show before = [] from hpending]
    exact ih h (Completes.of_lead hlead)
  | case7 =>
    -- the last byte of a character
    rename_i byte rest _ p hrange _ hmissing ih
    obtain ⟨chars, hrest, rfl⟩ := exists_of_map_cons h
    obtain ⟨hlow, hhigh⟩ : p.low ≤ byte.toNat ∧ byte.toNat ≤ p.high := by simpa using hrange
    cases show Completes p before from hpending with
    | next hmissing' => exact absurd hmissing hmissing'
    | last _ hlast =>
      rw [List.flatMap_cons, hlast byte hlow hhigh, ← ih hrest rfl, List.append_assoc]
      rfl
  | case8 =>
    -- one more byte of a character, which others follow
    rename_i byte rest _ p hrange _ hmissing ih
    obtain ⟨hlow, hhigh⟩ : p.low ≤ byte.toNat ∧ byte.toNat ≤ p.high := by simpa using hrange
    cases show Completes p before from hpending with
    | last hmissing' => exact absurd hmissing' hmissing
    | next _ hnext =>
      rw [← ih h (hnext byte hlow hhigh), List.append_assoc]
      rfl

/-- `decodeFrom` decodes the bytes of characters to them. -/
theorem decodeFrom_encodeChars (index : ℕ) (chars : List Char) :
    decodeFrom index none (chars.flatMap utf8EncodeChar) = .ok chars := by
  induction chars generalizing index with
  | nil => rfl
  | cons c rest ih =>
    rw [List.flatMap_cons, decodeFrom_encodeChar, ih]
    rfl

/-- `decodeUtf8` is the inverse of `encodeUtf8`, and refuses what is not the encoding of a text. -/
theorem decodeUtf8_eq_ok_iff {bytes : List UInt8} {text : String} :
    decodeUtf8 bytes = .ok text ↔ encodeUtf8 text = bytes := by
  rw [encodeUtf8_eq_flatMap, decodeUtf8]
  constructor
  · -- reading bytes gives characters that encode to them
    intro h
    cases hchars : decodeFrom 0 none bytes with
    | error fault => simp [hchars, Except.map] at h
    | ok chars =>
      have htext : String.ofList chars = text := by simpa [hchars, Except.map] using h
      have hbytes : [] ++ bytes = chars.flatMap utf8EncodeChar := of_decodeFrom hchars rfl
      rw [← htext, String.toList_ofList, ← hbytes, List.nil_append]
  · rintro rfl
    rw [decodeFrom_encodeChars, Except.map, String.ofList_toList]

/-- `decodeUtf8` takes the bytes of `encodeUtf8` back to their text. -/
theorem decodeUtf8_encodeUtf8 (text : String) : decodeUtf8 (encodeUtf8 text) = .ok text :=
  decodeUtf8_eq_ok_iff.mpr rfl

/-! ## Line feeds -/

/-- All bytes that `utf8EncodeChar` gives from 128 on are from 128 on themselves. -/
theorem le_of_mem_encodeChar {n : ℕ} (hvalid : n.isValidChar) (h : 0x80 ≤ n) {byte : UInt8}
    (hmem : byte ∈ utf8EncodeChar (Char.ofNat n)) : 0x80 ≤ byte.toNat := by
  have hbound := hvalid
  simp only [Nat.isValidChar] at hbound
  have htail : ∀ k, (UInt8.ofNat (k % 64 + 0x80)).toNat = k % 64 + 0x80 := fun k =>
    toNat_byte (by omega)
  -- by the number of bytes; each of them carries the high bit
  by_cases htwo : n < 0x800
  · rw [encodeChar_two hvalid h htwo] at hmem
    have hlead := toNat_byte (show n / 64 + 0xc0 < 256 by omega)
    simp only [List.mem_cons, List.not_mem_nil, or_false] at hmem
    obtain rfl | rfl := hmem
    all_goals simp only [hlead, htail]; omega
  by_cases hthree : n < 0x10000
  · rw [encodeChar_three hvalid (by omega) hthree] at hmem
    have hlead := toNat_byte (show n / 4096 + 0xe0 < 256 by omega)
    simp only [List.mem_cons, List.not_mem_nil, or_false] at hmem
    obtain rfl | rfl | rfl := hmem
    all_goals simp only [hlead, htail]; omega
  · rw [encodeChar_four hvalid (by omega)] at hmem
    have hlead := toNat_byte (show n / 262144 + 0xf0 < 256 by omega)
    simp only [List.mem_cons, List.not_mem_nil, or_false] at hmem
    obtain rfl | rfl | rfl | rfl := hmem
    all_goals simp only [hlead, htail]; omega

/-- A byte below 128 is all that `utf8EncodeChar` gives for its character, and no part of another
one. -/
theorem mem_encodeChar_iff {n : ℕ} (h : n < 0x80) {c : Char} :
    UInt8.ofNat n ∈ utf8EncodeChar c ↔ c = Char.ofNat n := by
  have hbyte := toNat_byte (show n < 256 by omega)
  constructor
  · intro hmem
    obtain ⟨m, hvalid, rfl⟩ : ∃ m : ℕ, m.isValidChar ∧ c = Char.ofNat m :=
      ⟨c.toNat, c.valid, c.ofNat_toNat.symm⟩
    -- of the longer encodings no byte is ASCII
    by_cases hone : m < 0x80
    · rw [encodeChar_one hvalid hone, List.mem_singleton, ← UInt8.toNat_inj, hbyte,
        toNat_byte (by omega)] at hmem
      rw [hmem]
    · have hle := le_of_mem_encodeChar hvalid (Nat.not_lt.mp hone) hmem
      omega
  · rintro rfl
    rw [encodeChar_one (by simp only [Nat.isValidChar]; omega) h]
    exact List.mem_singleton_self _

/-- A byte below 128 is among those of `encodeUtf8` exactly if its character is in the text. -/
theorem mem_encodeUtf8_iff {n : ℕ} (h : n < 0x80) {text : String} :
    UInt8.ofNat n ∈ encodeUtf8 text ↔ Char.ofNat n ∈ text.toList := by
  simp [encodeUtf8_eq_flatMap, List.mem_flatMap, mem_encodeChar_iff h]

/-- A line with the line feed that ends it goes through `decodeUtf8` as the line does. -/
theorem toOption_decodeUtf8_lineFeed (line : List UInt8) :
    (decodeUtf8 (line ++ [10])).toOption = (decodeUtf8 line).toOption.map (· ++ "\n") := by
  have hfeed : encodeUtf8 "\n" = [10] := by rw [encodeUtf8_eq_flatMap]; rfl
  cases hline : decodeUtf8 line with
  | ok text =>
    have hbytes : encodeUtf8 (text ++ "\n") = line ++ [10] := by
      rw [encodeUtf8_append, hfeed, decodeUtf8_eq_ok_iff.mp hline]
    rw [decodeUtf8_eq_ok_iff.mpr hbytes]
    rfl
  | error fault =>
    cases hended : decodeUtf8 (line ++ [10]) with
    | error fault => rfl
    | ok text =>
      -- the last character must be the line feed, and what comes before it is the line
      have hbytes := decodeUtf8_eq_ok_iff.mp hended
      rw [encodeUtf8_eq_flatMap] at hbytes
      obtain hnil | ⟨init, c, hsplit⟩ := List.eq_nil_or_concat text.toList
      · simp [hnil] at hbytes
      rw [hsplit, List.concat_eq_append, List.flatMap_append, List.flatMap_singleton] at hbytes
      have hlast : (utf8EncodeChar c).getLast? = some 10 := by
        have hlasts := congrArg List.getLast? hbytes
        rwa [List.getLast?_append_of_ne_nil _ String.utf8EncodeChar_ne_nil, List.getLast?_concat]
          at hlasts
      obtain rfl : c = '\n' :=
        (mem_encodeChar_iff (show 10 < 0x80 by omega)).mp (List.mem_of_getLast? hlast)
      have hinit : encodeUtf8 (String.ofList init) = line := by
        rw [encodeUtf8_eq_flatMap, String.toList_ofList]
        exact List.append_cancel_right hbytes
      rw [decodeUtf8_eq_ok_iff.mpr hinit] at hline
      nomatch hline

end Utterance.Text
