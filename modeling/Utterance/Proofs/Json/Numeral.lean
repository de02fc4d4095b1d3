import Mathlib.Data.Nat.Digits.Lemmas
import Utterance.Json.Value

/-!
# Reading whole numbers

A natural number that is written in decimal is read back as it was, up to what follows it.

## Key results

- `readNumeral_toDigits`: the spelling of a natural number
- `value_wholeNumeral`: its value, as long as it fits 64 bits
-/

namespace Utterance.Json

/-- The digits of the natural number `n`, the first of them the highest. -/
def decimalDigits (n : ℕ) : List ℕ :=
  (Nat.toDigits 10 n).map fun c => c.toNat - 48

/-- The spelling of the natural number `n`, without a sign, a fraction and an exponent. -/
def wholeNumeral (n : ℕ) : Numeral :=
  ⟨false, decimalDigits n, [], none⟩

/-! ## Digits -/

/-- The recursion of `decimalDigits`: the last digit is the remainder by ten. -/
theorem decimalDigits_eq (n : ℕ) :
    decimalDigits n = if n < 10 then [n] else decimalDigits (n / 10) ++ [n % 10] := by
  have hdigit : ∀ d < 10, (Nat.digitChar d).toNat - 48 = d := by decide
  rw [decimalDigits, Nat.toDigits_eq_if (by decide)]
  split
  · next h => rw [List.map_singleton, hdigit n h]
  · rw [List.map_append, List.map_singleton, hdigit _ (Nat.mod_lt n (by decide)), decimalDigits]

/-- Every number has a digit. -/
theorem decimalDigits_ne_nil (n : ℕ) : decimalDigits n ≠ [] := by
  simp [decimalDigits, Nat.toDigits_ne_nil]

/-- `digitsValue` undoes `decimalDigits`, by strong induction along its recursion. -/
theorem digitsValue_decimalDigits (n : ℕ) : digitsValue (decimalDigits n) = n := by
  induction n using Nat.strongRecOn with
  | _ n ih =>
    rw [decimalDigits_eq]
    split
    · simp [digitsValue]
    · -- all digits but the last are those of the tenth part
      have hrest := ih (n / 10) (by omega)
      rw [digitsValue] at hrest
      rw [digitsValue, List.foldl_append, hrest]
      simp only [List.foldl_cons, List.foldl_nil]
      omega

/-- The highest of the `decimalDigits` is no zero, unless it is the only one. -/
theorem head_decimalDigits {n : ℕ} (hpos : 0 < n) : (decimalDigits n).head? ≠ some 0 := by
  induction n using Nat.strongRecOn with
  | _ n ih =>
    rw [decimalDigits_eq]
    split
    · simp [hpos.ne']
    · rw [List.head?_append_of_ne_nil _ (decimalDigits_ne_nil _)]
      exact ih (n / 10) (by omega) (by omega)

/-! ## Reading -/

/-- A digit is a character from `0` to `9`. -/
theorem isDigit_iff {c : Char} : c.isDigit = true ↔ '0' ≤ c ∧ c ≤ '9' := by
  simp only [Char.isDigit, ge_iff_le, Bool.and_eq_true, decide_eq_true_eq, Char.le_def]

/-- `readDigits` reads digits up to a character that is none. -/
theorem readDigits_append {digits rest : List Char} (hdigits : ∀ c ∈ digits, c.isDigit = true)
    (hrest : ∀ c ∈ rest.head?, c.isDigit = false) :
    readDigits (digits ++ rest) = (digits.map fun c => c.toNat - 48, rest) := by
  induction digits with
  | nil =>
    cases rest with
    | nil => rfl
    | cons c rest =>
      have hc := hrest c rfl
      rw [List.nil_append, readDigits, if_neg (mt isDigit_iff.mpr (by simp [hc])), List.map_nil]
  | cons c digits ih =>
    obtain ⟨hc, hdigits⟩ := List.forall_mem_cons.mp hdigits
    rw [List.cons_append, readDigits, if_pos (isDigit_iff.mp hc), ih hdigits, List.map_cons]

section Numerals

variable (n : ℕ) {rest : List Char}

/-- `readWhole` reads the digits of a number: only that of 0 starts with a zero. -/
theorem readWhole_toDigits (hrest : ∀ c ∈ rest.head?, c.isDigit = false) :
    readWhole (Nat.toDigits 10 n ++ rest) = .ok (decimalDigits n, rest) := by
  have hdigits := readDigits_append
    (fun c (hc : c ∈ Nat.toDigits 10 n) => Nat.isDigit_of_mem_toDigits (by decide) le_rfl hc) hrest
  have hsome : readSomeDigits (Nat.toDigits 10 n ++ rest) = .ok (decimalDigits n, rest) := by
    rw [readSomeDigits, hdigits]
    split
    · next hnil => exact absurd (congrArg Prod.fst hnil) (decimalDigits_ne_nil n)
    · rfl
  -- a zero in front of other digits is refused, and there is none
  have hzeros : ¬((decimalDigits n).head? = some 0 ∧ 1 < (decimalDigits n).length) := by
    rintro ⟨hhead, hlength⟩
    obtain rfl : n = 0 := by
      by_contra hne
      exact head_decimalDigits (Nat.pos_of_ne_zero hne) hhead
    simp [decimalDigits_eq] at hlength
  rw [readWhole, hsome]
  exact if_neg hzeros

/-- `readNumeral` reads a number from its digits if no more digits follow, no point and no
exponent. -/
theorem readNumeral_toDigits
    (hrest : ∀ c ∈ rest.head?, c.isDigit = false ∧ c ≠ '.' ∧ c ≠ 'e' ∧ c ≠ 'E') :
    readNumeral (Nat.toDigits 10 n ++ rest) = .ok (wholeNumeral n, rest) := by
  have hwhole := readWhole_toDigits n fun c hc => (hrest c hc).1
  -- what follows is no fraction, since it does not start with a point
  have hfraction : readFraction rest = .ok ([], rest) := by
    cases rest with
    | nil => rfl
    | cons c rest =>
      rw [readFraction]
      rintro tail ⟨⟩
      exact (hrest _ rfl).2.1 rfl
  have hexponent : readExponent rest = .ok (none, rest) := by
    cases rest with
    | nil => rfl
    | cons c rest =>
      obtain ⟨-, -, hlower, hupper⟩ := hrest c rfl
      unfold readExponent
      exact if_neg (by simp [hlower, hupper])
  -- the first digit is no sign
  obtain ⟨c, digits, hcons⟩ := List.exists_cons_of_ne_nil (Nat.toDigits_ne_nil (n := n) (b := 10))
  have hsign : c ≠ '-' := by
    rintro rfl
    have hdigit : ('-' : Char).isDigit = true :=
      Nat.isDigit_of_mem_toDigits (by decide) le_rfl (hcons ▸ List.mem_cons_self)
    exact absurd hdigit (by decide)
  rw [hcons, List.cons_append] at hwhole ⊢
  rw [readNumeral]
  · simp only [bind, Except.bind, hwhole, hfraction, hexponent, wholeNumeral]
  · rintro tail ⟨⟩
    exact hsign rfl

/-- `readScalar` reads a number from a text that starts with a digit. -/
theorem readScalar_of_isDigit {c : Char} (hc : c.isDigit = true) (rest : List Char) :
    readScalar (c :: rest) =
      (readNumeral (c :: rest)).map fun (numeral, rest) => (.number numeral, rest) := by
  have hne : ∀ d : Char, d.isDigit = false → c ≠ d := by
    rintro d hd rfl
    rw [hc] at hd
    cases hd
  -- a digit starts none of the other values, nor a container
  rw [readScalar]
  · cases readNumeral (c :: rest) <;> rfl
  all_goals rintro tail ⟨⟩
  · exact hne 'n' rfl rfl
  · exact hne 't' rfl rfl
  · exact hne 'f' rfl rfl
  · exact hne '"' rfl rfl
  · exact hne '[' rfl rfl
  · exact hne '\x7b' rfl rfl

/-- A number that fits 64 bits has itself as the `value` of its spelling. -/
theorem value_wholeNumeral {n : ℕ} (h : n < UInt64.size) :
    (wholeNumeral n).value = some (.whole n) := by
  simp [Numeral.value, wholeNumeral, digitsValue_decimalDigits, h]

end Numerals

end Utterance.Json
