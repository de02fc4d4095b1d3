import Utterance.Proofs.Decimal
import Utterance.Proofs.Json.Numeral
import Utterance.Toml.Moment
import Utterance.Toml.Sections

/-!
# Reading numbers

The numbers of a document end at the end of their lines.  A whole number is read back from its
digits, and a real number from the shortest decimal that rounds to it.

## Key results

- `readMoment_eq_none`: no number is taken for a date or a time
- `readNumber_whole`: a whole number is read back
- `readNumber_real`: a real number is read back
-/

namespace Utterance.Toml

open Json (decimalDigits isDigit_iff)

variable {digits whole fraction rest : List Char}

/-! ## Digits -/

/-- The values of some digits, each as `digit?` has it. -/
def digitValues (digits : List Char) : List ℕ :=
  digits.map fun c => c.toNat - 48

/-- The value that `digit?` finds for a digit is its distance from the zero. -/
theorem digit?_of_isDigit {c : Char} (h : c.isDigit = true) : digit? c = some (c.toNat - 48) :=
  if_pos (isDigit_iff.mp h)

/-- `digit?` finds no value for what is no digit. -/
theorem digit?_eq_none {c : Char} (h : c.isDigit = false) : digit? c = none :=
  if_neg (mt isDigit_iff.mpr (by simp [h]))

/-- A digit, as `isDigit` has it, is none of the other characters. -/
theorem ne_of_isDigit {c d : Char} (h : c.isDigit = true) (hd : d.isDigit = false) : c ≠ d := by
  rintro rfl
  rw [h] at hd
  cases hd

/-- The text does not go on with a digit or an underscore, so a run of digits ends before it. -/
def EndsDigits (rest : List Char) : Prop :=
  ∀ c ∈ rest.head?, c.isDigit = false ∧ c ≠ '_'

/-- `readMoreDigits` reads digits up to what does not go on with one. -/
theorem readMoreDigits_append (hdigits : ∀ c ∈ digits, c.isDigit = true) (hrest : EndsDigits rest) :
    readMoreDigits digit? (digits ++ rest) = some (digitValues digits, rest) := by
  -- induction on the digits; what follows them ends the run
  induction digits with
  | nil =>
    cases rest with
    | nil => rfl
    | cons c rest =>
      obtain ⟨hc, hne⟩ := hrest c rfl
      rw [List.nil_append, readMoreDigits, digit?_eq_none hc]
      · rfl
      · rintro _ _ rfl
        exact absurd rfl hne
  | cons c digits ih =>
    obtain ⟨hc, hdigits⟩ := List.forall_mem_cons.mp hdigits
    rw [List.cons_append, readMoreDigits, digit?_of_isDigit hc]
    · simp only [ih hdigits]
      rfl
    · rintro _ _ rfl
      exact absurd hc (by decide)

/-- `readDigits` reads at least one digit, up to what does not go on with one. -/
theorem readDigits_append (hne : digits ≠ []) (hdigits : ∀ c ∈ digits, c.isDigit = true)
    (hrest : EndsDigits rest) :
    readDigits digit? (digits ++ rest) = some (digitValues digits, rest) := by
  cases digits with
  | nil => exact absurd rfl hne
  | cons c digits =>
    obtain ⟨hc, hdigits⟩ := List.forall_mem_cons.mp hdigits
    rw [List.cons_append, readDigits, digit?_of_isDigit hc]
    simp only [readMoreDigits_append hdigits hrest]
    rfl

/-- The digits of a whole number as TOML has them: a `0` in front stands alone. -/
structure Plain (digits : List Char) : Prop where
  isDigit : ∀ c ∈ digits, c.isDigit = true
  ne_nil : digits ≠ []
  eq_of_zero : digits.head? = some '0' → digits = ['0']

/-- `readPlain` reads the digits of a whole number, where a zero stands alone. -/
theorem readPlain_append (h : Plain whole) (hrest : EndsDigits rest) :
    readPlain (whole ++ rest) = some (digitValues whole, rest) := by
  by_cases hzero : whole.head? = some '0'
  · rw [h.eq_of_zero hzero]
    rfl
  · rw [readPlain, readDigits_append h.ne_nil h.isDigit hrest]
    intro tail heq
    obtain ⟨c, whole, rfl⟩ := List.exists_cons_of_ne_nil h.ne_nil
    injection heq with heq
    exact hzero (by rw [List.head?_cons, heq])

/-! ## Dates and times -/

section Moments

variable {c : Char} {tail : List Char} {n k : ℕ}

/-- As many characters as `digit?` has values for are digits of the text, if another character ends
these. -/
theorem length_le_of_mapM_digit? {values : List ℕ} (hc : c.isDigit = false)
    (h : ((digits ++ c :: tail).take k).mapM digit? = some values) : k ≤ digits.length := by
  -- the character that is no digit is not among those read
  induction k generalizing digits values with
  | zero => exact Nat.zero_le _
  | succ k ih =>
    cases digits with
    | nil =>
      rw [List.nil_append, List.take_succ_cons, List.mapM_cons, digit?_eq_none hc] at h
      cases h
    | cons d digits =>
      rw [List.cons_append, List.take_succ_cons, List.mapM_cons] at h
      simp only [bind, Option.bind_eq_some_iff] at h
      obtain ⟨_, -, values, hvalues, -⟩ := h
      exact Nat.succ_le_succ (ih hvalues)

/-- `readFixed` ends within the digits of a text. -/
theorem exists_of_readFixed (hc : c.isDigit = false)
    (h : readFixed k (digits ++ c :: tail) = some (n, rest)) :
    k ≤ digits.length ∧ rest = digits.drop k ++ c :: tail := by
  simp only [readFixed] at h
  split at h
  · cases h
  · simp only [bind, Option.bind_eq_some_iff] at h
    obtain ⟨values, hvalues, h⟩ := h
    have hle := length_le_of_mapM_digit? hc hvalues
    obtain ⟨-, rfl⟩ := Prod.mk.inj (Option.some.inj h)
    exact ⟨hle, List.drop_append_of_le_length hle⟩

/-- After a number of fixed length `readMark` finds another digit, or what ends the digits of the
text. -/
theorem readMark_eq_none {mark : Char} (hdigits : ∀ c ∈ digits, c.isDigit = true)
    (hc : c.isDigit = false) (hmark : mark.isDigit = false) (hne : c ≠ mark)
    (h : readFixed k (digits ++ c :: tail) = some (n, rest)) : readMark mark rest = none := by
  obtain ⟨-, rfl⟩ := exists_of_readFixed hc h
  cases hdrop : digits.drop k with
  | nil => exact if_neg hne.symm
  | cons d digits' =>
    have hd : d.isDigit = true := hdigits d (List.mem_of_mem_drop (hdrop ▸ List.mem_cons_self))
    exact if_neg (ne_of_isDigit hd hmark).symm

/-- `readTime` reads nothing from digits that no colon ends. -/
theorem readTime_eq_none (hdigits : ∀ c ∈ digits, c.isDigit = true) (hc : c.isDigit = false)
    (hcolon : c ≠ ':') : readTime (digits ++ c :: tail) = none := by
  -- a time reads two digits and then a colon
  rw [readTime, readPair]
  cases hfixed : readFixed 2 (digits ++ c :: tail) with
  | none => rfl
  | some reading =>
    obtain ⟨hour, rest⟩ := reading
    have hmark : readMark ':' rest = none :=
      readMark_eq_none hdigits hc (by decide) hcolon hfixed
    by_cases hhour : hour ≤ 23
    · simp only [bind, Option.bind_some, if_pos hhour, hmark, Option.bind_none]
    · simp only [bind, Option.bind_some, if_neg hhour, Option.bind_none]

/-- `readMoment` finds neither a date nor a time in what starts like a number. -/
theorem readMoment_eq_none (hdigits : ∀ c ∈ digits, c.isDigit = true) (hc : c.isDigit = false)
    (hcolon : c ≠ ':') (hdash : c = '-' → digits = []) :
    readMoment (digits ++ c :: tail) = none := by
  -- nor is it a date: that reads four digits and then a dash
  have hdate : readDate (digits ++ c :: tail) = none := by
    rw [readDate]
    cases hfixed : readFixed 4 (digits ++ c :: tail) with
    | none => rfl
    | some reading =>
      obtain ⟨year, rest⟩ := reading
      have hne : c ≠ '-' := by
        intro h
        obtain ⟨hlength, -⟩ := exists_of_readFixed hc hfixed
        rw [hdash h] at hlength
        exact absurd hlength (by decide)
      have hmark : readMark '-' rest = none :=
        readMark_eq_none hdigits hc (by decide) hne hfixed
      simp only [bind, Option.bind_some, hmark, Option.bind_none]
  rw [readMoment, hdate]
  exact readTime_eq_none hdigits hc hcolon

end Moments

/-! ## Whole numbers -/

/-- A `Plain` number starts with a digit, and so with no other character. -/
theorem Plain.append_ne_cons (h : Plain whole) {d : Char} (hd : d.isDigit = false)
    (tail : List Char) : whole ++ rest ≠ d :: tail := by
  obtain ⟨c, whole, rfl⟩ := List.exists_cons_of_ne_nil h.ne_nil
  intro heq
  injection heq with heq
  exact ne_of_isDigit (h.isDigit c List.mem_cons_self) hd heq

/-- `Nat.toDigits` gives digits as they may be written. -/
theorem plain_toDigits (n : ℕ) : Plain (Nat.toDigits 10 n) where
  isDigit _ hc := Nat.isDigit_of_mem_toDigits (by decide) le_rfl hc
  ne_nil := Nat.toDigits_ne_nil
  eq_of_zero h := by
    -- the first digit of a positive number is not zero
    have hhead : (decimalDigits n).head? = some 0 := by
      rw [decimalDigits, List.head?_map, h]
      rfl
    obtain rfl : n = 0 := by
      by_contra hne
      exact Json.head_decimalDigits (Nat.pos_of_ne_zero hne) hhead
    rfl

/-- The sign in front of a number: `-`, or nothing. -/
def signText (negative : Bool) : List Char :=
  if negative then ['-'] else []

/-- `toString` of a whole number is its `signText` and its digits. -/
theorem toList_toString (n : ℤ) :
    (toString n).toList = signText (n < 0) ++ Nat.toDigits 10 n.natAbs := by
  -- the sign, then the digits of the absolute value
  rw [Int.toString_eq_repr, Int.repr_eq_if, signText]
  split
  · next h =>
    rw [Nat.toList_repr, if_neg (by simpa using h), show n.natAbs = n.toNat by omega,
      List.nil_append]
  · next h =>
    rw [String.toList_append, Nat.toList_repr, if_pos (by simpa using h),
      show n.natAbs = (-n).toNat by omega]
    rfl

section Signed

variable (negative : Bool)

/-- `readSign` reads the sign in front of a number, or none. -/
theorem readSign_signText (h : Plain whole) (rest : List Char) :
    readSign (signText negative ++ (whole ++ rest)) = (negative, whole ++ rest) := by
  cases negative with
  | true => rfl
  | false =>
    rw [signText, if_neg (by decide), List.nil_append, readSign]
    · exact fun tail => h.append_ne_cons (by decide) tail
    · exact fun tail => h.append_ne_cons (by decide) tail

/-- A line feed `EndsDigits` that stand in front of it. -/
theorem endsDigits_newline (rest : List Char) : EndsDigits ('\n' :: rest) := by
  rintro c ⟨⟩
  decide

/-- `readReal` does not take a number without places. -/
theorem readReal_eq_none (h : Plain whole) (rest : List Char) :
    readReal (signText negative ++ (whole ++ '\n' :: rest)) = none := by
  rw [readReal, readSign_signText negative h]
  dsimp only
  split
  · next heq => exact absurd heq (h.append_ne_cons (by decide) _)
  · next heq => exact absurd heq (h.append_ne_cons (by decide) _)
  · rw [readPlain_append h (endsDigits_newline rest)]
    rfl

/-- A `Plain` number names no base: behind its sign a zero in front stands alone, where a base is
named by a `0` and another mark. -/
theorem append_ne_based (h : Plain whole) {mark : Char} (hmark : mark ≠ '\n')
    (rest tail : List Char) :
    signText negative ++ (whole ++ '\n' :: rest) ≠ '0' :: mark :: tail := by
  intro heq
  cases negative with
  | true => cases heq
  | false =>
    rw [signText, if_neg (by decide), List.nil_append] at heq
    -- a plain number that starts with a zero is that zero
    have hzero : whole = ['0'] := by
      refine h.eq_of_zero ?_
      obtain ⟨c, whole, rfl⟩ := List.exists_cons_of_ne_nil h.ne_nil
      injection heq with heq
      rw [List.head?_cons, heq]
    rw [hzero] at heq
    injection heq with _ heq
    injection heq with heq
    exact hmark heq.symm

/-- `readWhole` reads a sign and digits as their value, if that is in range. -/
theorem readWhole_append (h : Plain whole) (rest : List Char) :
    readWhole (signText negative ++ (whole ++ '\n' :: rest)) =
      (wholeInRange (if negative then -digitsValue 10 (digitValues whole)
        else digitsValue 10 (digitValues whole))).map (·, '\n' :: rest) := by
  rw [readWhole, readSign_signText negative h]
  · dsimp only
    rw [readPlain_append h (endsDigits_newline rest)]
    simp only [bind, Option.bind_some]
    cases wholeInRange _ <;> rfl
  · exact append_ne_based negative h (by decide) rest
  · exact append_ne_based negative h (by decide) rest
  · exact append_ne_based negative h (by decide) rest

end Signed

/-- `readNumber` reads a whole number back if it is in range. -/
theorem readNumber_whole {n : ℤ} (hfits : (Scalar.whole n).fits = true) (rest : List Char) :
    readNumber ((toString n).toList ++ '\n' :: rest) = some (.whole n, '\n' :: rest) := by
  have hplain := plain_toDigits n.natAbs
  -- its digits stand for its absolute value
  have hvalue : digitsValue 10 (digitValues (Nat.toDigits 10 n.natAbs)) = n.natAbs :=
    Json.digitsValue_decimalDigits n.natAbs
  have hsigned : (if decide (n < 0) then -(n.natAbs : ℤ) else n.natAbs) = n := by
    by_cases h : n < 0
    · rw [if_pos (decide_eq_true h)]
      omega
    · rw [if_neg (by simpa using h)]
      omega
  simp only [Scalar.fits, Bool.and_eq_true, decide_eq_true_eq] at hfits
  rw [toList_toString, List.append_assoc, readNumber, readReal_eq_none _ hplain]
  dsimp only
  rw [readWhole_append _ hplain, hvalue, hsigned, wholeInRange, if_pos hfits]
  rfl

/-! ## Real numbers -/

/-- Each zero behind some digits multiplies their `digitsValue` by ten. -/
theorem digitsValue_append_zeros (digits : List Char) (k : ℕ) :
    digitsValue 10 (digitValues (digits ++ List.replicate k '0')) =
      digitsValue 10 (digitValues digits) * 10 ^ k := by
  induction k with
  | zero => simp
  | succ k ih =>
    rw [List.replicate_succ', ← List.append_assoc, digitValues, List.map_append, digitsValue,
      List.foldl_append]
    rw [digitValues, digitsValue] at ih
    rw [ih, pow_succ, ← mul_assoc]
    rfl

/-- Zeros in front of some digits do not change their `digitsValue`. -/
theorem digitsValue_zeros_append (digits : List Char) (k : ℕ) :
    digitsValue 10 (digitValues (List.replicate k '0' ++ digits)) =
      digitsValue 10 (digitValues digits) := by
  induction k with
  | zero => rfl
  | succ k ih => exact ih

/-- The `Decimal` is written with digits on both sides of the point, of which those in front are
`Plain`. -/
structure Written (d : Decimal) (whole fraction : List Char) : Prop where
  toList_eq : (d.positional ++ if 0 ≤ d.exponent then ".0" else "").toList =
    whole ++ '.' :: fraction
  plain : Plain whole
  ne_nil : fraction ≠ []
  isDigit : ∀ c ∈ fraction, c.isDigit = true
  value_eq : (digitsValue 10 (digitValues (whole ++ fraction)) / 10 ^ fraction.length : ℚ) = d.value

section Written

variable {d : Decimal}

/-- The `digitsValue` of the digits of a number is that number. -/
theorem digitsValue_toDigits (n : ℕ) : digitsValue 10 (digitValues (Nat.toDigits 10 n)) = n :=
  Json.digitsValue_decimalDigits n

/-- All that `List.replicate` makes of a zero are digits. -/
theorem isDigit_of_mem_zeros (k : ℕ) : ∀ c ∈ List.replicate k '0', c.isDigit = true := by
  intro c hc
  rw [List.eq_of_mem_replicate hc]
  decide

/-- `Nat.toDigits` of a positive number does not start with a zero. -/
theorem head_toDigits_ne_zero (hpos : 0 < d.digits) :
    (Nat.toDigits 10 d.digits).head? ≠ some '0' := by
  intro hzero
  have hvalue := digitsValue_toDigits d.digits
  rw [(plain_toDigits d.digits).eq_of_zero hzero] at hvalue
  exact absurd hvalue hpos.ne

/-- A `Decimal` without places is `Written` with a zero after the point. -/
theorem written_of_nonneg (hpos : 0 < d.digits) (hexp : 0 ≤ d.exponent) :
    Written d (Nat.toDigits 10 d.digits ++ List.replicate d.exponent.toNat '0') ['0'] where
  toList_eq := by
    rw [String.toList_append, if_pos hexp, Decimal.positional, if_pos hexp, String.toList_ofList]
    rfl
  plain := by
    have hplain := plain_toDigits d.digits
    refine ⟨List.forall_mem_append.mpr ⟨hplain.isDigit, isDigit_of_mem_zeros _⟩,
      by simp [hplain.ne_nil], ?_⟩
    rw [List.head?_append_of_ne_nil _ hplain.ne_nil]
    exact fun h => absurd h (head_toDigits_ne_zero hpos)
  ne_nil := List.cons_ne_nil _ _
  isDigit := isDigit_of_mem_zeros 1
  value_eq := by
    -- a positive exponent appends that many zeros
    have hpow : (10 : ℚ) ^ d.exponent = 10 ^ d.exponent.toNat := by
      rw [← zpow_natCast, Int.toNat_of_nonneg hexp]
    rw [List.append_assoc, ← List.replicate_succ', digitsValue_append_zeros, digitsValue_toDigits,
      Decimal.value, hpow, pow_succ, List.length_singleton, pow_one]
    push_cast
    rw [← mul_assoc, mul_div_cancel_right₀ _ (by norm_num)]

/-- Any other `Decimal` is `Written` with its last digits after the point, behind zeros if there are
too few. -/
theorem exists_written_of_neg (hpos : 0 < d.digits) (hexp : d.exponent < 0) :
    ∃ whole fraction, Written d whole fraction := by
  have hplain := plain_toDigits d.digits
  obtain ⟨places, hplaces⟩ : ∃ places : ℕ, d.exponent = -(places : ℤ) :=
    ⟨(-d.exponent).toNat, by omega⟩
  set digits := Nat.toDigits 10 d.digits with hdigits
  set padded := List.replicate (places + 1 - digits.length) '0' ++ digits with hpadded
  have hall : ∀ c ∈ padded, c.isDigit = true :=
    List.forall_mem_append.mpr ⟨isDigit_of_mem_zeros _, hplain.isDigit⟩
  have hlength : padded.length = places + 1 - digits.length + digits.length := by
    rw [hpadded, List.length_append, List.length_replicate]
  have hvalue : digitsValue 10 (digitValues padded) = d.digits := by
    rw [hpadded, digitsValue_zeros_append, hdigits, digitsValue_toDigits]
  refine ⟨padded.take (padded.length - places), padded.drop (padded.length - places), ?_, ?_, ?_,
    ?_, ?_⟩
  · have hpositional : d.positional = String.ofList (padded.take (padded.length - places) ++
        '.' :: padded.drop (padded.length - places)) := by
      rw [Decimal.positional, if_neg (not_le.mpr hexp), hplaces]
      simp only [neg_neg, Int.toNat_natCast, hpadded, hdigits]
    rw [if_neg (not_le.mpr hexp), hpositional]
    simp
  · refine ⟨fun c hc => hall c (List.mem_of_mem_take hc), ?_, fun hzero => ?_⟩
    · rw [← List.length_pos_iff, List.length_take]
      omega
    · rw [List.head?_take, if_neg (by omega)] at hzero
      -- only a single zero can stand in front
      rcases Nat.eq_zero_or_pos (places + 1 - digits.length) with hnone | hsome
      · rw [hpadded, hnone, List.replicate_zero, List.nil_append] at hzero
        exact absurd hzero (head_toDigits_ne_zero hpos)
      · obtain ⟨k, hk⟩ := Nat.exists_eq_succ_of_ne_zero hsome.ne'
        rw [show padded.length - places = 1 by omega, hpadded, hk]
        rfl
  · rw [← List.length_pos_iff, List.length_drop]
    omega
  · exact fun c hc => hall c (List.mem_of_mem_drop hc)
  · rw [List.take_append_drop, hvalue, List.length_drop, Decimal.value, hplaces, zpow_neg,
      zpow_natCast, show padded.length - (padded.length - places) = places by omega,
      div_eq_mul_inv]

/-- Every positive `Decimal` is `Written` in one of these two ways. -/
theorem exists_written (hpos : 0 < d.digits) : ∃ whole fraction, Written d whole fraction := by
  rcases lt_or_ge d.exponent 0 with hneg | hnonneg
  · exact exists_written_of_neg hpos hneg
  · exact ⟨_, _, written_of_nonneg hpos hnonneg⟩

end Written

/-- `readReal` reads a number with places as the nearest value. -/
theorem readReal_append (hwhole : Plain whole) (hne : fraction ≠ [])
    (hfraction : ∀ c ∈ fraction, c.isDigit = true) {x : Float}
    (hx : realOf (digitsValue 10 (digitValues (whole ++ fraction))) (-fraction.length) = x)
    (hfinite : x.isInf = false) (rest : List Char) :
    readReal (whole ++ '.' :: (fraction ++ '\n' :: rest)) = some (.real x, '\n' :: rest) := by
  have hsign := readSign_signText false hwhole ('.' :: (fraction ++ '\n' :: rest))
  have hpoint : EndsDigits ('.' :: (fraction ++ '\n' :: rest)) := by
    rintro c ⟨⟩
    decide
  -- the places behind the point end at the line feed
  have hplaces : readPlaces ('.' :: (fraction ++ '\n' :: rest)) =
      some ((digitValues fraction, 0), '\n' :: rest) := by
    rw [readPlaces, readDigits_append hne hfraction (endsDigits_newline rest)]
    rfl
  rw [signText, if_neg (by decide), List.nil_append] at hsign
  rw [readReal, hsign]
  dsimp only
  -- what starts with a digit is neither `inf` nor `nan`
  split
  · next heq => exact absurd heq (hwhole.append_ne_cons (by decide) _)
  · next heq => exact absurd heq (hwhole.append_ne_cons (by decide) _)
  · rw [readPlain_append hwhole hpoint]
    simp only [bind, Option.bind_some, hplaces]
    rw [digitValues, digitValues, List.length_map, ← List.map_append, zero_sub]
    rw [digitValues] at hx
    rw [hx, hfinite]
    rfl

/-- The text of a positive number is that of `Decimal.shortest`. -/
theorem exists_written_double {x : Float} {q : ℚ} (hx : Binary.Stands x q) (hpos : 0 < q) :
    ∃ m e hm whole fraction, x.toModel.unpack = .finite .positive m e hm ∧
      (realLayout.double x).toList = whole ++ '.' :: fraction ∧
      Written (Decimal.shortest .binary64 m e) whole fraction := by
  obtain ⟨m, e, hm, hunpack⟩ := hx.unpack_of_pos hpos
  obtain ⟨whole, fraction, hwritten⟩ :=
    exists_written (Decimal.digits_shortest_pos .binary64 hm e)
  refine ⟨m, e, hm, whole, fraction, hunpack, ?_, hwritten⟩
  rw [← hwritten.toList_eq, Decimal.Layout.double, hunpack]
  simp [Decimal.Layout.write, realLayout]

/-- `readNumber` reads a real number back if it is positive and not too large. -/
theorem readNumber_real {x : Float} {q : ℚ} (hx : Binary.Stands x q) (hpos : 0 < q)
    (hq : q ≤ 2 ^ 255) (rest : List Char) :
    readNumber ((realLayout.double x).toList ++ '\n' :: rest) = some (.real x, '\n' :: rest) := by
  obtain ⟨m, e, hm, whole, fraction, hunpack, htext, hwritten⟩ := exists_written_double hx hpos
  -- a finite value with these digits
  have hinf : x.isInf = false := by
    change x.toModel.unpack.isInf = false
    rw [hunpack]
    rfl
  have hlength : 0 < fraction.length := List.length_pos_iff.mpr hwritten.ne_nil
  have hvalue :
      realOf (digitsValue 10 (digitValues (whole ++ fraction))) (-fraction.length) = x := by
    rw [realOf, decide_eq_true (by omega), Int.natAbs_neg, Int.natAbs_natCast]
    exact Decimal.ofScientific_eq hx hq hunpack hlength hwritten.value_eq
  rw [htext, List.append_assoc, List.cons_append, readNumber,
    readReal_append hwritten.plain hwritten.ne_nil hwritten.isDigit hvalue hinf]

/-! ## The text of numbers -/

/-- A text that starts like a number, from which `readMoment` reads no date or time. -/
structure Numeric (text : List Char) : Prop where
  exists_cons : ∃ c tail, text = c :: tail ∧ (c.isDigit = true ∨ c = '-')
  readMoment_eq : ∀ rest, readMoment (text ++ '\n' :: rest) = none

/-- A `Plain` number starts with a digit, whatever follows it. -/
theorem Plain.exists_cons (h : Plain whole) (rest : List Char) :
    ∃ c tail, whole ++ rest = c :: tail ∧ (c.isDigit = true ∨ c = '-') := by
  obtain ⟨c, tail, rfl⟩ := List.exists_cons_of_ne_nil h.ne_nil
  exact ⟨c, tail ++ rest, rfl, .inl (h.isDigit c List.mem_cons_self)⟩

/-- The text of a whole number is `Numeric`, with a sign or not. -/
theorem numeric_whole (n : ℤ) : Numeric (toString n).toList := by
  have hplain := plain_toDigits n.natAbs
  rw [toList_toString]
  -- either a sign or a digit comes first
  cases decide (n < 0) with
  | true =>
    refine ⟨⟨'-', _, rfl, .inr rfl⟩, fun rest => ?_⟩
    show readMoment ([] ++ '-' :: _) = none
    exact readMoment_eq_none nofun (by decide) (by decide) fun _ => rfl
  | false =>
    refine ⟨?_, fun rest => readMoment_eq_none hplain.isDigit (by decide) (by decide) nofun⟩
    have h := hplain.exists_cons []
    rwa [List.append_nil] at h

/-- The text of a positive real number is `Numeric`. -/
theorem numeric_real {x : Float} {q : ℚ} (hx : Binary.Stands x q) (hpos : 0 < q) :
    Numeric (realLayout.double x).toList := by
  obtain ⟨m, e, hm, whole, fraction, -, htext, hwritten⟩ := exists_written_double hx hpos
  rw [htext]
  refine ⟨hwritten.plain.exists_cons _, fun rest => ?_⟩
  rw [List.append_assoc]
  exact readMoment_eq_none hwritten.plain.isDigit (by decide) (by decide) nofun

end Utterance.Toml
