import Mathlib.Data.List.SplitBy
import Mathlib.Data.List.Chain
import Utterance.Toml.Quoted

/-!
# Reading what has been quoted

A text in quotes is read back as it was, whichever quotes were picked for it.  The quotes at the end
are the difficulty: tripled ones may follow up to two that belong to the text.

## Key results

- `le_longestRun`: a run is no longer than the longest one
- `readBasic_escapedText`, `readLongBasic_escapedText`, `readLiteral_append`,
  `readLongLiteral_append`: the four ways to quote
- `readQuoted_quote`: a text is read back from its quotes
-/

namespace Utterance.Toml

variable {c d : Char} {text rest : List Char}

/-! ## Runs -/

/-- For `longestRun`, a run in front of another character counts apart from what follows. -/
theorem longestRun_replicate_append (k : ℕ) (hrest : rest.head? ≠ some d) :
    longestRun c (List.replicate (k + 1) d ++ rest) =
      max (if d = c then k + 1 else 0) (longestRun c rest) := by
  -- the first run stands by itself, and is as long as the replicate
  have hrun : (List.replicate (k + 1) d).IsChain fun a b => (a == b) = true :=
    List.isChain_replicate_of_rel _ (beq_self_eq_true d)
  have hsplit : (List.replicate (k + 1) d ++ rest).splitBy (· == ·) =
      List.replicate (k + 1) d :: rest.splitBy (· == ·) := by
    rw [List.splitBy_append, List.splitBy_of_isChain (by simp) hrun, List.singleton_append]
    intro x hx y hy
    obtain rfl := List.eq_of_mem_replicate (List.mem_of_mem_getLast? hx)
    exact beq_false_of_ne fun h => hrest (h ▸ hy)
  have hfoldl : ∀ (n : ℕ) (l : List ℕ), (n :: l).foldl max 0 = max n (l.foldl max 0) := by
    intro n l
    rw [List.foldl_cons, max_comm, List.foldl_assoc]
  rw [longestRun, hsplit, List.map_cons, hfoldl, longestRun]
  congr 1
  simp [List.replicate_succ]

/-- A text starts with a run of every character, a `List.replicate` of it that is empty where the
text starts with another one. -/
theorem exists_run (d : Char) (text : List Char) :
    ∃ (k : ℕ) (rest : List Char), text = List.replicate k d ++ rest ∧ rest.head? ≠ some d := by
  induction text with
  | nil => exact ⟨0, [], rfl, nofun⟩
  | cons a text ih =>
    by_cases had : a = d
    · obtain ⟨k, rest, rfl, hrest⟩ := ih
      exact ⟨k + 1, rest, by rw [had, List.replicate_succ, List.cons_append], hrest⟩
    · exact ⟨0, a :: text, rfl, by simpa using had⟩

/-- One more character in front does not lower `longestRun`. -/
theorem longestRun_le_cons (d : Char) (text : List Char) :
    longestRun c text ≤ longestRun c (d :: text) := by
  obtain ⟨k, rest, rfl, hrest⟩ := exists_run d text
  rw [← List.cons_append, ← List.replicate_succ, longestRun_replicate_append k hrest]
  cases k with
  | zero => exact le_max_right _ _
  | succ k =>
    rw [longestRun_replicate_append k hrest]
    split <;> omega

/-- A run in front is no longer than the `longestRun`. -/
theorem le_longestRun (k : ℕ) (text : List Char) :
    k ≤ longestRun c (List.replicate k c ++ text) := by
  obtain ⟨j, rest, rfl, hrest⟩ := exists_run c text
  -- the run may go on in the text, and then the longer one counts
  rw [← List.append_assoc, List.replicate_append_replicate]
  cases hjk : k + j with
  | zero => omega
  | succ n =>
    rw [longestRun_replicate_append n hrest, if_pos rfl]
    omega

/-- If the `longestRun` of a character is empty the text does not have it. -/
theorem notMem_of_longestRun_eq_zero (h : longestRun c text = 0) : c ∉ text := by
  -- a single occurrence would be a run of one
  induction text with
  | nil => exact List.not_mem_nil
  | cons d text ih =>
    have hle := longestRun_le_cons (c := c) d text
    rw [List.mem_cons, not_or]
    refine ⟨?_, ih (by omega)⟩
    rintro rfl
    have hone : 1 ≤ longestRun c (c :: text) := le_longestRun 1 text
    omega

/-! ## Characters -/

/-- What is neither a control character nor a line end is `isPrintable`: it can stand for itself. -/
theorem isPrintable_of_not_isControl (h : isControl c = false) (hc : c ≠ '\n') :
    isPrintable c = true := by
  simp only [isControl, Bool.or_eq_false_iff, Bool.and_eq_false_iff, decide_eq_false_iff_not,
    beq_eq_false_iff_ne, bne_eq_false_iff_eq] at h
  simp only [isPrintable, Bool.or_eq_true, Bool.and_eq_true, decide_eq_true_eq, beq_iff_eq,
    bne_iff_ne]
  obtain ⟨(hlow | rfl) | rfl, hdel⟩ := h
  · exact .inr ⟨by omega, hdel⟩
  · exact .inl rfl
  · exact absurd rfl hc

/-- `charOfHex?` reads a control character back from the number that is written for it. -/
theorem charOfHex?_control (h : isControl c = true) :
    charOfHex? ['0', '0', (Text.hexDigit (c.toNat / 16)).toUpper,
      (Text.hexDigit (c.toNat % 16)).toUpper] = some c := by
  have hall : ∀ n < 0x80, charOfHex? ['0', '0', (Text.hexDigit (n / 16)).toUpper,
      (Text.hexDigit (n % 16)).toUpper] = some (Char.ofNat n) := by decide
  have hlt : c.toNat < 0x80 := by
    simp only [isControl, Bool.or_eq_true, Bool.and_eq_true, decide_eq_true_eq, beq_iff_eq] at h
    omega
  rw [hall _ hlt, Char.ofNat_toNat]

/-- What `escapedText` has for a character other than a quote does not depend on the quotes
before. -/
theorem escapedText_cons (onOneLine : Bool) (allowed before : ℕ) (hc : c ≠ '"')
    (text : List Char) : escapedText onOneLine allowed before (c :: text) =
      escaped onOneLine c ++ escapedText onOneLine allowed 0 text := by
  rw [escapedText.eq_def]
  split <;> simp_all

/-- What `escaped` gives starts with no quote, and with a line end only for one. -/
theorem exists_escaped (onOneLine : Bool) (hc : c ≠ '"') :
    ∃ d rest, escaped onOneLine c = d :: rest ∧ d ≠ '"' ∧ d ≠ '\r' ∧ (d = '\n' → c = '\n') := by
  have hother : ∀ {d : Char}, d ≠ '\n' → d = '\n' → c = '\n' := fun h h' => absurd h' h
  unfold escaped
  -- one case for each escape; only a line feed is written as itself
  split
  · exact ⟨_, _, rfl, by decide, by decide, hother (by decide)⟩
  · exact ⟨_, _, rfl, by decide, by decide, hother (by decide)⟩
  · exact ⟨_, _, rfl, by decide, by decide, hother (by decide)⟩
  · split
    · exact ⟨_, _, rfl, by decide, by decide, hother (by decide)⟩
    · exact ⟨_, _, rfl, by decide, by decide, fun _ => rfl⟩
  · exact ⟨_, _, rfl, by decide, by decide, hother (by decide)⟩
  · exact ⟨_, _, rfl, by decide, by decide, hother (by decide)⟩
  · next hbackslash hb ht hn hf hr =>
    split
    · exact ⟨_, _, rfl, by decide, by decide, hother (by decide)⟩
    · exact ⟨c, [], rfl, hc, hr, id⟩

/-! ## Texts on one line -/

/-- `readBasic` reads a character other than a quote back from what `escaped` gives. -/
theorem readBasic_escaped (hc : c ≠ '"') (rest : List Char) :
    readBasic (escaped true c ++ rest) = withChar c (readBasic rest) := by
  unfold escaped
  split
  · rfl
  · rfl
  · rfl
  · rfl
  · rfl
  · rfl
  -- one case for each line of `escaped`, and at the end what stands for itself
  · next hbackslash hb ht hn hf hr =>
    split
    · next hcontrol =>
      simp only [List.cons_append, List.nil_append, readBasic, charOfHex?_control hcontrol]
      rfl
    · next hcontrol =>
      have hplain := isPrintable_of_not_isControl (Bool.eq_false_iff.mpr hcontrol) hn
      rw [List.singleton_append, readBasic.eq_def]
      split <;> simp_all

/-- `readBasic` reads the inside of a text up to the closing quote. -/
theorem readBasic_escapedText (text rest : List Char) :
    readBasic (escapedText true 0 0 text ++ '"' :: rest) = some (text, rest) := by
  -- induction on the text; a quote is escaped, as no run of them is allowed
  induction text with
  | nil => rw [escapedText, List.nil_append, readBasic]
  | cons c text ih =>
    by_cases hc : c = '"'
    · subst hc
      have hquote : ∀ rest, readBasic ('\\' :: '"' :: rest) = withChar '"' (readBasic rest) :=
        fun _ => rfl
      rw [escapedText, if_neg (by decide), List.cons_append, List.cons_append, hquote, ih]
      rfl
    · rw [escapedText_cons true 0 0 hc, List.append_assoc, readBasic_escaped hc, ih]
      rfl

/-- `readLiteral` reads the inside of a text up to the closing quote. -/
theorem readLiteral_append (hquote : '\'' ∉ text) (hplain : ∀ c ∈ text, isPrintable c = true)
    (rest : List Char) : readLiteral (text ++ '\'' :: rest) = some (text, rest) := by
  induction text with
  | nil => rw [List.nil_append, readLiteral]
  | cons c text ih =>
    obtain ⟨hc, hplain⟩ := List.forall_mem_cons.mp hplain
    rw [List.mem_cons, not_or] at hquote
    rw [List.cons_append, readLiteral, if_pos hc, ih hquote.2 hplain]
    · rfl
    · exact fun h => hquote.1 h.symm

/-! ## Texts on several lines -/

/-- What may follow a quote `q` inside of a text: no two more of it, unless they end the text. -/
def MayFollow (q : Char) (rest : List Char) : Prop :=
  (∀ tail, rest ≠ q :: q :: tail) ∨
    ∃ tail : List Char, (∀ tail', tail ≠ q :: tail') ∧
      (rest = q :: q :: q :: tail ∨ rest = q :: q :: q :: q :: tail)

section Basic

variable {tail : List Char}

/-- `readLongBasic` ends a text at three quotes that no other one follows. -/
theorem readLongBasic_close (h : ∀ tail', tail ≠ '"' :: tail') :
    readLongBasic false ('"' :: '"' :: '"' :: tail) = some ([], tail) := by
  rw [readLongBasic] <;> simp_all

/-- `readLongBasic` takes a quote that may stand inside of a text for one, if the rest `MayFollow`
it. -/
theorem readLongBasic_quote (h : MayFollow '"' rest) :
    readLongBasic false ('"' :: rest) = withChar '"' (readLongBasic false rest) := by
  obtain hnone | ⟨tail, htail, rfl | rfl⟩ := h
  · rw [readLongBasic, if_pos (by decide)] <;> simp_all
  · rw [readLongBasic_close htail, readLongBasic] <;> simp_all [withChar]
  · rw [readLongBasic, readLongBasic] <;> simp_all [withChar]

/-- `readLongBasic` reads a character other than a quote back from what `escaped` gives. -/
theorem readLongBasic_escaped (hc : c ≠ '"') (rest : List Char) :
    readLongBasic false (escaped false c ++ rest) = withChar c (readLongBasic false rest) := by
  unfold escaped
  -- one case for each escape of a character
  split
  · rfl
  · rfl
  · rfl
  · rfl
  · rfl
  · rfl
  · next hbackslash hb ht hn hf hr =>
    split
    · next hcontrol =>
      simp only [List.cons_append, List.nil_append, readLongBasic, charOfHex?_control hcontrol]
      rfl
    · next hcontrol =>
      have hplain := isPrintable_of_not_isControl (Bool.eq_false_iff.mpr hcontrol) hn
      rw [List.singleton_append, readLongBasic] <;> simp_all

/-- After two quotes `escapedText` writes no third one: it is escaped. -/
theorem exists_escapedText_two (c : Char) (text : List Char) :
    ∃ d rest, escapedText false 2 2 (c :: text) = d :: rest ∧ d ≠ '"' := by
  by_cases hc : c = '"'
  · subst hc
    exact ⟨'\\', _, by rw [escapedText, if_neg (by decide)], by decide⟩
  · obtain ⟨d, rest, hcons, hd, -⟩ := exists_escaped false hc
    exact ⟨d, _, by rw [escapedText_cons false 2 2 hc, hcons, List.cons_append], hd⟩

/-- What `escapedText` writes after a quote may follow it. -/
theorem mayFollow_escapedText {before : ℕ} (hbefore : before < 2) (text : List Char)
    (htail : ∀ tail', tail ≠ '"' :: tail') :
    MayFollow '"' (escapedText false 2 (before + 1) text ++ '"' :: '"' :: '"' :: tail) := by
  match text with
  | [] => exact .inr ⟨tail, htail, .inl (by rw [escapedText, List.nil_append])⟩
  | c :: text =>
    by_cases hc : c = '"'
    · subst hc
      rw [escapedText]
      -- a quote is written as itself while fewer than two stand before it
      split
      · next hmore =>
        obtain rfl : before = 0 := by omega
        match text with
        | [] => exact .inr ⟨tail, htail, .inr (by rw [escapedText, List.cons_append]; rfl)⟩
        | c :: text =>
          obtain ⟨d, rest, hcons, hd⟩ := exists_escapedText_two c text
          refine .inl fun tail' h => hd ?_
          rw [hcons] at h
          injection h with _ h
          injection h with h _
      · exact .inl nofun
    · obtain ⟨d, rest, hcons, hd, -⟩ := exists_escaped false hc
      refine .inl fun tail' h => hd ?_
      rw [escapedText_cons false 2 _ hc, hcons] at h
      injection h with h _

/-- `readLongBasic` reads the inside of a text up to the closing quotes. -/
theorem readLongBasic_escapedText (text : List Char) (before : ℕ)
    (htail : ∀ tail', tail ≠ '"' :: tail') :
    readLongBasic false (escapedText false 2 before text ++ '"' :: '"' :: '"' :: tail) =
      some (text, tail) := by
  -- induction on the text, for any number of quotes before it
  induction text generalizing before with
  | nil => rw [escapedText, List.nil_append, readLongBasic_close htail]
  | cons c text ih =>
    by_cases hc : c = '"'
    · subst hc
      rw [escapedText]
      split
      · next hmore =>
        rw [List.cons_append, readLongBasic_quote (mayFollow_escapedText hmore text htail), ih]
        rfl
      · have hquote : ∀ rest, readLongBasic false ('\\' :: '"' :: rest) =
            withChar '"' (readLongBasic false rest) := fun _ => rfl
        rw [List.cons_append, List.cons_append, hquote, ih]
        rfl
    · rw [escapedText_cons false 2 before hc, List.append_assoc, readLongBasic_escaped hc, ih]
      rfl

end Basic

section Literal

variable {tail : List Char}

/-- `readLongLiteral` ends a text at three quotes that no other one follows. -/
theorem readLongLiteral_close (h : ∀ tail', tail ≠ '\'' :: tail') :
    readLongLiteral ('\'' :: '\'' :: '\'' :: tail) = some ([], tail) := by
  rw [readLongLiteral] <;> simp_all

/-- `readLongLiteral` takes a quote that may stand inside of a text for one, if the rest `MayFollow`
it. -/
theorem readLongLiteral_quote (h : MayFollow '\'' rest) :
    readLongLiteral ('\'' :: rest) = withChar '\'' (readLongLiteral rest) := by
  obtain hnone | ⟨tail, htail, rfl | rfl⟩ := h
  · rw [readLongLiteral, if_pos (by decide)] <;> simp_all
  · rw [readLongLiteral_close htail, readLongLiteral] <;> simp_all [withChar]
  · rw [readLongLiteral, readLongLiteral] <;> simp_all [withChar]

/-- In a text without three quotes in a row, by `longestRun`, what comes after a quote `MayFollow`
it. -/
theorem mayFollow_of_longestRun (hrun : longestRun '\'' ('\'' :: text) ≤ 2)
    (htail : ∀ tail', tail ≠ '\'' :: tail') :
    MayFollow '\'' (text ++ '\'' :: '\'' :: '\'' :: tail) := by
  -- one or two quotes before the closing ones leave three or four in a row with these
  match text with
  | [] => exact .inr ⟨tail, htail, .inl rfl⟩
  | c :: text =>
    by_cases hc : c = '\''
    · subst hc
      match text with
      | [] => exact .inr ⟨tail, htail, .inr rfl⟩
      | d :: text =>
        refine .inl fun tail' h => ?_
        injection h with _ h
        injection h with h _
        subst h
        have hthree : 3 ≤ longestRun '\'' ('\'' :: '\'' :: '\'' :: text) := le_longestRun 3 text
        omega
    · refine .inl fun tail' h => hc ?_
      injection h

/-- `readLongLiteral` reads the inside of a text up to the closing quotes, if the text has no three
in a row. -/
theorem readLongLiteral_append (hrun : longestRun '\'' text ≤ 2)
    (hplain : ∀ c ∈ text, isControl c = false) (htail : ∀ tail', tail ≠ '\'' :: tail') :
    readLongLiteral (text ++ '\'' :: '\'' :: '\'' :: tail) = some (text, tail) := by
  -- induction on the text, in which no run of quotes closes it
  induction text with
  | nil => rw [List.nil_append, readLongLiteral_close htail]
  | cons c text ih =>
    obtain ⟨hc, hplain⟩ := List.forall_mem_cons.mp hplain
    have hrest := ih ((longestRun_le_cons c text).trans hrun) hplain
    rw [List.cons_append]
    by_cases hquote : c = '\''
    · subst hquote
      rw [readLongLiteral_quote (mayFollow_of_longestRun hrun htail), hrest]
      rfl
    · have hr : c ≠ '\r' := by
        rintro rfl
        exact absurd hc (by decide)
      have hread : isPrintable c || c == '\n' := by
        by_cases hn : c = '\n'
        · simp [hn]
        · simp [isPrintable_of_not_isControl hc hn]
      rw [readLongLiteral, if_pos hread, hrest]
      · rfl
      all_goals simp_all

end Literal

/-! ## All quotes -/

/-- `skipNewline` skips what stands between tripled quotes and the text. -/
theorem skipNewline_lead {inside : List Char}
    (h : '\n' ∉ text → ∀ c ∈ inside.head?, c ≠ '\n' ∧ c ≠ '\r') :
    skipNewline (lead text ++ inside) = inside := by
  unfold lead
  -- a line feed after the opening quotes is skipped, and written where the text needs it
  split
  · rfl
  · next hnewline =>
    rw [List.nil_append, skipNewline]
    match inside with
    | [] => rfl
    | c :: inside =>
      obtain ⟨hn, hr⟩ := h (by simpa using hnewline) c rfl
      rw [readNewline, Option.getD_none] <;> simp_all

section Quotes

variable (text : List Char) {rest : List Char} (hdouble : ∀ tail, rest ≠ '"' :: tail)
  (hsingle : ∀ tail, rest ≠ '\'' :: tail)

include hdouble in
/-- `readQuoted` reads a text in double quotes back. -/
theorem readQuoted_basic :
    readQuoted ('"' :: (escapedText true 0 0 text ++ '"' :: rest)) = some (text, rest) := by
  rw [readQuoted, readShortQuoted, readBasic_escapedText]
  · -- the text does not open the long form
    intro tail h
    injection h with _ h
    match text with
    | [] =>
      injection h with _ h
      exact hdouble _ h
    | c :: text =>
      by_cases hc : c = '"'
      · subst hc
        rw [escapedText, if_neg (by decide)] at h
        injection h with h _
        exact absurd h (by decide)
      · obtain ⟨d, inside, hcons, hd, -⟩ := exists_escaped true hc
        rw [escapedText_cons true 0 0 hc, hcons] at h
        injection h with h _
        exact hd h
  · nofun

include hdouble in
/-- `readQuoted` reads a text in tripled double quotes back. -/
theorem readQuoted_longBasic :
    readQuoted ('"' :: '"' :: '"' :: (lead text ++ (escapedText false 2 0 text ++
      '"' :: '"' :: '"' :: rest))) = some (text, rest) := by
  rw [readQuoted, skipNewline_lead, readLongBasic_escapedText text 0 hdouble]
  -- a text without a line feed does not start with one
  intro hnewline
  match text with
  | [] =>
    rintro c ⟨⟩
    decide
  | c :: text =>
    by_cases hc : c = '"'
    · subst hc
      rw [escapedText, if_pos (by decide)]
      rintro c ⟨⟩
      decide
    · obtain ⟨d, inside, hcons, -, hr, hn⟩ := exists_escaped false hc
      rw [escapedText_cons false 2 0 hc, hcons]
      rintro e ⟨⟩
      refine ⟨fun h => hnewline ?_, hr⟩
      rw [hn h]
      exact List.mem_cons_self

include hsingle in
/-- `readQuoted` reads a text in single quotes back, if it has none inside. -/
theorem readQuoted_literal (hquote : '\'' ∉ text) (hplain : ∀ c ∈ text, isPrintable c = true) :
    readQuoted ('\'' :: (text ++ '\'' :: rest)) = some (text, rest) := by
  rw [readQuoted, readShortQuoted, readLiteral_append hquote hplain]
  · nofun
  · -- the long form would need an empty text and a third quote, which `hsingle` excludes
    intro tail h
    injection h with _ h
    match text with
    | [] =>
      injection h with _ h
      exact hsingle _ h
    | c :: text =>
      injection h with h _
      exact hquote (h ▸ List.mem_cons_self)

include hsingle in
/-- `readQuoted` reads a text in tripled single quotes back, if it has no three in a row inside. -/
theorem readQuoted_longLiteral (hrun : longestRun '\'' text ≤ 2)
    (hplain : ∀ c ∈ text, isControl c = false) :
    readQuoted ('\'' :: '\'' :: '\'' :: (lead text ++ (text ++ '\'' :: '\'' :: '\'' :: rest))) =
      some (text, rest) := by
  rw [readQuoted, skipNewline_lead, readLongLiteral_append hrun hplain hsingle]
  -- a text without a line feed does not start with one
  intro hnewline
  match text with
  | [] =>
    rintro c ⟨⟩
    decide
  | c :: text =>
    rintro d ⟨⟩
    refine ⟨fun h => hnewline (h ▸ List.mem_cons_self), ?_⟩
    rintro rfl
    exact absurd (hplain _ List.mem_cons_self) (by decide)

include hdouble hsingle in
/-- `readQuoted` reads a text back from what `quote` makes of it, if no more quotes follow. -/
theorem readQuoted_quote : readQuoted (quote text ++ rest) = some (text, rest) := by
  have hbasic := readQuoted_basic text hdouble
  have hlong := readQuoted_longBasic text hdouble
  have hcontrols : (!text.any isControl) = true → ∀ c ∈ text, isControl c = false := by
    intro h c hc
    simp only [Bool.not_eq_true', List.any_eq_false] at h
    exact Bool.eq_false_iff.mpr (h c hc)
  simp only [quote]
  -- by the choice that `quote` makes, whose conditions are what the way back needs
  split
  · simpa using hbasic
  · split
    · next h =>
      simp only [Bool.and_eq_true, decide_eq_true_eq] at h
      obtain ⟨⟨hplain, hsingles⟩, hnewline⟩ := h
      have hprintable : ∀ c ∈ text, isPrintable c = true := by
        intro c hc
        refine isPrintable_of_not_isControl (hcontrols hplain c hc) ?_
        rintro rfl
        simp [hc] at hnewline
      simpa using readQuoted_literal text hsingle (notMem_of_longestRun_eq_zero hsingles) hprintable
    · split
      · simpa using hlong
      · split
        · next h =>
          simp only [Bool.and_eq_true, decide_eq_true_eq] at h
          simpa using readQuoted_longLiteral text hsingle h.2 (hcontrols h.1)
        · split
          · simpa using hlong
          · simpa using hbasic

end Quotes

end Utterance.Toml
