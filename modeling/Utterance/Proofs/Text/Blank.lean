import Mathlib.Data.List.DropRight
import Mathlib.Data.List.SplitBy
import Utterance.Text.Sentence

/-!
# Blanks at the ends and inside of a text

`singleLine` goes by the words of a text.  What it does to the text can also be told without them:
the blanks at the ends go, and each run of blanks that is left becomes one space.

## Key results

- `trim_append_blank`: blanks at the end do not matter to `trim`
- `singleLine_eq`: a text on a single line is the text trimmed and squeezed
- `eq_space_of_mem_squeeze`: no other blank than the space is on that line
-/

namespace Utterance.Text

/-- A text in which each run of characters that are `isBlank` is one space. -/
def squeeze : List Char → List Char
  | [] => []
  | c :: rest =>
    if isBlank c then
      if startsBlank rest then squeeze rest else ' ' :: squeeze rest
    else c :: squeeze rest

variable {text word gap rest : List Char}

/-! ## Trimming -/

/-- `trimEnd` cuts off blanks at the end. -/
theorem trimEnd_append_blank (hgap : ∀ c ∈ gap, isBlank c = true) :
    trimEnd (text ++ gap) = trimEnd text := by
  unfold trimEnd
  rw [List.reverse_append, List.dropWhile_append_of_pos]
  simpa using hgap

/-- `trimEnd` goes no further than to the last visible character. -/
theorem trimEnd_append (h : trimEnd rest ≠ []) : trimEnd (text ++ rest) = text ++ trimEnd rest := by
  have hdrop : rest.reverse.dropWhile isBlank ≠ [] := by simpa [trimEnd] using h
  unfold trimEnd
  rw [List.reverse_append, List.dropWhile_append, if_neg (by simpa using hdrop),
    List.reverse_append, List.reverse_reverse]

/-- `trimEnd` leaves a word as it is. -/
theorem trimEnd_of_word (hword : ∀ c ∈ word, isBlank c = false) : trimEnd word = word := by
  have hdrop : word.reverse.dropWhile isBlank = word.reverse := by
    rw [List.dropWhile_eq_self_iff]
    intro hlength
    exact Bool.eq_false_iff.mp (hword _ (List.mem_reverse.mp (List.getElem_mem hlength)))
  rw [trimEnd, hdrop, List.reverse_reverse]

/-- `trimEnd` leaves something of a text that is not all blank. -/
theorem trimEnd_ne_nil (h : ∃ c ∈ text, isBlank c = false) : trimEnd text ≠ [] := by
  obtain ⟨c, hc, hvisible⟩ := h
  rw [trimEnd, ne_eq, List.reverse_eq_nil_iff, List.dropWhile_eq_nil_iff]
  intro hall
  simp [hall c (List.mem_reverse.mpr hc)] at hvisible

/-- `trimEnd` does not bring a blank to the start. -/
theorem startsBlank_trimEnd (h : startsBlank text = false) :
    startsBlank (trimEnd text) = false := by
  obtain ⟨cut, hcut⟩ : trimEnd text <+: text := List.rdropWhile_prefix isBlank text
  cases htrim : trimEnd text with
  | nil => rfl
  | cons c rest =>
    rw [htrim, List.cons_append] at hcut
    rwa [← hcut] at h

/-- Blanks at the end do not matter to `trim`. -/
theorem trim_append_blank (hgap : ∀ c ∈ gap, isBlank c = true) :
    trim (text ++ gap) = trim text := by
  unfold trim trimStart
  -- a text of blanks would be trimmed away from the start, with the gap behind it
  by_cases hblank : text.dropWhile isBlank = []
  · have hrest : (text ++ gap).dropWhile isBlank = [] := by
      rw [List.dropWhile_append, hblank]
      simpa using hgap
    rw [hblank, hrest]
  · rw [List.dropWhile_append, if_neg (by simpa using hblank), trimEnd_append_blank hgap]

/-! ## Squeezing -/

/-- `squeeze` leaves a word as it is. -/
theorem squeeze_append_word (hword : ∀ c ∈ word, isBlank c = false) :
    squeeze (word ++ rest) = word ++ squeeze rest := by
  induction word with
  | nil => rfl
  | cons c word ih =>
    obtain ⟨hc, hword⟩ := List.forall_mem_cons.mp hword
    simp [squeeze, hc, ih hword]

/-- `squeeze` makes one space of a gap, if no blank comes after it. -/
theorem squeeze_append_gap (hgap : ∀ c ∈ gap, isBlank c = true) (hne : gap ≠ [])
    (hrest : startsBlank rest = false) : squeeze (gap ++ rest) = ' ' :: squeeze rest := by
  -- only the last blank of a gap is written, as one space
  induction gap with
  | nil => exact absurd rfl hne
  | cons c gap ih =>
    obtain ⟨hc, hgap⟩ := List.forall_mem_cons.mp hgap
    cases gap with
    | nil => simp [squeeze, hc, hrest]
    | cons d gap =>
      have hd : startsBlank (d :: gap ++ rest) = true := (List.forall_mem_cons.mp hgap).1
      rw [List.cons_append, squeeze, if_pos hc, if_pos hd, ih hgap (List.cons_ne_nil _ _)]

/-- `squeeze` leaves no blank but the space. -/
theorem eq_space_of_mem_squeeze {c : Char} (h : c ∈ squeeze text) (hc : isBlank c = true) :
    c = ' ' := by
  induction text with
  | nil => cases h
  | cons d rest ih =>
    -- whatever is pushed is a space or a visible character
    rw [squeeze] at h
    split at h
    · split at h
      · exact ih h
      · exact (List.mem_cons.mp h).elim id ih
    · next hd =>
      obtain rfl | h := List.mem_cons.mp h
      · exact absurd hc hd
      · exact ih h

/-! ## Words -/

/-- `splitBy` splits off a run of characters that are all blank or all visible in front of the
rest. -/
theorem splitBy_append_run {run : List Char} {blank : Bool} (hrun : ∀ c ∈ run, isBlank c = blank)
    (hne : run ≠ []) (hrest : ∀ c ∈ rest.head?, isBlank c = !blank) :
    (run ++ rest).splitBy (fun a b => isBlank a == isBlank b) =
      run :: rest.splitBy fun a b => isBlank a == isBlank b := by
  have hchain : run.IsChain fun a b => isBlank a == isBlank b :=
    (List.pairwise_of_forall_mem_list fun a ha b hb => by simp [hrun a ha, hrun b hb]).isChain
  have hsplit : ∀ a ∈ run.getLast?, ∀ b ∈ rest.head?, (isBlank a == isBlank b) = false := by
    intro a ha b hb
    simp [hrun a (List.mem_of_getLast? ha), hrest b hb]
  rw [List.splitBy_append hsplit, List.splitBy_of_isChain hne hchain, List.singleton_append]

/-- A text of which `startsBlank` is false starts with a visible character, or is empty. -/
theorem startsBlank_eq_false_iff :
    startsBlank rest = false ↔ ∀ c ∈ rest.head?, isBlank c = false := by
  cases rest <;> simp [startsBlank]

/-- A gap in front of a text adds none to its `words`. -/
theorem words_append_gap (hgap : ∀ c ∈ gap, isBlank c = true) (hrest : startsBlank rest = false) :
    words (gap ++ rest) = words rest := by
  cases gap with
  | nil => rfl
  | cons c gap =>
    have hany : (c :: gap).any isBlank = true := by simp [(List.forall_mem_cons.mp hgap).1]
    unfold words
    rw [splitBy_append_run hgap (List.cons_ne_nil _ _) (startsBlank_eq_false_iff.mp hrest),
      List.filter_cons_of_neg (by simp [hany])]

/-- A word in front of a gap or the end is the first of the `words`. -/
theorem words_append_word (hword : ∀ c ∈ word, isBlank c = false) (hne : word ≠ [])
    (hrest : ∀ c ∈ rest.head?, isBlank c = true) : words (word ++ rest) = word :: words rest := by
  have hany : word.any isBlank = false := by
    rw [List.any_eq_false]
    exact fun c hc => Bool.eq_false_iff.mp (hword c hc)
  unfold words
  rw [splitBy_append_run hword hne hrest, List.filter_cons_of_pos (by simp [hany])]

/-- What `dropWhile` leaves when blanks are dropped does not start with one. -/
theorem startsBlank_dropWhile (text : List Char) :
    startsBlank (text.dropWhile isBlank) = false := by
  induction text with
  | nil => rfl
  | cons c rest ih =>
    rw [List.dropWhile_cons]
    split
    · exact ih
    · next hc => exact Bool.eq_false_iff.mpr hc

/-- A text that starts with a visible character is the first of its `words`, a gap and what goes on
with the next word, or is over. -/
theorem words_cons {c : Char} (hc : isBlank c = false) (rest : List Char) :
    ∃ word gap next, c :: rest = word ++ (gap ++ next) ∧ word ≠ [] ∧
      (∀ c ∈ word, isBlank c = false) ∧ (∀ c ∈ gap, isBlank c = true) ∧
      startsBlank next = false ∧ (gap = [] → next = []) ∧
      words (c :: rest) = word :: words next := by
  let word := (c :: rest).takeWhile (!isBlank ·)
  let tail := (c :: rest).dropWhile (!isBlank ·)
  have hne : word ≠ [] := by simp [word, hc]
  have hword : ∀ d ∈ word, isBlank d = false := fun d hd => by simpa using List.mem_takeWhile_imp hd
  have hgap : ∀ d ∈ tail.takeWhile isBlank, isBlank d = true :=
    fun d hd => List.mem_takeWhile_imp hd
  -- the first character behind the word is the blank that ended it
  have hhead : ∀ d ∈ tail.head?, isBlank d = true := by
    intro d hd
    have hnot := List.head?_dropWhile_not (!isBlank ·) (c :: rest)
    rw [show ((c :: rest).dropWhile (!isBlank ·)).head? = some d from hd] at hnot
    simpa using hnot
  have hnext := startsBlank_dropWhile tail
  have htail : tail.takeWhile isBlank ++ tail.dropWhile isBlank = tail :=
    List.takeWhile_append_dropWhile
  have hsplit : c :: rest = word ++ tail := List.takeWhile_append_dropWhile.symm
  refine ⟨word, tail.takeWhile isBlank, tail.dropWhile isBlank, by rw [htail, hsplit], hne, hword,
    hgap, hnext, fun hnil => ?_, ?_⟩
  · cases hcases : tail with
    | nil => rfl
    | cons b more => simp [hcases, hhead b (by simp [hcases])] at hnil
  · rw [hsplit, words_append_word hword hne hhead, ← words_append_gap hgap hnext, htail]

/-- The `words` of a text that does not start with a blank, joined by spaces, are the text
squeezed. -/
theorem intercalate_words (text : List Char) (h : startsBlank text = false) :
    [' '].intercalate (words text) = squeeze (trimEnd text) := by
  -- from word to word: what follows on the first word and the gap behind it is a shorter text
  match text with
  | [] => rfl
  | c :: rest =>
    obtain ⟨word, gap, next, hsplit, hne, hword, hgap, hnext, hover, hwords⟩ := words_cons h rest
    have ih := intercalate_words next hnext
    rw [hwords, hsplit]
    cases next with
    | nil =>
      -- the gap is at the end, and goes
      have hsqueeze : squeeze (word ++ []) = word ++ squeeze [] := squeeze_append_word hword
      rw [List.append_nil] at hsqueeze
      rw [List.append_nil, trimEnd_append_blank hgap, trimEnd_of_word hword, hsqueeze]
      simp [words, squeeze]
    | cons d next =>
      -- the gap is between two words, and becomes one space
      have hgapne : gap ≠ [] := fun hnil => List.cons_ne_nil d next (hover hnil)
      have hend : trimEnd (d :: next) ≠ [] := trimEnd_ne_nil ⟨d, List.mem_cons_self, hnext⟩
      have hend' : trimEnd (gap ++ d :: next) ≠ [] := trimEnd_ne_nil ⟨d, by simp, hnext⟩
      have hothers : words (d :: next) ≠ [] := by
        obtain ⟨_, _, _, -, -, -, -, -, -, hothers⟩ := words_cons hnext next
        exact hothers ▸ List.cons_ne_nil _ _
      rw [List.intercalate_cons_of_ne_nil hothers, ih, trimEnd_append hend', trimEnd_append hend,
        squeeze_append_word hword, squeeze_append_gap hgap hgapne (startsBlank_trimEnd hnext),
        List.append_assoc, List.singleton_append]
termination_by text.length
decreasing_by
  have hlength := congrArg List.length hsplit
  have hpos := List.length_pos_iff.mpr hne
  simp only [List.length_append] at hlength
  omega

/-- `singleLine` puts a text on a single line: without the blanks at its ends, and with one space
for each run of blanks inside of it. -/
theorem singleLine_eq (text : String) :
    singleLine text = String.ofList (squeeze (trim text.toList)) := by
  have hsplit := List.takeWhile_append_dropWhile (p := isBlank) (l := text.toList)
  have hstart := startsBlank_dropWhile text.toList
  have hblank : ∀ c ∈ text.toList.takeWhile isBlank, isBlank c = true :=
    fun c hc => List.mem_takeWhile_imp hc
  rw [singleLine, trim, trimStart, ← intercalate_words _ hstart,
    ← words_append_gap hblank hstart, hsplit]

end Utterance.Text
