import Utterance.Proofs.Text.Blank
import Utterance.Text.Preparation

/-!
# Preparing a text with blanks around it

Blanks at the ends of a text do not matter to what is spoken for it.  They are cut off in the end,
and no markup is in them or reaches into them, since it starts and ends with visible characters.

## Key results

- `foldl_erase_of_blank`: patterns are erased from a text with blanks around it as from the text
- `stripped_trim`: blanks at the ends do not matter to a text without its markup
- `prepare_trim`: nor to the text that is spoken and its chunks
-/

namespace Utterance.Text

/-- The pattern starts and ends with a visible character, which `isBlank` is false of. -/
structure Solid (pattern : List Char) : Prop where
  head : ∃ c ∈ pattern.head?, isBlank c = false
  last : ∃ c ∈ pattern.getLast?, isBlank c = false

variable {pattern text gap gap' rest : List Char}

/-! ## Patterns -/

/-- A `Solid` pattern does not start with a blank. -/
theorem Solid.not_prefix_blank (h : Solid pattern) {c : Char} (hc : isBlank c = true) :
    ¬pattern <+: c :: rest := by
  obtain ⟨d, hd, hvisible⟩ := h.head
  rintro ⟨tail, htail⟩
  have hhead : d = c := by
    have hheads := congrArg List.head? htail
    rw [List.head?_append, Option.mem_def.mp hd] at hheads
    exact Option.some.inj hheads
  rw [hhead, hc] at hvisible
  cases hvisible

/-- A `Solid` pattern does not reach into the blanks at the end. -/
theorem Solid.prefix_append_blank_iff (h : Solid pattern) (hgap : ∀ c ∈ gap, isBlank c = true) :
    pattern <+: text ++ gap ↔ pattern <+: text := by
  refine ⟨fun hpattern => ?_, fun hpattern => hpattern.trans (List.prefix_append text gap)⟩
  obtain hle | hlt := le_or_gt pattern.length text.length
  · -- a pattern no longer than the text ends before the gap
    exact List.prefix_of_prefix_length_le hpattern (List.prefix_append text gap) hle
  · -- otherwise the last character of the pattern would be a blank
    obtain ⟨d, hd, hvisible⟩ := h.last
    obtain ⟨inside, rfl⟩ : text <+: pattern :=
      List.prefix_of_prefix_length_le (List.prefix_append text gap) hpattern hlt.le
    have hinside : inside ≠ [] := by
      rintro rfl
      simp at hlt
    have hlast : d ∈ inside := by
      rw [List.getLast?_append_of_ne_nil _ hinside] at hd
      exact List.mem_of_getLast? hd
    have hblank := hgap d (((List.prefix_append_right_inj text).mp hpattern).subset hlast)
    rw [hblank] at hvisible
    cases hvisible

/-- Every pattern of `markup` is `Solid`. -/
theorem solid_of_mem_markup (h : pattern ∈ markup) : Solid pattern := by
  have hsolid : ∀ pattern ∈ markup, (pattern.head?.any (!isBlank ·)) = true ∧
      (pattern.getLast?.any (!isBlank ·)) = true := by decide
  obtain ⟨hhead, hlast⟩ := hsolid pattern h
  refine ⟨?_, ?_⟩
  · simpa [Option.any_eq_true] using hhead
  · simpa [Option.any_eq_true] using hlast

/-! ## Erasing -/

/-- `eraseFrom` leaves blanks at the start. -/
theorem Solid.erase_blank_append (h : Solid pattern) (hgap : ∀ c ∈ gap, isBlank c = true) :
    eraseFrom pattern 0 (gap ++ rest) = gap ++ eraseFrom pattern 0 rest := by
  induction gap with
  | nil => rfl
  | cons c gap ih =>
    obtain ⟨hc, hgap⟩ := List.forall_mem_cons.mp hgap
    have hstart : ¬pattern.isPrefixOf (c :: (gap ++ rest)) = true := by
      rw [List.isPrefixOf_iff_prefix]
      exact h.not_prefix_blank hc
    rw [List.cons_append, eraseFrom, if_neg hstart, ih hgap, List.cons_append]

/-- `eraseFrom` leaves blanks at the end. -/
theorem Solid.eraseFrom_append_blank (h : Solid pattern) (hgap : ∀ c ∈ gap, isBlank c = true)
    {skip : ℕ} (hskip : skip ≤ text.length) :
    eraseFrom pattern skip (text ++ gap) = eraseFrom pattern skip text ++ gap := by
  induction text generalizing skip with
  | nil =>
    obtain rfl : skip = 0 := Nat.le_zero.mp hskip
    have hnil : eraseFrom pattern 0 (gap ++ []) = gap ++ eraseFrom pattern 0 [] :=
      h.erase_blank_append hgap
    simpa [eraseFrom] using hnil
  | cons c text ih =>
    -- along the scan: a character is skipped, or a pattern starts at it, or it is kept
    cases skip with
    | succ skip => exact ih (Nat.le_of_succ_le_succ hskip)
    | zero =>
      have hstart : pattern <+: c :: text ++ gap ↔ pattern <+: c :: text :=
        h.prefix_append_blank_iff hgap
      rw [← List.isPrefixOf_iff_prefix, ← List.isPrefixOf_iff_prefix, List.cons_append] at hstart
      rw [List.cons_append, eraseFrom, eraseFrom]
      by_cases hpattern : pattern.isPrefixOf (c :: text) = true
      · -- what is left of the pattern is in the text
        have hlength := (List.isPrefixOf_iff_prefix.mp hpattern).length_le
        rw [List.length_cons] at hlength
        rw [if_pos (hstart.mpr hpattern), if_pos hpattern, ih (by omega)]
      · rw [if_neg (mt hstart.mp hpattern), if_neg hpattern, ih (Nat.zero_le _),
          List.cons_append]

/-- `erase` takes patterns from a text with blanks around it as from the text. -/
theorem foldl_erase_of_blank {patterns : List (List Char)}
    (hpatterns : ∀ pattern ∈ patterns, Solid pattern) (hgap : ∀ c ∈ gap, isBlank c = true)
    (hgap' : ∀ c ∈ gap', isBlank c = true) (text : List Char) :
    patterns.foldl erase (gap ++ (text ++ gap')) =
      gap ++ (patterns.foldl erase text ++ gap') := by
  induction patterns generalizing text with
  | nil => rfl
  | cons pattern patterns ih =>
    obtain ⟨hpattern, hpatterns⟩ := List.forall_mem_cons.mp hpatterns
    have herase : erase (gap ++ (text ++ gap')) pattern = gap ++ (erase text pattern ++ gap') := by
      rw [erase, hpattern.erase_blank_append hgap, hpattern.eraseFrom_append_blank hgap'
        (Nat.zero_le _), erase]
    rw [List.foldl_cons, herase, ih hpatterns, List.foldl_cons]

/-! ## Prepared texts -/

/-- Blanks around a text do not matter to `trim`. -/
theorem trim_of_blank (hgap : ∀ c ∈ gap, isBlank c = true) (hgap' : ∀ c ∈ gap', isBlank c = true)
    (text : List Char) : trim (gap ++ (text ++ gap')) = trim text := by
  have hstart : trim (gap ++ (text ++ gap')) = trim (text ++ gap') := by
    rw [trim, trim, trimStart, trimStart, List.dropWhile_append_of_pos hgap]
  rw [hstart, trim_append_blank hgap']

/-- A text has blanks around what `trim` leaves of it. -/
theorem exists_blank_trim (text : List Char) :
    ∃ gap gap', text = gap ++ (trim text ++ gap') ∧ (∀ c ∈ gap, isBlank c = true) ∧
      ∀ c ∈ gap', isBlank c = true := by
  refine ⟨text.takeWhile isBlank, (trimStart text).rtakeWhile isBlank, ?_,
    fun c hc => List.mem_takeWhile_imp hc, fun c hc => List.mem_rtakeWhile_imp hc⟩
  have hend : trim text ++ (trimStart text).rtakeWhile isBlank = trimStart text :=
    List.rdropWhile_append_rtakeWhile
  rw [hend]
  exact List.takeWhile_append_dropWhile.symm

/-- A text that `trim` gave stays as it is when it is trimmed again. -/
theorem trim_trim (text : List Char) : trim (trim text) = trim text := by
  obtain ⟨gap, gap', htext, hgap, hgap'⟩ := exists_blank_trim text
  have htrim := trim_of_blank hgap hgap' (trim text)
  rw [← htext] at htrim
  exact htrim.symm

/-- Blanks around a text do not matter to what `stripped` leaves of it. -/
theorem stripped_trim (text : List Char) : stripped (trim text) = stripped text := by
  obtain ⟨gap, gap', htext, hgap, hgap'⟩ := exists_blank_trim text
  have hstripped : stripped (gap ++ (trim text ++ gap')) = stripped (trim text) := by
    rw [stripped, foldl_erase_of_blank (fun _ => solid_of_mem_markup) hgap hgap',
      trim_of_blank hgap hgap', stripped]
  rw [← htext] at hstripped
  exact hstripped.symm

/-- The blanks at the ends of a text matter neither to the text that `prepare` leaves nor to its
chunks. -/
theorem prepare_trim (s : Settings) (text : String) :
    prepare s (String.ofList (trim text.toList)) = prepare s text := by
  have hclean : clean s (String.ofList (trim text.toList)) = clean s text := by
    simp only [clean, sanitize, String.toList_ofList, stripped_trim, trim_trim]
  simp only [prepare, hclean]

end Utterance.Text
