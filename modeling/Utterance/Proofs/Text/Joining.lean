import Utterance.Proofs.Text.Sentence

/-!
# Joining texts

Between two texts with a gap there is a cut if the first one is closed.  So their sentences are
those of the one and then those of the other, and sentences that are joined again are split as
before, whatever the gaps are.

## Key results

- `Layout.respace`: a layout with other gaps between its sentences
- `splitSentences_append`: the sentences on both sides of a cut
- `splitSentences_join`: the sentences of joined texts, and of sentences joined again
-/

namespace Utterance.Text

variable {text lead gap : List Char} {spans spans' : List Span} {sentences gaps : List String}

/-- A gap in front of a text makes it start with a blank, as `startsBlank` has it. -/
theorem startsBlank_of_blank (hgap : ∀ c ∈ gap, isBlank c = true) (hne : gap ≠ [])
    (rest : List Char) : startsBlank (gap ++ rest) = true := by
  obtain ⟨c, gap, rfl⟩ := List.exists_cons_of_ne_nil hne
  exact hgap c List.mem_cons_self

/-- A gap behind a closed text is a cut, so `splitSentences` keeps the two texts apart. -/
theorem splitSentences_append {text gap rest : String} (hclosed : Closed text.toList)
    (hne : gap ≠ "") (hgap : ∀ c ∈ gap.toList, isBlank c = true) :
    splitSentences (text ++ gap ++ rest) = splitSentences text ++ splitSentences rest := by
  have hsome : gap.toList ≠ [] := mt String.toList_eq_nil_iff.mp hne
  rw [splitSentences, String.toList_append, String.toList_append, List.append_assoc,
    chunks_append_of_closed hclosed (startsBlank_of_blank hgap hsome _), chunks_gap_append hgap,
    List.map_append, splitSentences, splitSentences]

/-! ## Other gaps -/

/-- Lists with the same images under `map` have elements with the same images. -/
theorem exists_mem_of_map_eq {α β γ : Type} {f : α → γ} {g : β → γ} {l : List α} {l' : List β}
    (h : l.map f = l'.map g) {x : α} (hx : x ∈ l) : ∃ y ∈ l', g y = f x := by
  have hmem : f x ∈ l'.map g := h ▸ List.mem_map_of_mem hx
  exact List.mem_map.mp hmem

/-- The gaps of a `Layout` may be others, as long as one is left where there has to be one. -/
theorem Layout.respace (h : Layout text lead spans)
    (hsame : spans'.map Span.sentence = spans.map Span.sentence)
    (hblank : ∀ span ∈ spans', ∀ c ∈ span.gap, isBlank c = true)
    (hgap : ∀ span ∈ spans'.dropLast, span.gap ≠ []) :
    Layout (spans'.flatMap Span.text) [] spans' where
  text_eq := rfl
  lead_blank := nofun
  gap_blank := hblank
  -- the sentences are those of the layout, span by span
  sentence span hspan := by
    obtain ⟨other, hother, heq⟩ := exists_mem_of_map_eq hsame hspan
    exact heq ▸ h.sentence other hother
  closed span hspan := by
    have hinit : spans'.dropLast.map Span.sentence = spans.dropLast.map Span.sentence := by
      rw [List.map_dropLast, hsame, List.map_dropLast]
    obtain ⟨other, hother, heq⟩ := exists_mem_of_map_eq hinit hspan
    exact ⟨heq ▸ (h.closed other hother).1, hgap span hspan⟩

/-- Sentences with the gaps behind them, each a `Span`. -/
def spaced (sentences gaps : List String) : List Span :=
  (sentences.zip gaps).map fun pair => ⟨pair.1.toList, pair.2.toList⟩

/-- The sentences of `spaced` are those that it is made of. -/
theorem map_sentence_spaced (h : gaps.length = sentences.length) :
    (spaced sentences gaps).map Span.sentence = sentences.map String.toList := by
  conv_rhs => rw [← List.map_fst_zip h.ge]
  rw [spaced, List.map_map, List.map_map]
  rfl

/-- The gaps of `spaced` are those that it is made of. -/
theorem map_gap_spaced (h : gaps.length = sentences.length) :
    (spaced sentences gaps).map Span.gap = gaps.map String.toList := by
  conv_rhs => rw [← List.map_snd_zip h.le]
  rw [spaced, List.map_map, List.map_map]
  rfl

/-- Sentences and gaps joined by turns are the text of `spaced`. -/
theorem toList_join_spaced (sentences gaps : List String) :
    (String.join (List.zipWith (· ++ ·) sentences gaps)).toList =
      (spaced sentences gaps).flatMap Span.text := by
  rw [String.toList_join, ← List.map_uncurry_zip_eq_zipWith, List.flatMap_map, spaced,
    List.flatMap_map]
  exact List.flatMap_congr fun pair _ => String.toList_append

/-- What `splitSentences` finds in a text, joined by any gaps, is what it finds in the text that
this gives. -/
theorem splitSentences_spaced {text : String}
    (hlength : gaps.length = (splitSentences text).length)
    (hblank : ∀ gap ∈ gaps, ∀ c ∈ gap.toList, isBlank c = true)
    (hgap : ∀ gap ∈ gaps.dropLast, gap ≠ "") :
    splitSentences (String.join (List.zipWith (· ++ ·) (splitSentences text) gaps)) =
      splitSentences text := by
  obtain ⟨lead, spans, h⟩ := exists_layout text.toList
  have hsentences := map_sentence_spaced hlength
  have hgaps := map_gap_spaced hlength
  have hsame : (spaced (splitSentences text) gaps).map Span.sentence =
      spans.map Span.sentence := by
    rw [hsentences, h.splitSentences_eq, List.map_map]
    exact List.map_congr_left fun span _ => String.toList_ofList
  -- both conditions are about the gaps alone, which are those that were given
  have hlayout := h.respace hsame ?blank ?gap
  case blank =>
    intro span hspan
    obtain ⟨gap, hmem, heq⟩ := exists_mem_of_map_eq hgaps hspan
    exact heq ▸ hblank gap hmem
  case gap =>
    intro span hspan
    have hinit : (spaced (splitSentences text) gaps).dropLast.map Span.gap =
        gaps.dropLast.map String.toList := by
      rw [List.map_dropLast, hgaps, List.map_dropLast]
    obtain ⟨gap, hmem, heq⟩ := exists_mem_of_map_eq hinit hspan
    exact heq ▸ mt String.toList_eq_nil_iff.mp (hgap gap hmem)
  rw [splitSentences, toList_join_spaced, hlayout.chunks_eq, hsentences, List.map_map]
  exact (List.map_congr_left fun sentence _ => String.ofList_toList).trans (List.map_id _)

/-! ## Sentences of joined texts -/

/-- With a gap between them, a text that ends with a break and any other text have the sentences of
the one and then those of the other, by `splitSentences`.  A sentence of a text is its own only
sentence; and when the sentences of a text are joined with any gaps between them, and a blank end or
none, then they are the sentences of what that gives. -/
theorem splitSentences_join :
    (∀ text gap rest : String, Closed text.toList → gap ≠ "" →
      (∀ c ∈ gap.toList, isBlank c = true) →
        splitSentences (text ++ gap ++ rest) = splitSentences text ++ splitSentences rest) ∧
    ∀ text : String,
      (∀ sentence ∈ splitSentences text, splitSentences sentence = [sentence]) ∧
      ∀ gaps : List String, gaps.length = (splitSentences text).length →
        (∀ gap ∈ gaps, ∀ c ∈ gap.toList, isBlank c = true) →
        (∀ gap ∈ gaps.dropLast, gap ≠ "") →
          splitSentences (String.join (List.zipWith (· ++ ·) (splitSentences text) gaps)) =
            splitSentences text := by
  refine ⟨fun text gap rest => splitSentences_append, fun text => ⟨fun sentence hsentence => ?_,
    fun gaps => splitSentences_spaced⟩⟩
  rw [splitSentences, (sentence_of_mem_splitSentences hsentence).chunks_eq, List.map_singleton,
    String.ofList_toList]

/-- `splitSentences` at the seam of two texts with blanks around, and of three sentences with other
gaps. -/
theorem splitSentences_join_greeting :
    splitSentences (" Hi!" ++ "\t" ++ " 3.5 o'clock, then ") =
        splitSentences " Hi!" ++ splitSentences " 3.5 o'clock, then " ∧
      splitSentences "3.5 o'clock," = ["3.5 o'clock,"] ∧
      splitSentences "Hi!\n3.5 o'clock,\t\tthen" =
        splitSentences " Hi! 3.5 o'clock, then" := by
  obtain ⟨happend, hjoin⟩ := splitSentences_join
  obtain ⟨hsentence, hspaced⟩ := hjoin " Hi! 3.5 o'clock, then"
  have hsplit : splitSentences " Hi! 3.5 o'clock, then" = ["Hi!", "3.5 o'clock,", "then"] := by
    decide
  have htab : ∀ c ∈ "\t".toList, isBlank c = true := List.all_eq_true.mp (by decide)
  have hblank : ∀ gap ∈ ["\n", "\t\t", ""], ∀ c ∈ gap.toList, isBlank c = true := by
    simp [isBlank]
  -- the seam is a break followed by a blank, so both sides are split apart
  refine ⟨happend _ _ _ ⟨'!', by decide, by decide⟩ (by decide) htab,
    hsentence _ (by rw [hsplit]; decide), ?_⟩
  rw [← hspaced ["\n", "\t\t", ""] (by rw [hsplit]; rfl) hblank (by decide), hsplit]
  rfl

end Utterance.Text
