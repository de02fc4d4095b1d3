import Utterance.Proofs.Text.Markup
import Utterance.Proofs.Text.Sentence

/-!
# What is left to speak

The chunks of a text have its visible characters, in the same order.  There are no chunks if it has
none, and there is one in each chunk: sentences start with one, and a text that is not split has
been trimmed.  That is not done to a greeting, so a greeting of blanks is a chunk on its own unless
it is split (`Mute`).

## Key results

- `visible_clean`: a text without visible characters that is spoken is empty, if it is not mute
- `visible_prepare`: the visible characters of the chunks
- `chunks_of_not_mute`, `prepare_of_mute`: the chunks of a text that is not mute, and of one that is
-/

namespace Utterance.Text

variable {run : List Char}

/-- A text has no `visible` characters exactly when it is all blank. -/
theorem visible_eq_nil_iff : visible run = [] ↔ ∀ c ∈ run, isBlank c = true := by
  rw [visible, List.filter_eq_nil_iff]
  simp only [Bool.not_eq_true', Bool.not_eq_false]

/-- An empty text has no `visible` characters. -/
theorem visible_of_isEmpty {text : String} (h : text.isEmpty = true) :
    visible text.toList = [] := by
  rw [String.isEmpty_iff.mp h]
  rfl

/-- A `Solid` text has a visible character, the one it starts with. -/
theorem Solid.visible_ne_nil (h : Solid run) : visible run ≠ [] := by
  obtain ⟨c, hhead, hc⟩ := h.head
  intro hnone
  rw [visible_eq_nil_iff.mp hnone c (List.mem_of_mem_head? hhead)] at hc
  cases hc

/-- `trim` leaves nothing of blanks. -/
theorem eq_nil_of_visible_trim (h : visible (trim run) = []) : trim run = [] := by
  have hnone : ∀ c ∈ [], isBlank c = true := nofun
  have htrim := trim_of_blank (visible_eq_nil_iff.mp h) hnone []
  rw [List.nil_append, List.append_nil, trim_trim] at htrim
  exact htrim

/-! ## Prepared texts -/

/-- A prompt (`Scaffold`) is replaced by a greeting of blanks, which is not split. -/
structure Mute (s : Settings) (text : String) : Prop where
  sanitize : s.sanitize = true
  unsplit : s.splitSentences = false
  scaffold : Scaffold (stripped text.toList)
  greeting_ne : s.greeting ≠ ""
  greeting_blank : visible s.greeting.toList = []

variable {s : Settings} {text : String}

/-- What `prepare` does with a text that is to be split. -/
theorem prepare_of_split (h : s.splitSentences = true) (text : String) :
    prepare s text = (clean s text, splitSentences (clean s text)) :=
  if_pos h

/-- What `prepare` does with a text that is not: an empty one gives no chunks. -/
theorem prepare_of_unsplit (h : s.splitSentences = false) (text : String) :
    prepare s text =
      (clean s text, if (clean s text).isEmpty then [] else [clean s text]) := by
  have hunsplit : ¬s.splitSentences = true := Bool.eq_false_iff.mp h
  rw [prepare, if_neg hunsplit]
  split <;> rfl

/-- What `clean` gives is the greeting, or has been trimmed. -/
theorem clean_cases (s : Settings) (text : String) :
    (s.sanitize = true ∧ Scaffold (stripped text.toList) ∧ clean s text = s.greeting) ∨
      ∃ spoken, clean s text = String.ofList (trim spoken) := by
  rw [clean]
  split
  · next hsanitize =>
    by_cases hscaffold : Scaffold (stripped text.toList)
    · exact .inl ⟨hsanitize, hscaffold, sanitize_of_scaffold hscaffold⟩
    · exact .inr ⟨_, sanitize_of_not_scaffold hscaffold⟩
  · exact .inr ⟨_, rfl⟩

/-- Without `visible` characters there is nothing to speak at all, unless the text is `Mute`. -/
theorem visible_clean (h : ¬Mute s text) (hunsplit : s.splitSentences = false)
    (hblank : visible (clean s text).toList = []) : clean s text = "" := by
  obtain ⟨hsanitize, hscaffold, hclean⟩ | ⟨spoken, hclean⟩ := clean_cases s text
  · by_contra hne
    rw [hclean] at hne hblank
    exact h ⟨hsanitize, hunsplit, hscaffold, hne, hblank⟩
  · rw [hclean, String.toList_ofList] at hblank
    rw [hclean, eq_nil_of_visible_trim hblank, String.ofList_nil]

/-! ## Chunks -/

/-- `splitSentences` keeps the visible characters of a text. -/
theorem visible_splitSentences (text : String) :
    (splitSentences text).flatMap (fun sentence => visible sentence.toList) =
      visible text.toList := by
  obtain ⟨lead, spans, h⟩ := exists_layout text.toList
  rw [h.splitSentences_eq, List.flatMap_map, h.visible_eq]
  simp only [String.toList_ofList]

/-- The visible characters of the chunks are those of the text that `prepare` leaves. -/
theorem visible_prepare (s : Settings) (text : String) :
    (prepare s text).2.flatMap (fun chunk => visible chunk.toList) =
      visible (prepare s text).1.toList := by
  cases hsplit : s.splitSentences with
  | true =>
    rw [prepare_of_split hsplit]
    exact visible_splitSentences _
  | false =>
    rw [prepare_of_unsplit hsplit]
    -- an empty text is no chunk, any other text is one
    by_cases hempty : (clean s text).isEmpty = true
    · rw [if_pos hempty, visible_of_isEmpty hempty, List.flatMap_nil]
    · rw [if_neg hempty, List.flatMap_singleton]

/-- There is a `visible` character in each chunk, unless the text is `Mute`. -/
theorem chunks_of_not_mute (h : ¬Mute s text) :
    ∀ chunk ∈ (prepare s text).2, visible chunk.toList ≠ [] := by
  -- sentences start with one; a text that is not split is empty or has one
  cases hsplit : s.splitSentences with
  | true =>
    rw [prepare_of_split hsplit]
    exact fun chunk hchunk => (sentence_of_mem_splitSentences hchunk).visible_ne_nil
  | false =>
    rw [prepare_of_unsplit hsplit]
    by_cases hempty : (clean s text).isEmpty = true
    · rw [if_pos hempty]
      nofun
    · rw [if_neg hempty, List.forall_mem_singleton]
      exact fun hblank => hempty (String.isEmpty_iff.mpr (visible_clean h hsplit hblank))

/-- Unless the text is `Mute`, there are no chunks exactly when there are no `visible`
characters. -/
theorem chunks_eq_nil_iff (h : ¬Mute s text) :
    (prepare s text).2 = [] ↔ visible (prepare s text).1.toList = [] := by
  rw [← visible_prepare, List.flatMap_eq_nil_iff]
  constructor
  · intro hnil
    rw [hnil]
    nofun
  · intro hblank
    refine List.eq_nil_iff_forall_not_mem.mpr fun chunk hchunk => ?_
    exact chunks_of_not_mute h chunk hchunk (hblank chunk hchunk)

/-- The greeting of a text that is `Mute` is its only chunk. -/
theorem prepare_of_mute (h : Mute s text) : prepare s text = (s.greeting, [s.greeting]) := by
  have hclean : clean s text = s.greeting := by
    rw [clean, if_pos h.sanitize, sanitize_of_scaffold h.scaffold]
  have hsome : ¬s.greeting.isEmpty = true := mt String.isEmpty_iff.mp h.greeting_ne
  rw [prepare_of_unsplit h.unsplit, hclean, if_neg hsome]

end Utterance.Text
