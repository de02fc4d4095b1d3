import Utterance.Proofs.Text.Preparation

/-!
# The layout of a text

A text is a gap, a sentence, a gap, a sentence and so on, where gaps are blank and every sentence
but the last is closed by a break and has a gap after it (`Layout`).  Every text has a layout, and
its sentences are the ones that the text is split into.  So there is no other choice of sentences,
and nothing but blanks is lost.

## Key results

- `chunks_gap_append`, `chunks_sentence_append`: what splitting does at the start of a text
- `chunks_append_of_closed`: a cut between two texts keeps them apart
- `Layout.chunks_eq`: splitting finds the sentences of a layout
- `exists_layout`: every text has one
- `splitSentences_eq_iff`: the sentences of a text are those of its layout
-/

namespace Utterance.Text

/-- No break (`isBreak`) in the text is followed by a blank. -/
def Uncut (text : List Char) : Prop :=
  text.IsChain fun c d => isBreak c = true → isBlank d = false

/-- Neither end is blank, and the text is `Uncut` inside. -/
structure Sentence (text : List Char) : Prop extends Solid text where
  uncut : Uncut text

/-- The text ends with a break, as `isBreak` has it. -/
def Closed (text : List Char) : Prop :=
  ∃ c ∈ text.getLast?, isBreak c = true

/-- A `Sentence` and the gap after it. -/
structure Span where
  sentence : List Char
  gap : List Char

/-- The text of a `Span`: the sentence and then the gap. -/
def Span.text (span : Span) : List Char :=
  span.sentence ++ span.gap

/-- A text as a leading gap and spans.  Only the last `Span` may have an open end or no gap. -/
structure Layout (text : List Char) (lead : List Char) (spans : List Span) : Prop where
  text_eq : text = lead ++ spans.flatMap Span.text
  lead_blank : ∀ c ∈ lead, isBlank c = true
  gap_blank : ∀ span ∈ spans, ∀ c ∈ span.gap, isBlank c = true
  sentence : ∀ span ∈ spans, Sentence span.sentence
  closed : ∀ span ∈ spans.dropLast, Closed span.sentence ∧ span.gap ≠ []

variable {text run gap rest lead : List Char} {spans : List Span} {span : Span} {c : Char}

/-! ## Pieces -/

/-- A character that `isBreak` is not one that `isBlank`. -/
theorem isBlank_of_isBreak (h : isBreak c = true) : isBlank c = false := by
  simp only [isBreak, Bool.or_eq_true, beq_iff_eq] at h
  rcases h with (((rfl | rfl) | rfl) | rfl) | rfl <;> rfl

/-- There is always a first of the `pieces`, if only an empty one. -/
theorem exists_pieces_eq_cons (text : List Char) :
    ∃ piece others, pieces text = piece :: others := by
  cases text with
  | nil => exact ⟨[], [], rfl⟩
  | cons c rest =>
    rw [pieces]
    split
    · exact ⟨_, _, rfl⟩
    · split <;> exact ⟨_, _, rfl⟩

/-- `pieces` cuts behind a break that a blank follows. -/
theorem pieces_cons_of_cut (hc : isBreak c = true) (hrest : startsBlank rest = true) :
    pieces (c :: rest) = [c] :: pieces rest := by
  rw [pieces, hc, hrest]
  rfl

/-- `pieces` does not cut elsewhere: the character goes to the first piece. -/
theorem pieces_cons_of_uncut (h : isBreak c = true → startsBlank rest = false) :
    pieces (c :: rest) = (pieces rest).modifyHead (c :: ·) := by
  have hcut : ¬(isBreak c && startsBlank rest) = true := by
    rw [Bool.and_eq_true]
    rintro ⟨hc, hrest⟩
    rw [h hc] at hrest
    cases hrest
  obtain ⟨piece, others, hpieces⟩ := exists_pieces_eq_cons rest
  rw [pieces, if_neg hcut, hpieces]
  rfl

/-- Where a run is `Uncut` and there is no cut behind it, it goes to the first of the `pieces`. -/
theorem pieces_append_of_uncut (hrun : Uncut run)
    (hseam : Closed run → startsBlank rest = false) :
    pieces (run ++ rest) = (pieces rest).modifyHead (run ++ ·) := by
  -- induction on the run; nothing in it is cut, so it joins the first piece of the rest
  induction run with
  | nil =>
    obtain ⟨piece, others, hpieces⟩ := exists_pieces_eq_cons rest
    rw [List.nil_append, hpieces]
    rfl
  | cons c run ih =>
    have hc : isBreak c = true → startsBlank (run ++ rest) = false := by
      intro hc
      cases run with
      | nil => exact hseam ⟨c, rfl, hc⟩
      | cons d run => exact (List.isChain_cons_cons.mp hrun).1 hc
    have hlast : Closed run → startsBlank rest = false := by
      rintro ⟨d, hd, hbreak⟩
      exact hseam ⟨d, List.mem_getLast?_cons hd, hbreak⟩
    rw [List.cons_append, pieces_cons_of_uncut hc, ih hrun.tail hlast, List.modifyHead_modifyHead]
    rfl

/-- A run that is `Uncut` is its own only piece. -/
theorem pieces_of_uncut (h : Uncut run) : pieces run = [run] := by
  have hnone : Closed run → startsBlank [] = false := fun _ => rfl
  have happend := pieces_append_of_uncut h hnone
  rwa [List.append_nil, pieces, List.modifyHead_cons, List.append_nil] at happend

/-- Where a `Closed` text is followed by a blank, its `pieces` come before those of the rest. -/
theorem pieces_append_of_closed (h : Closed text) (hrest : startsBlank rest = true) :
    pieces (text ++ rest) = pieces text ++ pieces rest := by
  -- induction on the text, whose last character is the break
  induction text with
  | nil =>
    obtain ⟨c, hc, -⟩ := h
    cases hc
  | cons c text ih =>
    cases text with
    | nil =>
      obtain ⟨d, hd, hbreak⟩ := h
      obtain rfl : c = d := Option.some.inj hd
      rw [List.singleton_append, pieces_cons_of_cut hbreak hrest, pieces_cons_of_uncut fun _ => rfl]
      rfl
    | cons d text =>
      have hclosed : Closed (d :: text) := by rwa [Closed, List.getLast?_cons_cons] at h
      have hstart : startsBlank (d :: text ++ rest) = startsBlank (d :: text) := rfl
      by_cases hcut : isBreak c = true ∧ startsBlank (d :: text) = true
      · rw [List.cons_append, pieces_cons_of_cut hcut.1 (hstart.trans hcut.2), ih hclosed,
          pieces_cons_of_cut hcut.1 hcut.2, List.cons_append]
      · -- the first piece is one of the text, and grows in the same way
        have huncut : isBreak c = true → startsBlank (d :: text) = false := fun hbreak =>
          Bool.eq_false_iff.mpr fun hblank => hcut ⟨hbreak, hblank⟩
        obtain ⟨piece, others, hpieces⟩ := exists_pieces_eq_cons (d :: text)
        rw [List.cons_append, pieces_cons_of_uncut (hstart ▸ huncut), ih hclosed,
          pieces_cons_of_uncut huncut, hpieces]
        rfl

/-! ## Chunks -/

/-- `trim` leaves a text as it is that starts and ends with visible characters. -/
theorem trim_of_solid (h : Solid text) : trim text = text := by
  obtain ⟨⟨c, hhead, hc⟩, d, hlast, hd⟩ := h
  have hstart : trimStart text = text := by
    obtain ⟨rest, rfl⟩ := List.head?_eq_some_iff.mp hhead
    rw [trimStart, List.dropWhile_cons_of_neg (Bool.eq_false_iff.mp hc)]
  obtain ⟨init, rfl⟩ := List.getLast?_eq_some_iff.mp hlast
  rw [trim, hstart, trimEnd, List.reverse_append, List.reverse_singleton, List.singleton_append,
    List.dropWhile_cons_of_neg (Bool.eq_false_iff.mp hd), List.reverse_cons, List.reverse_reverse]

/-- A `Sentence` is not dropped as an empty piece. -/
private theorem Sentence.filter_cons (h : Sentence text) (others : List (List Char)) :
    ((text :: others).filter fun piece => !piece.isEmpty) =
      text :: others.filter fun piece => !piece.isEmpty := by
  obtain ⟨c, hhead, -⟩ := h.head
  obtain ⟨rest, rfl⟩ := List.head?_eq_some_iff.mp hhead
  rfl

/-- A gap is `Uncut`, and not `Closed`. -/
private theorem uncut_of_blank (hgap : ∀ c ∈ gap, isBlank c = true) :
    Uncut gap ∧ ¬Closed gap := by
  -- no blank is a break
  have hopen : ∀ c ∈ gap, ¬isBreak c = true := by
    intro c hc hbreak
    have hvisible := isBlank_of_isBreak hbreak
    rw [hgap c hc] at hvisible
    cases hvisible
  refine ⟨(List.pairwise_of_forall_mem_list fun c hc d _ hbreak => ?_).isChain, ?_⟩
  · exact absurd hbreak (hopen c hc)
  · rintro ⟨c, hc, hbreak⟩
    exact hopen c (List.mem_of_getLast? hc) hbreak

/-- A gap in front of a text does not matter to its `chunks`. -/
theorem chunks_gap_append (hgap : ∀ c ∈ gap, isBlank c = true) (rest : List Char) :
    chunks (gap ++ rest) = chunks rest := by
  obtain ⟨huncut, hopen⟩ := uncut_of_blank hgap
  obtain ⟨piece, others, hpieces⟩ := exists_pieces_eq_cons rest
  have hnone : ∀ c ∈ [], isBlank c = true := nofun
  have htrim : trim (gap ++ piece) = trim piece := by
    have hblank := trim_of_blank hgap hnone piece
    rwa [List.append_nil] at hblank
  rw [chunks, chunks, pieces_append_of_uncut huncut fun hclosed => absurd hclosed hopen, hpieces,
    List.modifyHead_cons, List.map_cons, List.map_cons, htrim]

/-- There are no `chunks` in a gap. -/
theorem chunks_of_blank (hgap : ∀ c ∈ gap, isBlank c = true) : chunks gap = [] := by
  have hchunks := chunks_gap_append hgap []
  rw [List.append_nil] at hchunks
  exact hchunks.trans (by decide)

/-- Where there is a cut behind a text, its `chunks` come before those of the rest. -/
theorem chunks_append_of_closed (h : Closed text) (hrest : startsBlank rest = true) :
    chunks (text ++ rest) = chunks text ++ chunks rest := by
  rw [chunks, pieces_append_of_closed h hrest, List.map_append, List.filter_append, chunks, chunks]

/-- A `Sentence` is its own only chunk. -/
theorem Sentence.chunks_eq (h : Sentence text) : chunks text = [text] := by
  rw [chunks, pieces_of_uncut h.uncut, List.map_singleton, trim_of_solid h.toSolid, h.filter_cons,
    List.filter_nil]

/-- A `Sentence` that is `Closed` and followed by a blank is the first chunk. -/
theorem chunks_sentence_append (h : Sentence text) (hclosed : Closed text)
    (hrest : startsBlank rest = true) : chunks (text ++ rest) = text :: chunks rest := by
  rw [chunks_append_of_closed hclosed hrest, h.chunks_eq, List.singleton_append]

/-- A `Sentence` with nothing but a gap behind it is the only chunk. -/
theorem chunks_sentence (h : Sentence text) (hgap : ∀ c ∈ gap, isBlank c = true) :
    chunks (text ++ gap) = [text] := by
  by_cases hcut : Closed text ∧ startsBlank gap = true
  · rw [chunks_sentence_append h hcut.1 hcut.2, chunks_of_blank hgap]
  · -- without a cut the gap is in the same piece, and trimmed away
    have hseam : Closed text → startsBlank gap = false := fun hclosed =>
      Bool.eq_false_iff.mpr fun hblank => hcut ⟨hclosed, hblank⟩
    rw [chunks, pieces_append_of_uncut h.uncut hseam, pieces_of_uncut (uncut_of_blank hgap).1,
      List.modifyHead_cons, List.map_singleton, trim_append_blank hgap, trim_of_solid h.toSolid,
      h.filter_cons, List.filter_nil]

/-! ## Layouts -/

/-- What is left of a `Layout` behind its first sentence is a layout. -/
theorem Layout.tail (h : Layout text lead (span :: spans)) :
    Layout (span.gap ++ spans.flatMap Span.text) span.gap spans where
  text_eq := rfl
  lead_blank := h.gap_blank span List.mem_cons_self
  gap_blank next hnext := h.gap_blank next (List.mem_cons_of_mem _ hnext)
  sentence next hnext := h.sentence next (List.mem_cons_of_mem _ hnext)
  closed next hnext := by
    refine h.closed next ?_
    -- the last span has been last all along
    cases spans with
    | nil => cases hnext
    | cons second others =>
      rw [List.dropLast_cons_cons]
      exact List.mem_cons_of_mem _ hnext

/-- `chunks` finds the sentences of a layout. -/
theorem Layout.chunks_eq (h : Layout text lead spans) : chunks text = spans.map Span.sentence := by
  induction spans generalizing text lead with
  | nil =>
    rw [h.text_eq, List.flatMap_nil, List.append_nil, chunks_of_blank h.lead_blank, List.map_nil]
  | cons span spans ih =>
    have hsentence := h.sentence span List.mem_cons_self
    have hgap := h.gap_blank span List.mem_cons_self
    rw [h.text_eq, chunks_gap_append h.lead_blank, List.flatMap_cons, Span.text, List.append_assoc,
      List.map_cons]
    cases spans with
    | nil => rw [List.flatMap_nil, List.append_nil, chunks_sentence hsentence hgap, List.map_nil]
    | cons next others =>
      -- this is not the last sentence, so there is a cut behind it
      obtain ⟨hclosed, hne⟩ := h.closed span List.mem_cons_self
      have hblank : startsBlank (span.gap ++ (next :: others).flatMap Span.text) = true := by
        obtain ⟨c, gap, hsplit⟩ := List.exists_cons_of_ne_nil hne
        rw [hsplit] at hgap ⊢
        exact hgap c List.mem_cons_self
      rw [chunks_sentence_append hsentence hclosed hblank, ih h.tail]

/-- A text of blanks has a `Layout` without sentences. -/
theorem Layout.nil (hlead : ∀ c ∈ lead, isBlank c = true) : Layout lead lead [] where
  text_eq := (List.append_nil lead).symm
  lead_blank := hlead
  gap_blank := nofun
  sentence := nofun
  closed := nofun

/-- A `Sentence`, which is `Closed` unless nothing comes after it, in front of a `Layout` makes a
layout. -/
theorem Layout.cons (h : Layout rest gap spans) (hsentence : Sentence run)
    (hclosed : spans ≠ [] → Closed run ∧ gap ≠ []) :
    Layout (run ++ rest) [] (⟨run, gap⟩ :: spans) where
  text_eq := by rw [h.text_eq, List.flatMap_cons, Span.text, List.append_assoc, List.nil_append]
  lead_blank := nofun
  gap_blank := List.forall_mem_cons.mpr ⟨h.lead_blank, h.gap_blank⟩
  sentence := List.forall_mem_cons.mpr ⟨hsentence, h.sentence⟩
  closed := by
    -- the new span is the last one only where no other follows
    cases spans with
    | nil => nofun
    | cons next others =>
      rw [List.dropLast_cons_cons]
      exact List.forall_mem_cons.mpr ⟨hclosed (List.cons_ne_nil _ _), h.closed⟩

/-- A `Sentence` may start further in front, if that puts no cut inside of it. -/
private theorem Sentence.extend (h : Sentence text) (hc : isBlank c = false)
    (hgap : ∀ c ∈ gap, isBlank c = true) (hcut : isBreak c = true → gap = []) :
    Sentence (c :: (gap ++ text)) := by
  obtain ⟨d, hlast, hd⟩ := h.last
  obtain ⟨huncut, hopen⟩ := uncut_of_blank hgap
  refine ⟨⟨⟨c, rfl, hc⟩, d, ?_, hd⟩, List.isChain_cons.mpr ⟨fun e he hbreak => ?_,
    List.isChain_append.mpr ⟨huncut, h.uncut, fun e he _ _ hbreak => ?_⟩⟩⟩
  · exact List.mem_getLast?_cons (List.mem_getLast?_append_of_mem_getLast? hlast)
  · -- behind a break there is no gap, and the sentence starts with a visible character
    obtain ⟨d, hhead, hd⟩ := h.head
    rw [hcut hbreak, List.nil_append] at he
    rwa [Option.mem_unique he hhead]
  · exact absurd ⟨e, he, hbreak⟩ hopen

/-- The first sentence of a `Layout` may start further in front. -/
theorem Layout.extend (h : Layout text lead (span :: spans)) (hc : isBlank c = false)
    (hcut : isBreak c = true → lead = []) :
    Layout (c :: text) [] (⟨c :: (lead ++ span.sentence), span.gap⟩ :: spans) := by
  have hsentence := (h.sentence span List.mem_cons_self).extend hc h.lead_blank hcut
  -- the first sentence grows to the front, and the others stay
  have hlayout := h.tail.cons hsentence fun hne => ?_
  · rw [h.text_eq]
    simpa [Span.text] using hlayout
  · obtain ⟨next, others, rfl⟩ := List.exists_cons_of_ne_nil hne
    obtain ⟨⟨d, hlast, hbreak⟩, hgap⟩ := h.closed span List.mem_cons_self
    have hend : d ∈ (c :: (lead ++ span.sentence)).getLast? :=
      List.mem_getLast?_cons (List.mem_getLast?_append_of_mem_getLast? hlast)
    exact ⟨⟨d, hend, hbreak⟩, hgap⟩

/-- Every text has a `Layout`. -/
theorem exists_layout (text : List Char) : ∃ lead spans, Layout text lead spans := by
  -- one more character in front opens a gap, a sentence, or starts the first sentence earlier
  induction text with
  | nil => exact ⟨[], [], .nil nofun⟩
  | cons c rest ih =>
    obtain ⟨lead, spans, h⟩ := ih
    by_cases hc : isBlank c = true
    · -- a blank goes to the gap in front
      exact ⟨c :: lead, spans, { h with
        text_eq := by rw [h.text_eq, List.cons_append]
        lead_blank := List.forall_mem_cons.mpr ⟨hc, h.lead_blank⟩ }⟩
    · rw [Bool.not_eq_true] at hc
      have hsentence : Sentence [c] := ⟨⟨⟨c, rfl, hc⟩, c, rfl, hc⟩, .singleton c⟩
      cases spans with
      | nil => exact ⟨[], _, h.cons hsentence fun hne => absurd rfl hne⟩
      | cons span spans =>
        by_cases hcut : isBreak c = true → lead = []
        · exact ⟨[], _, h.extend hc hcut⟩
        · -- a break with a gap behind it is a sentence of its own
          obtain ⟨hbreak, hne⟩ := Classical.not_imp.mp hcut
          exact ⟨[], _, h.cons hsentence fun _ => ⟨⟨c, rfl, hbreak⟩, hne⟩⟩

/-! ## Visible characters -/

/-- The characters of a text that are not blank, as `isBlank` has it. -/
def visible (text : List Char) : List Char :=
  text.filter (!isBlank ·)

/-- The `visible` characters of one text and another come one after the other. -/
theorem visible_append (text rest : List Char) :
    visible (text ++ rest) = visible text ++ visible rest :=
  List.filter_append text rest

/-- There are no `visible` characters in a gap. -/
theorem visible_of_blank (hgap : ∀ c ∈ gap, isBlank c = true) : visible gap = [] := by
  refine List.filter_eq_nil_iff.mpr fun c hc => ?_
  simp [hgap c hc]

/-- The `visible` characters of a text are those of the sentences of its `Layout`, in the same
order. -/
theorem Layout.visible_eq (h : Layout text lead spans) :
    visible text = spans.flatMap fun span => visible span.sentence := by
  -- induction on the spans: a gap has nothing visible in it
  induction spans generalizing text lead with
  | nil => rw [h.text_eq, visible_append, visible_of_blank h.lead_blank]; rfl
  | cons span spans ih =>
    have hgap := h.gap_blank span List.mem_cons_self
    have htail := ih h.tail
    rw [visible_append, visible_of_blank hgap, List.nil_append] at htail
    rw [h.text_eq, visible_append, visible_of_blank h.lead_blank, List.nil_append,
      List.flatMap_cons, Span.text, visible_append, visible_append, visible_of_blank hgap,
      List.append_nil, htail, List.flatMap_cons]

/-! ## Sentences -/

/-- `splitSentences` finds the sentences of a layout, as texts. -/
theorem Layout.splitSentences_eq {text : String} (h : Layout text.toList lead spans) :
    splitSentences text = spans.map fun span => String.ofList span.sentence := by
  rw [splitSentences, h.chunks_eq, List.map_map]
  rfl

/-- What `splitSentences` gives are sentences. -/
theorem sentence_of_mem_splitSentences {text sentence : String}
    (h : sentence ∈ splitSentences text) : Sentence sentence.toList := by
  obtain ⟨lead, spans, hlayout⟩ := exists_layout text.toList
  rw [hlayout.splitSentences_eq] at h
  obtain ⟨span, hspan, rfl⟩ := List.mem_map.mp h
  rw [String.toList_ofList]
  exact hlayout.sentence span hspan

/-- `splitSentences` finds the sentences of the only `Layout` a text has: with blank gaps around
them that are not empty between two sentences, where every sentence starts and ends with a visible
character, all but the last end with a break, and none has a break inside that a blank follows.
There are no sentences exactly when the text is blank, and no visible character is lost, doubled or
moved. -/
theorem splitSentences_eq_iff (text : String) :
    (∀ sentences, splitSentences text = sentences ↔
      ∃ lead spans, Layout text.toList lead spans ∧
        sentences.map String.toList = spans.map Span.sentence) ∧
    (splitSentences text = [] ↔ ∀ c ∈ text.toList, isBlank c = true) ∧
    (splitSentences text).flatMap (fun sentence => visible sentence.toList) =
      visible text.toList := by
  obtain ⟨lead, spans, h⟩ := exists_layout text.toList
  have hchunks := h.chunks_eq
  refine ⟨fun sentences => ⟨?_, ?_⟩, ⟨fun hnil => ?_, fun hblank => ?_⟩, ?_⟩
  · -- the sentences found are those of the layout
    rintro rfl
    refine ⟨lead, spans, h, ?_⟩
    rw [splitSentences, hchunks, List.map_map, List.map_map]
    exact List.map_congr_left fun span _ => String.toList_ofList
  · -- whatever the layout is, splitting finds its sentences
    rintro ⟨lead', spans', h', hsentences⟩
    rw [splitSentences, h'.chunks_eq, ← hsentences, List.map_map]
    exact (List.map_congr_left fun sentence _ => String.ofList_toList).trans (List.map_id _)
  · -- without a sentence the text is its leading blank
    rw [splitSentences, List.map_eq_nil_iff, hchunks, List.map_eq_nil_iff] at hnil
    subst hnil
    rw [h.text_eq, List.flatMap_nil, List.append_nil]
    exact h.lead_blank
  · rw [splitSentences, chunks_of_blank hblank, List.map_nil]
  · -- only blanks are dropped
    rw [h.visible_eq, splitSentences, hchunks, List.map_map, List.flatMap_map]
    simp only [Function.comp_apply, String.toList_ofList]

/-- A break without a blank behind it cuts nothing, and blanks around sentences are lost. -/
example : splitSentences " It costs 3.50,  really. " = ["It costs 3.50,", "really."] := by decide

end Utterance.Text
