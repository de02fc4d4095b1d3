import Utterance.Proofs.Text.Preparation

/-!
# What is left of markup

Each kind of markup is erased in one pass, and the last pass may join what an earlier one has left:
without the asterisks, `#**#` becomes a `##`.  This is the only way for markup to survive, so we can
tell from the text before the last pass whether it does (`Bridged`).  A text without markup stays as
it is when it is cleaned again.

## Key results

- `erases_erase`: the steps by which a pattern is erased
- `Erases.double_iff`: when erasing doubled characters leaves two others side by side
- `unmarked_stripped_iff`: when no markup is left of a text
- `stripped_eq_self_iff`: which texts stay as they are
- `sanitize_unmarked_iff`: what is left of markup in a text that is spoken
-/

namespace Utterance.Text

variable {pattern text rest result gap : List Char} {c x y : Char}

/-! ## Erasing step by step -/

/-- What `erase` does, character by character: a pattern is erased from left to right. -/
inductive Erases (pattern : List Char) : List Char → List Char → Prop
  | nil : Erases pattern [] []
  | erase {rest result : List Char} (h : Erases pattern rest result) :
      Erases pattern (pattern ++ rest) result
  | keep {c : Char} {rest result : List Char} (hpattern : ¬pattern <+: c :: rest)
      (h : Erases pattern rest result) : Erases pattern (c :: rest) (c :: result)

/-- `eraseFrom` passes over the characters that are to be skipped, and then erases. -/
theorem eraseFrom_eq_erase (pattern text : List Char) (skip : ℕ) :
    eraseFrom pattern skip text = erase (text.drop skip) pattern := by
  induction text generalizing skip with
  | nil =>
    rw [List.drop_nil]
    cases skip <;> rfl
  | cons c rest ih =>
    cases skip with
    | zero => rfl
    | succ skip => exact ih skip

/-- `erase` takes a pattern away from the start. -/
theorem erase_append (hne : pattern ≠ []) (rest : List Char) :
    erase (pattern ++ rest) pattern = erase rest pattern := by
  obtain ⟨c, more, rfl⟩ := List.exists_cons_of_ne_nil hne
  have hpattern : (c :: more).isPrefixOf (c :: (more ++ rest)) = true :=
    List.isPrefixOf_iff_prefix.mpr (List.prefix_append (c :: more) rest)
  rw [erase, List.cons_append, eraseFrom, if_pos hpattern, eraseFrom_eq_erase, List.length_cons,
    Nat.add_sub_cancel, List.drop_left]

/-- `erase` keeps a character that no pattern starts with. -/
theorem erase_cons (hpattern : ¬pattern <+: c :: rest) :
    erase (c :: rest) pattern = c :: erase rest pattern := by
  rw [erase, eraseFrom, if_neg (mt List.isPrefixOf_iff_prefix.mp hpattern), erase]

/-- `erase` goes by the steps of `Erases`. -/
theorem erases_erase (hne : pattern ≠ []) (text : List Char) :
    Erases pattern text (erase text pattern) := by
  -- along the recursion of `erase`, skipping the pattern where it stands
  match text with
  | [] => exact .nil
  | c :: rest =>
    by_cases hpattern : pattern <+: c :: rest
    · obtain ⟨tail, htail⟩ := hpattern
      have hlength := congrArg List.length htail
      have hpos := List.length_pos_iff.mpr hne
      rw [← htail, erase_append hne]
      exact .erase (erases_erase hne tail)
    · rw [erase_cons hpattern]
      exact .keep hpattern (erases_erase hne rest)
termination_by text.length
decreasing_by
  · rw [List.length_append] at hlength
    omega
  · exact Nat.lt_succ_self _

namespace Erases

/-- What `Erases` a pattern makes no text longer. -/
theorem length_le (h : Erases pattern text result) : result.length ≤ text.length := by
  induction h with
  | nil => exact le_rfl
  | erase _ ih =>
    rw [List.length_append]
    omega
  | keep _ _ ih => exact Nat.succ_le_succ ih

/-- What `Erases` a pattern leaves a text without it as it is. -/
theorem eq_self (h : Erases pattern text result) (hfree : ¬pattern <:+: text) : result = text := by
  induction h with
  | nil => rfl
  | erase _ _ => exact absurd (List.prefix_append _ _).isInfix hfree
  | keep _ _ ih => rw [ih fun hfound => hfree (List.infix_cons hfound)]

/-- What `Erases` a pattern makes a text with the pattern shorter. -/
theorem length_lt (hne : pattern ≠ []) (h : Erases pattern text result)
    (hfound : pattern <:+: text) : result.length < text.length := by
  -- a kept character moves the first occurrence into the rest
  induction h with
  | nil => exact absurd (List.infix_nil.mp hfound) hne
  | erase h _ =>
    have hle := h.length_le
    have hpos := List.length_pos_iff.mpr hne
    rw [List.length_append]
    omega
  | keep hpattern _ ih =>
    obtain hstart | hlater := List.infix_cons_iff.mp hfound
    · exact absurd hstart hpattern
    · exact Nat.succ_lt_succ (ih hlater)

end Erases

/-- A text without any of the patterns stays as it is when `erase` goes through them. -/
theorem foldl_erase_eq_self {patterns : List (List Char)} (hne : ∀ pattern ∈ patterns, pattern ≠ [])
    (hfree : ∀ pattern ∈ patterns, ¬pattern <:+: text) : patterns.foldl erase text = text := by
  induction patterns with
  | nil => rfl
  | cons pattern patterns ih =>
    obtain ⟨hpattern, hne⟩ := List.forall_mem_cons.mp hne
    obtain ⟨hfirst, hfree⟩ := List.forall_mem_cons.mp hfree
    rw [List.foldl_cons, (erases_erase hpattern text).eq_self hfirst, ih hne hfree]

/-- `erase` makes no text longer, with one pattern after the other either. -/
theorem length_foldl_erase_le {patterns : List (List Char)}
    (hne : ∀ pattern ∈ patterns, pattern ≠ []) (text : List Char) :
    (patterns.foldl erase text).length ≤ text.length := by
  induction patterns generalizing text with
  | nil => exact le_rfl
  | cons pattern patterns ih =>
    obtain ⟨hpattern, hne⟩ := List.forall_mem_cons.mp hne
    exact (ih hne _).trans (erases_erase hpattern text).length_le

/-- A text that is as long as before `erase` went through the patterns had none of them in it. -/
theorem free_of_foldl_erase {patterns : List (List Char)}
    (hne : ∀ pattern ∈ patterns, pattern ≠ [])
    (hlength : text.length ≤ (patterns.foldl erase text).length) :
    ∀ pattern ∈ patterns, ¬pattern <:+: text := by
  induction patterns with
  | nil => nofun
  | cons pattern patterns ih =>
    obtain ⟨hpattern, hne⟩ := List.forall_mem_cons.mp hne
    -- one pattern that is found makes the text shorter, and no later one makes up for it
    have herases := erases_erase hpattern text
    rw [List.foldl_cons] at hlength
    have hfirst : ¬pattern <:+: text := fun hfound => by
      have hlt := herases.length_lt hpattern hfound
      have hle := length_foldl_erase_le hne (erase text pattern)
      omega
    rw [herases.eq_self hfirst] at hlength
    exact List.forall_mem_cons.mpr ⟨hfirst, ih hne hlength⟩

/-! ## Doubled characters -/

/-- Two of `x` with an even number of `y` between them. -/
def bridge (x y : Char) (n : ℕ) : List Char :=
  x :: (List.replicate (2 * n) y ++ [x])

/-- `List.replicate` of one pair more has two more of the character in front. -/
theorem replicate_two_mul_succ (y : Char) (n : ℕ) :
    List.replicate (2 * (n + 1)) y = y :: y :: List.replicate (2 * n) y :=
  rfl

namespace Erases

/-- What starts with `y` after pairs of it are erased did so before. -/
theorem starts_of_starts (h : Erases [y, y] text result) (hstart : [y] <+: result) :
    [y] <+: text := by
  cases h with
  | nil => exact hstart
  | erase => exact List.prefix_append [y] _
  | keep => simpa using hstart

/-- What `Erases` a doubled character does so for good: what is left between two erased pairs does
not join to another. -/
theorem not_double (h : Erases [y, y] text result) : ¬[y, y] <:+: result := by
  induction h with
  | nil => simp
  | erase _ ih => exact ih
  | keep hpattern h ih =>
    rw [List.infix_cons_iff, not_or]
    refine ⟨fun hstart => hpattern ?_, ih⟩
    obtain ⟨rfl, hnext⟩ := List.cons_prefix_cons.mp hstart
    exact List.cons_prefix_cons.mpr ⟨rfl, h.starts_of_starts hnext⟩

/-- What comes to the start when a doubled `y` is erased: another `x` does if an even number of `y`
stands in front of it. -/
theorem starts_iff (hxy : x ≠ y) (h : Erases [y, y] text result) :
    [x] <+: result ↔ ∃ n, List.replicate (2 * n) y ++ [x] <+: text := by
  induction h with
  | nil => simp
  | erase _ ih =>
    rw [ih]
    constructor
    · rintro ⟨n, hn⟩
      refine ⟨n + 1, ?_⟩
      rw [replicate_two_mul_succ]
      simpa using hn
    · rintro ⟨n, hn⟩
      cases n with
      | zero => simp [hxy] at hn
      | succ n =>
        rw [replicate_two_mul_succ] at hn
        exact ⟨n, by simpa using hn⟩
  | keep hpattern _ _ =>
    constructor
    · exact fun hstart => ⟨0, by simpa using hstart⟩
    · rintro ⟨n, hn⟩
      cases n with
      | zero => simpa using hn
      | succ n =>
        -- the pattern would have been erased here
        refine absurd (List.IsPrefix.trans ?_ hn) hpattern
        rw [replicate_two_mul_succ]
        exact List.prefix_append [y, y] _

/-- Erasing a doubled character puts two others side by side exactly where there was a `bridge`. -/
theorem double_iff (hxy : x ≠ y) (h : Erases [y, y] text result) :
    [x, x] <:+: result ↔ ∃ n, bridge x y n <:+: text := by
  induction h with
  | nil => simp [bridge]
  | erase _ ih =>
    simp only [ih, bridge, List.cons_append, List.nil_append, List.infix_cons_iff,
      List.cons_prefix_cons, hxy, false_and, false_or]
  | keep hpattern h ih =>
    simp only [List.infix_cons_iff, ih, bridge, List.cons_prefix_cons, h.starts_iff hxy, exists_or,
      exists_and_left]

end Erases

/-! ## Blanks around -/

/-- A `Solid` pattern is not in the blanks at the start, nor does it start in them. -/
theorem Solid.infix_blank_append (h : Solid pattern) (hgap : ∀ c ∈ gap, isBlank c = true)
    (hfound : pattern <:+: gap ++ rest) : pattern <:+: rest := by
  induction gap with
  | nil => exact hfound
  | cons c gap ih =>
    obtain ⟨hc, hgap⟩ := List.forall_mem_cons.mp hgap
    obtain hstart | hlater := List.infix_cons_iff.mp hfound
    · exact absurd hstart (h.not_prefix_blank hc)
    · exact ih hgap hlater

/-- A `Solid` pattern is not in the blanks at the end, nor does it reach into them. -/
theorem Solid.infix_append_blank (h : Solid pattern) (hgap : ∀ c ∈ gap, isBlank c = true)
    (hfound : pattern <:+: text ++ gap) : pattern <:+: text := by
  induction text with
  | nil =>
    refine h.infix_blank_append hgap ?_
    rwa [List.append_nil]
  | cons c text ih =>
    rw [List.cons_append, List.infix_cons_iff, ← List.cons_append,
      h.prefix_append_blank_iff hgap] at hfound
    exact List.infix_cons_iff.mpr (hfound.imp_right ih)

/-- The blanks that `trim` cuts off do not matter to whether a solid pattern is in a text. -/
theorem Solid.infix_trim_iff (h : Solid pattern) : pattern <:+: trim text ↔ pattern <:+: text := by
  obtain ⟨gap, gap', htext, hgap, hgap'⟩ := exists_blank_trim text
  constructor
  · intro hfound
    rw [htext]
    exact hfound.trans (List.infix_append' gap (trim text) gap')
  · intro hfound
    rw [htext] at hfound
    exact h.infix_append_blank hgap' (h.infix_blank_append hgap hfound)

/-! ## Markup -/

/-- No pattern of `markup` is in the text. -/
def Unmarked (text : List Char) : Prop :=
  ∀ pattern ∈ markup, ¬pattern <:+: text

/-- The text before the last pass has two `#` with an even number of `*` between them. -/
def Bridged (text : List Char) : Prop :=
  ∃ n, bridge '#' '*' n <:+: erase (erase text "## Response".toList) "##".toList

/-- No pattern of `markup` is empty. -/
theorem ne_nil_of_mem_markup (h : pattern ∈ markup) : pattern ≠ [] := by
  have hne : ∀ pattern ∈ markup, pattern ≠ [] := by decide
  exact hne pattern h

/-- The longest pattern of `markup` starts like the heading, so there are two kinds to look for. -/
theorem unmarked_iff : Unmarked text ↔ ¬['#', '#'] <:+: text ∧ ¬['*', '*'] <:+: text := by
  -- the longer heading starts with the shorter one, so two patterns suffice
  have hlonger : ['#', '#'] <+: "## Response".toList := by decide
  constructor
  · exact fun h => ⟨h _ (by decide), h _ (by decide)⟩
  · rintro ⟨hheading, hstrong⟩ pattern hpattern
    simp only [markup, List.mem_cons, List.not_mem_nil, or_false] at hpattern
    obtain rfl | rfl | rfl := hpattern
    · exact fun hfound => hheading (hlonger.isInfix.trans hfound)
    · exact hheading
    · exact hstrong

/-- A kind of markup is in what `stripped` leaves of a text if it is there after the last pass. -/
theorem infix_stripped_iff (h : pattern ∈ markup) : pattern <:+: stripped text ↔
    pattern <:+: erase (erase (erase text "## Response".toList) "##".toList) ['*', '*'] :=
  (solid_of_mem_markup h).infix_trim_iff

/-- The last pass of `stripped` erases doubled asterisks step by step. -/
theorem erases_strong (text : List Char) : Erases ['*', '*'] text (erase text ['*', '*']) :=
  erases_erase (List.cons_ne_nil _ _) text

/-- `stripped` leaves no doubled asterisks. -/
theorem not_strong_infix_stripped (text : List Char) : ¬['*', '*'] <:+: stripped text := by
  rw [infix_stripped_iff (by decide)]
  exact (erases_strong _).not_double

/-- `stripped` leaves markup exactly where there is a bridge before the last pass. -/
theorem unmarked_stripped_iff : Unmarked (stripped text) ↔ ¬Bridged text := by
  rw [unmarked_iff, Bridged, ← (erases_strong _).double_iff (by decide),
    infix_stripped_iff (by decide)]
  exact and_iff_left (not_strong_infix_stripped text)

/-- `trim` makes no text longer. -/
theorem length_trim_le (text : List Char) : (trim text).length ≤ text.length := by
  obtain ⟨gap, gap', htext, -, -⟩ := exists_blank_trim text
  have hlength := congrArg List.length htext
  rw [List.length_append, List.length_append] at hlength
  omega

/-- `stripped` leaves a trimmed text as it is exactly when there is no markup in it. -/
theorem stripped_eq_self_iff (htrim : trim text = text) : stripped text = text ↔ Unmarked text := by
  have hne : ∀ pattern ∈ markup, pattern ≠ [] := fun _ => ne_nil_of_mem_markup
  constructor
  · -- trimming and erasing never lengthen, so equal lengths mean that nothing was erased
    intro hsame
    refine free_of_foldl_erase hne ?_
    have hle := length_trim_le (markup.foldl erase text)
    have hlength : (stripped text).length = text.length := congrArg List.length hsame
    exact hlength.symm.trans_le hle
  · intro hfree
    rw [stripped, foldl_erase_eq_self hne hfree, htrim]

/-! ## Spoken texts -/

/-- The text reads like a prompt and not like a reply: it starts with one of `scaffolding`. -/
def Scaffold (text : List Char) : Prop :=
  ∃ start ∈ scaffolding, start <+: text

/-- The test of `sanitize` for prompts, as a property of the text. -/
theorem any_isPrefixOf_iff :
    (scaffolding.any fun start => start.isPrefixOf text) = true ↔ Scaffold text := by
  simp only [List.any_eq_true, List.isPrefixOf_iff_prefix, Scaffold]

/-- Whether a text is a `Scaffold` is decided by that test. -/
instance : DecidablePred Scaffold :=
  fun _ => decidable_of_iff _ any_isPrefixOf_iff

/-- `sanitize` replaces a prompt by the fallback. -/
theorem sanitize_of_scaffold {text fallback : String} (h : Scaffold (stripped text.toList)) :
    sanitize text fallback = fallback :=
  if_pos (any_isPrefixOf_iff.mpr h)

/-- `sanitize` gives what is left of a reply. -/
theorem sanitize_of_not_scaffold {text fallback : String}
    (h : ¬Scaffold (stripped text.toList)) :
    sanitize text fallback = String.ofList (stripped text.toList) :=
  if_neg (mt any_isPrefixOf_iff.mp h)

/-- What is left of markup in the text that `sanitize` makes of a reply.  There are no doubled
asterisks, and it is `Unmarked` unless there is a bridge before the last pass.  Without markup the
text stays as it is when it is cleaned again; with some it does not, unless it takes itself for its
fallback. -/
theorem sanitize_unmarked_iff {text fallback spoken : String}
    (hreply : ¬Scaffold (stripped text.toList)) (hspoken : sanitize text fallback = spoken) :
    ¬"**".toList <:+: spoken.toList ∧
    (Unmarked spoken.toList ↔ ¬Bridged text.toList) ∧
    ∀ fallback', sanitize spoken fallback' = spoken ↔
      Unmarked spoken.toList ∨ Scaffold (stripped spoken.toList) ∧ fallback' = spoken := by
  have htext : spoken.toList = stripped text.toList := by
    rw [← hspoken, sanitize_of_not_scaffold hreply, String.toList_ofList]
  have htrim : trim spoken.toList = spoken.toList := by
    rw [htext, stripped, trim_trim]
  have hself := stripped_eq_self_iff htrim
  refine ⟨htext ▸ not_strong_infix_stripped _, htext ▸ unmarked_stripped_iff, fun fallback' => ?_⟩
  by_cases hscaffold : Scaffold (stripped spoken.toList)
  · -- so cleaning changes the text, and there is markup in it
    have hmarked : ¬Unmarked spoken.toList := by
      intro hfree
      rw [hself.mpr hfree, htext] at hscaffold
      exact hreply hscaffold
    rw [sanitize_of_scaffold hscaffold]
    exact ⟨fun heq => .inr ⟨hscaffold, heq⟩, fun hcases => (hcases.resolve_left hmarked).2⟩
  · -- what is no scaffold is cleaned to itself just when it is free of markup
    rw [sanitize_of_not_scaffold hscaffold, ← hself, ← String.toList_inj, String.toList_ofList]
    exact (or_iff_left fun hboth => hscaffold hboth.1).symm

/-- A heading that the last pass of `sanitize` makes stays in the text that is spoken, and is erased
when that is cleaned again. -/
theorem sanitize_leaves_heading :
    ¬Scaffold (stripped "#**# Title".toList) ∧
      sanitize "#**# Title" greeting = "## Title" ∧ "##".toList <:+: "## Title".toList ∧
      sanitize "## Title" greeting = "Title" :=
  ⟨mt any_isPrefixOf_iff.mpr (by decide), by decide, by decide, by decide⟩

/-- A single asterisk is no `bridge`: no markup is left of this reply. -/
theorem sanitize_unmarked_iff_reply :
    ¬Scaffold (stripped "## Response\n**#*# 1**".toList) ∧
      sanitize "## Response\n**#*# 1**" greeting = "#*# 1" ∧
      ¬Bridged "## Response\n**#*# 1**".toList ∧
      ∀ fallback, sanitize "#*# 1" fallback = "#*# 1" := by
  have hreply : ¬Scaffold (stripped "## Response\n**#*# 1**".toList) :=
    mt any_isPrefixOf_iff.mpr (by decide)
  have hspoken : sanitize "## Response\n**#*# 1**" greeting = "#*# 1" := by decide
  have hfree : Unmarked "#*# 1".toList := unmarked_iff.mpr ⟨by decide, by decide⟩
  obtain ⟨-, hbridged, hagain⟩ := sanitize_unmarked_iff hreply hspoken
  exact ⟨hreply, hspoken, hbridged.mp hfree, fun fallback => (hagain fallback).mpr (.inl hfree)⟩

end Utterance.Text
