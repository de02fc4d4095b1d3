import Utterance.Proofs.Scores.ArgMax
import Utterance.Proofs.Scores.Neutral
import Utterance.Proofs.Scores.Nucleus
import Utterance.Proofs.Scores.Peak

/-!
# Truncation and the lead

The position that leads is the first of the largest scores, and the ranking starts with a largest
score as well.  The two are the same position, unless the score that leads is `-0` and there is a
`0` after it: the zeros are equal, but the ranking has every `0` before the first `-0`.  So
truncation masks the score that leads in this case only, and then the first `0` takes the lead
(`Demoted`).

## Key results

- `Leads.keepTop`: top-k keeps the lead
- `Leads.keepNucleus`: the nucleus keeps the lead, or passes it on among the zeros
- `retains_truncation`, `retains_reweigh`: what becomes of the highest score
-/

namespace Utterance.Scores

open Binary Sampling

variable {scores before after : Scores} {exp : Float32 → Float32} {x : Float32} {i j : ℕ}

/-- A score that `Leads` keeps the lead when others are masked. -/
theorem Leads.of_masked (h : Leads before x i) (hi : after[i]? = some x)
    (hmasked : ∀ (j : ℕ) (y : Float32), after[j]? = some y →
      before[j]? = some y ∨ y = negInfinity) : Leads after x i := by
  -- a mask is below every score that leads
  refine ⟨hi, h.negInfinity_lt, fun y hy => ?_, fun j hj y hy => ?_⟩
  · obtain ⟨j, hj⟩ := List.mem_iff_getElem?.mp hy
    rcases hmasked j y hj with hbefore | rfl
    · exact h.not_lt y (List.mem_of_getElem? hbefore)
    · exact not_lt_negInfinity x
  · rcases hmasked j y hy with hbefore | rfl
    · exact h.not_le j hj y hbefore
    · intro hle
      exact not_lt_negInfinity _ (Binary.lt_of_lt_of_le h.negInfinity_lt hle)

/-! ## Top-k -/

/-- `keepTop` keeps every score that is as high as the one that leads, and adds none. -/
theorem Leads.getElem?_keepTop (h : Leads scores x i) (k : ℕ) {y : Float32} (hle : x ≤ y) :
    (keepTop k scores)[j]? = some y ↔ scores[j]? = some y := by
  rw [keepTop]
  cases hlimit : threshold k scores with
  | none => rfl
  | some limit =>
    -- the threshold is a score, and so not above the one that leads
    have hkept : ¬y < limit := fun hlt =>
      h.not_lt limit (threshold_mem hlimit) (Binary.lt_of_le_of_lt hle hlt)
    have hmask : y ≠ negInfinity := by
      rintro rfl
      exact not_lt_negInfinity _ (Binary.lt_of_lt_of_le h.negInfinity_lt hle)
    simp only [List.getElem?_map, Option.map_eq_some_iff]
    constructor
    · rintro ⟨z, hz, heq⟩
      split at heq
      · exact absurd heq.symm hmask
      · rw [hz, heq]
    · intro hy
      exact ⟨y, hy, if_neg hkept⟩

/-- What `keepTop` does not keep it masks. -/
theorem keepTop_masked (k : ℕ) {y : Float32} (hy : (keepTop k scores)[j]? = some y) :
    scores[j]? = some y ∨ y = negInfinity := by
  rw [keepTop] at hy
  -- without a threshold nothing changes; with one a score is kept or masked
  cases hlimit : threshold k scores with
  | none =>
    rw [hlimit] at hy
    exact .inl hy
  | some limit =>
    simp only [hlimit, List.getElem?_map, Option.map_eq_some_iff] at hy
    obtain ⟨z, hz, heq⟩ := hy
    split at heq
    · exact .inr heq.symm
    · exact .inl (heq ▸ hz)

/-- `keepTop` keeps the lead. -/
theorem Leads.keepTop (h : Leads scores x i) (k : ℕ) : Leads (keepTop k scores) x i := by
  obtain ⟨-, hnan, -⟩ := lt_iff.mp h.negInfinity_lt
  have hself : x ≤ x := le_iff.mpr ⟨hnan, hnan, le_rfl⟩
  exact h.of_masked ((h.getElem?_keepTop k hself).mpr h.getElem?_eq) fun _ _ => keepTop_masked k

/-! ## The nucleus -/

/-- The lead passes from a `-0` to the first `0`. -/
structure Demoted (before after : Scores) (i j : ℕ) : Prop where
  leads : Leads before negZero i
  getElem?_eq : before[j]? = some 0
  first : ∀ l < j, before[l]? ≠ some 0
  masked : after[i]? = some negInfinity
  leads_after : Leads after 0 j

/-- Only a `0` comes before a score that leads, and only before a `-0`. -/
theorem Leads.zeros_of_precedes (h : Leads scores x i) (hscores : Numbers scores)
    (hj : Precedes scores j i) : x = negZero ∧ scores[j]? = some 0 := by
  obtain ⟨y, x', hy, hx, hrank⟩ := hj
  obtain rfl := Option.some.inj (h.getElem?_eq.symm.trans hx)
  -- a score ranked before the leading one has the same count: it is `+0` before `-0`
  have hxnan := hscores x (List.mem_of_getElem? hx)
  have hynan := hscores y (List.mem_of_getElem? hy)
  rcases hrank with hlt | ⟨rfl, hlt⟩
  · -- the two have the same count and are not the same
    have hcount : count x = count y := le_antisymm (count_le_of_rank_le hxnan hynan hlt.le)
      (le_iff.mp ((not_lt_iff hxnan hynan).mp (h.not_lt y (List.mem_of_getElem? hy)))).2.2
    have hzero : count x = 0 := by
      by_contra hne
      rw [eq_of_count_eq hxnan hynan hcount hne] at hlt
      exact lt_irrefl _ hlt
    rcases eq_zero_of_count_eq_zero hxnan hzero with rfl | rfl <;>
      rcases eq_zero_of_count_eq_zero hynan (hcount.symm.trans hzero) with rfl | rfl
    · exact absurd hlt (lt_irrefl _)
    · exact absurd hlt (by decide)
    · exact ⟨rfl, hy⟩
    · exact absurd hlt (lt_irrefl _)
  · -- what is identical to the one that leads stands after it
    exact absurd (le_iff.mpr ⟨hxnan, hxnan, le_rfl⟩) (h.not_le j hlt y hy)

section KeepRanked

variable {m : ℕ} {y : Float32}

/-- Among kept scores no other zero stands before the first of the ranking, if that is a `0` and the
`-0` that leads is not kept. -/
private theorem not_le_of_first (h : Leads scores negZero i) (hscores : Numbers scores)
    (hi : i ∉ (ranking scores).take m) (hlowest : ∀ l < j, scores[l]? ≠ some 0) :
    -- a score that is at least `0` would be a `0` before `j`, or the leading `-0` itself
    ∀ l < j, ∀ y, (keepRanked m scores)[l]? = some y → ¬0 ≤ y := by
  intro l hl y hy hle
  rcases keepRanked_masked hy with ⟨hly, hkept⟩ | rfl
  · have hynan := hscores y (List.mem_of_getElem? hly)
    have hle' : y ≤ negZero :=
      (not_lt_iff (by decide) hynan).mp (h.not_lt y (List.mem_of_getElem? hly))
    have hcount : count y = 0 := le_antisymm (le_iff.mp hle').2.2 (nonneg_iff.mp hle).2
    rcases eq_zero_of_count_eq_zero hynan hcount with rfl | rfl
    · exact hlowest l hl hly
    · -- of the scores `-0` the one that leads comes first in the ranking
      rcases Nat.lt_trichotomy l i with hli | rfl | hil
      · exact h.not_le l hli negZero hly (by decide)
      · exact hi hkept
      · have hil : Precedes scores i l := ⟨negZero, negZero, h.getElem?_eq, hly, .inr ⟨rfl, hil⟩⟩
        exact hi (mem_take_ranking_of_precedes hkept hil)
  · exact absurd hle (by decide)

/-- `keepRanked` keeps the lead where it has the position that leads, and otherwise passes it on to
the first position of the ranking. -/
theorem Leads.keepRanked (h : Leads scores x i) (hscores : Numbers scores) (hm : 1 ≤ m) :
    Leads (keepRanked m scores) x i ∨ ∃ j, Demoted scores (keepRanked m scores) i j := by
  obtain ⟨hilength, -⟩ := List.getElem?_eq_some_iff.mp h.getElem?_eq
  -- the first position of the ranking is kept, whatever `m` is
  obtain ⟨j, rest, hranking, hfirst⟩ :=
    ranking_eq_cons (List.ne_nil_of_mem (List.mem_of_getElem? h.getElem?_eq))
  have hj : j ∈ (ranking scores).take m := by
    rw [hranking, ← Nat.sub_add_cancel hm, List.take_succ_cons]
    exact List.mem_cons_self
  by_cases hi : i ∈ (ranking scores).take m
  · refine .inl (h.of_masked ((getElem?_keepRanked hi).trans h.getElem?_eq) fun l y hy => ?_)
    exact (keepRanked_masked hy).imp_left And.left
  · -- a leading score that is masked is `-0`, and `j` holds the lowest `0`
    obtain ⟨rfl, hzero⟩ := h.zeros_of_precedes hscores
      ((hfirst i hilength).resolve_left fun heq => hi (heq ▸ hj))
    have hlowest : ∀ l < j, scores[l]? ≠ some 0 := by
      intro l hl hlzero
      obtain ⟨hllength, -⟩ := List.getElem?_eq_some_iff.mp hlzero
      have hlj : Precedes scores l j := ⟨0, 0, hlzero, hzero, .inr ⟨rfl, hl⟩⟩
      exact hlj.asymm ((hfirst l hllength).resolve_left hl.ne)
    refine .inr ⟨j, h, hzero, hlowest, ?_, (getElem?_keepRanked hj).trans hzero, by decide,
      fun y hy hlt => ?_, not_le_of_first h hscores hi hlowest⟩
    · simp only [Scores.keepRanked, List.getElem?_mapIdx, h.getElem?_eq, Option.map_some, if_neg hi]
    · -- what is above `0` would be above `-0`
      obtain ⟨l, hl⟩ := List.mem_iff_getElem?.mp hy
      rcases keepRanked_masked hl with ⟨hl, -⟩ | rfl
      · exact h.not_lt y (List.mem_of_getElem? hl) (Binary.lt_of_le_of_lt (by decide) hlt)
      · exact not_lt_negInfinity 0 hlt

end KeepRanked

variable {mass : Float32}

/-- `keepNucleus` keeps the lead, or passes it on among the zeros. -/
theorem Leads.keepNucleus (h : Leads scores x i) (hscores : Numbers scores)
    (exp : Float32 → Float32) (hmass : 0 < mass) :
    Leads (keepNucleus exp mass scores) x i ∨
      ∃ j, Demoted scores (keepNucleus exp mass scores) i j := by
  rcases exists_keepRanked exp hmass scores with hsame | ⟨m, hm, hkept⟩
  · rw [hsame]
    exact .inl h
  · rw [hkept]
    exact h.keepRanked hscores hm

/-! ## Both truncations -/

/-- After `keepTop` the lead passes on among the same zeros as it would have before. -/
theorem Demoted.of_keepTop {k : ℕ} (h : Demoted (keepTop k scores) after i j)
    (hleads : Leads scores x i) : Demoted scores after i j := by
  obtain rfl : x = negZero := by
    have hx := (hleads.keepTop k).getElem?_eq
    rw [h.leads.getElem?_eq] at hx
    exact (Option.some.inj hx).symm
  have hle : negZero ≤ 0 := by decide
  have hsame : ∀ l : ℕ, (Scores.keepTop k scores)[l]? = some 0 ↔ scores[l]? = some 0 :=
    fun l => hleads.getElem?_keepTop k hle
  exact ⟨hleads, (hsame j).mp h.getElem?_eq, fun l hl hzero => h.first l hl ((hsame l).mpr hzero),
    h.masked, h.leads_after⟩

/-- `argMax` is the same token, or the lead passed on among the zeros as `Demoted` has it. -/
def Retains (before after : Scores) : Prop :=
  argMax after = argMax before ∨ ∃ i j, Demoted before after i j

/-- Without zeros of both signs `argMax` is the same token before and after. -/
theorem Retains.argMax_eq (h : Retains before after) (hzeros : 0 ∉ before ∨ negZero ∉ before) :
    argMax after = argMax before := by
  rcases h with hsame | ⟨i, j, hdemoted⟩
  · exact hsame
  · rcases hzeros with hzero | hzero
    · exact absurd (List.mem_of_getElem? hdemoted.getElem?_eq) hzero
    · exact absurd (List.mem_of_getElem? hdemoted.leads.getElem?_eq) hzero

/-- `keepNucleus` after `keepTop` retains the highest score. -/
theorem retains_truncation (hscores : Numbers scores) (exp : Float32 → Float32) (k : ℕ)
    (hmass : 0 < mass) : Retains scores (keepNucleus exp mass (keepTop k scores)) := by
  have hkept := keepTop_narrows k hscores
  by_cases husable : Usable scores
  · obtain ⟨x, i, hleads⟩ := exists_leads husable
    rcases (hleads.keepTop k).keepNucleus hkept.numbers exp hmass with hafter | ⟨j, hdemoted⟩
    · exact .inl ((argMax_eq_of_leads hafter).trans (argMax_eq_of_leads hleads).symm)
    · exact .inr ⟨i, j, hdemoted.of_keepTop hleads⟩
  · -- truncation lifts no mask, so there is no highest score before or after it
    have hnarrows := hkept.trans (keepNucleus_narrows exp hmass hkept.numbers)
    have hafter := fun h => husable (hnarrows.usable hscores h)
    exact .inl ((argMax_of_not_usable hafter).trans (argMax_of_not_usable husable).symm)

/-- The stages of `truncation` do what both `keepTop` and `keepNucleus` do. -/
theorem reweigh_truncation {s : Settings} (hs : s.Valid) (exp : Float32 → Float32)
    (history : List Token) (scores : Scores) :
    reweigh exp (truncation s) history scores =
      keepNucleus exp s.topP (keepTop s.topK scores) := by
  obtain ⟨-, ⟨htopP, -, -⟩, -⟩ := s.valid_iff.mp hs
  -- a stage that is switched off does nothing, so the conditions can be dropped
  have hcount : s.topK = 0 → (Stage.topK s.topK).apply exp history scores = scores := by
    intro h
    rw [h]
    exact keepTop_zero scores
  have hmass : ∀ scores : Scores, ¬s.topP < 1 →
      (Stage.topP s.topP).apply exp history scores = scores := by
    intro scores h
    exact keepNucleus_of_one_le exp scores
      ((not_lt_iff (isNaN_of_isFinite htopP) (isNaN_of_isFinite isFinite_one)).mp h)
  rw [truncation, ← ite_not (s.topP < 1), reweigh_append, reweigh_unless hcount,
    reweigh_unless (hmass _)]
  rfl

/-- The pipeline `Retains` the highest score that penalty and temperature lead to. -/
theorem retains_reweigh {s : Settings} (hs : s.Valid) (hscores : Numbers scores)
    (exp : Float32 → Float32) (history : List Token) :
    Retains (reweigh exp (rescaling s) history scores) (reweigh exp (stages s) history scores) := by
  obtain ⟨-, ⟨-, hmass, -⟩, -⟩ := s.valid_iff.mp hs
  have hrescaled := reweigh_rescaling_narrows hs exp history hscores
  rw [stages_eq, reweigh_append, reweigh_truncation hs]
  exact retains_truncation hrescaled.numbers exp s.topK hmass

end Utterance.Scores
