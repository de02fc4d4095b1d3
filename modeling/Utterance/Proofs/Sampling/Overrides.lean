import Utterance.Proofs.Sampling.Settings

/-!
# Overrides after overrides

Settings that overrides have been applied to are settings again, and later overrides apply to them.
The result is that of one request, in which the later overrides stand over the earlier ones.

## Key results

- `Settings.merge_merge`: knobs that are set twice
- `Settings.override_eq_ok_iff`: which overrides are accepted, and what they give
- `Settings.override_composes`: what accepted overrides do, and what later ones make of the result
-/

namespace Utterance.Sampling

/-- No negative number of scores is asked for by `topK`. -/
def Overrides.CountsScores (o : Overrides) : Prop :=
  ∀ k, o.topK = some k → 0 ≤ k

/-- `c` has the knobs that `o` sets, and is like `s` otherwise: what `Settings.merge` is to give. -/
structure Settings.Overridden (s : Settings) (o : Overrides) (c : Settings) : Prop where
  temperature : c.temperature = o.temperature.getD s.temperature
  topK : (c.topK : Int) = o.topK.getD s.topK
  topP : c.topP = o.topP.getD s.topP
  repetitionPenalty : c.repetitionPenalty = o.repetitionPenalty.getD s.repetitionPenalty
  maxSteps : c.maxSteps = o.maxSteps.getD s.maxSteps
  seed : c.seed = o.seed.or s.seed
  startToken : c.startToken = s.startToken
  stopToken : c.stopToken = s.stopToken

variable {s c : Settings} {o earlier : Overrides}

/-! ## Merged knobs -/

/-- Two `merge`s in a row are one, in which the `later` knobs stand over the `earlier` ones. -/
theorem Settings.merge_merge (s : Settings) (earlier later : Overrides) :
    (s.merge earlier).merge later = s.merge (later.over earlier) := by
  simp only [Settings.merge, Overrides.over, Option.getD_or, Option.map_or, Option.or_assoc]

/-- `merge` sets what the overrides ask for and leaves the rest. -/
theorem Settings.overridden_merge (h : o.CountsScores) : s.Overridden o (s.merge o) where
  temperature := rfl
  -- the only knob that changes its type on the way: an integer becomes a count
  topK := by
    cases hk : o.topK with
    | none => simp [Settings.merge, hk]
    | some k => simpa [Settings.merge, hk] using h k hk
  topP := rfl
  repetitionPenalty := rfl
  maxSteps := rfl
  seed := rfl
  startToken := rfl
  stopToken := rfl

/-! ## Accepted overrides -/

/-- A negative `topK` is refused before anything else is looked at. -/
theorem Settings.override_of_neg {k : Int} (h : o.topK = some k) (hk : k < 0) :
    s.override o = .error (.negativeTopK k) := by
  cases k with
  | ofNat n => exact absurd hk (Int.natCast_nonneg n).not_gt
  | negSucc n => simp [Settings.override, h]

/-- Without a negative count, `override` is `merge` followed by the check of what it gives. -/
theorem Settings.override_of_countsScores (h : o.CountsScores) :
    s.override o = (s.merge o).check.map fun _ => s.merge o := by
  have hnot (n : Nat) : o.topK ≠ some (.negSucc n) := fun hk => by
    have hnonneg := h _ hk
    omega
  unfold Settings.override
  split
  · next n hk => exact absurd hk (hnot n)
  · simp only [bind_pure_comp]
    rfl

/-- A request `CountsScores`, or it has a negative count to be refused for. -/
theorem Overrides.countsScores_or_neg (o : Overrides) :
    o.CountsScores ∨ ∃ k, o.topK = some k ∧ k < 0 := by
  cases hk : o.topK with
  | none => exact .inl fun k hset => nomatch hk.symm.trans hset
  | some k =>
    rcases lt_or_ge k 0 with hneg | hnonneg
    · exact .inr ⟨k, rfl, hneg⟩
    · refine .inl fun k' hset => ?_
      cases hk.symm.trans hset
      exact hnonneg

/-- `override` accepts a request if it has no negative count and the check passes what `merge`
gives. -/
theorem Settings.override_eq_ok_iff :
    s.override o = .ok c ↔ o.CountsScores ∧ (s.merge o).Valid ∧ c = s.merge o := by
  obtain hcounts | ⟨k, hk, hneg⟩ := o.countsScores_or_neg
  · -- the check decides; what it passes is what `merge` gives
    rw [override_of_countsScores hcounts, Settings.Valid]
    cases hcheck : (s.merge o).check with
    | error fault => exact iff_of_false nofun nofun
    | ok =>
      constructor
      · rintro ⟨⟩
        exact ⟨hcounts, rfl, rfl⟩
      · rintro ⟨-, -, rfl⟩
        rfl
  · rw [override_of_neg hk hneg]
    refine iff_of_false nofun fun ⟨hcounts, _⟩ => ?_
    have hnonneg := hcounts k hk
    omega

/-! ## Later overrides -/

/-- `override` by later ones after an accepted request does what the joint request does, faults
included.  A negative count of the later ones is reported before all else; if there is none, neither
has the joint request one. -/
theorem Settings.override_merge (hearlier : earlier.CountsScores) (later : Overrides) :
    (s.merge earlier).override later = s.override (later.over earlier) := by
  obtain hlater | ⟨k, hk, hneg⟩ := later.countsScores_or_neg
  · -- each count is asked for by the later or by the earlier request
    have hboth : (later.over earlier).CountsScores := by
      intro k hk
      rw [Overrides.over, Option.or_eq_some_iff] at hk
      obtain hk | ⟨-, hk⟩ := hk
      · exact hlater k hk
      · exact hearlier k hk
    rw [override_of_countsScores hlater, override_of_countsScores hboth, merge_merge]
  · have hboth : (later.over earlier).topK = some k := by rw [Overrides.over, hk, Option.some_or]
    rw [override_of_neg hk hneg, override_of_neg hboth hneg]

/-- `override` accepts exactly the requests without a negative count whose `merge` is in range. What
it gives has the requested knobs and passes the check again, and later overrides make of it what the
joint request makes of the base. -/
theorem Settings.override_composes (base : Settings) (earlier : Overrides) :
    ((∃ c, base.override earlier = .ok c) ↔
      (∀ k, earlier.topK = some k → 0 ≤ k) ∧ (base.merge earlier).Valid) ∧
    ∀ c, base.override earlier = .ok c →
      base.Overridden earlier c ∧ c.Valid ∧
      ∀ later, c.override later = base.override (later.over earlier) := by
  constructor
  · constructor
    · rintro ⟨c, h⟩
      obtain ⟨hcounts, hvalid, -⟩ := override_eq_ok_iff.mp h
      exact ⟨hcounts, hvalid⟩
    · rintro ⟨hcounts, hvalid⟩
      exact ⟨base.merge earlier, override_eq_ok_iff.mpr ⟨hcounts, hvalid, rfl⟩⟩
  · intro c h
    obtain ⟨hcounts, hvalid, rfl⟩ := override_eq_ok_iff.mp h
    exact ⟨overridden_merge hcounts, hvalid, override_merge hcounts⟩

/-- A `topK` of 5 is accepted, and the temperature of 0 that is asked for next is refused in the
words that both together are refused in. -/
theorem Settings.override_composes_twice :
    ∃ c, ({} : Settings).override { topK := some 5 } = .ok c ∧ c.topK = 5 ∧
      c.override { temperature := some 0 } =
        ({} : Settings).override { temperature := some 0, topK := some 5 } := by
  obtain ⟨haccepted, hresult⟩ := Settings.override_composes {} { topK := some 5 }
  obtain ⟨c, hc⟩ := haccepted.mpr ⟨fun k hk => by cases hk; decide, by decide +kernel⟩
  obtain ⟨hoverridden, -, hlater⟩ := hresult c hc
  have htopK := hoverridden.topK
  rw [Option.getD_some] at htopK
  exact ⟨c, hc, by omega, hlater _⟩

end Utterance.Sampling
