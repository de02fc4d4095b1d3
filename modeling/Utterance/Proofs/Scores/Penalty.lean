import Utterance.Proofs.Scores.Rescaling

/-!
# Which tokens have been used

The penalty depends on the history only through the set of its tokens that have a score.  Going
through the history token by token, with the tokens seen so far kept aside, comes to the same: each
score is weighed down at the first use of its token and never again.  A score that is weighed down
does not rise, keeps to its side of 0, and stays infinite if it is.

## Key results

- `penalise_le`, `penalise_nonneg_iff`, `penalise_neg_iff`: one score
- `foldl_weighDown`: the history token by token
- `penaliseRepeats_of_used`: the scores as a whole
-/

namespace Utterance.Scores

open Binary

variable {p x : Float32} {scores : Scores} {history : List Token}

/-! ## One score -/

section Score

variable (hp : p.isFinite = true) (hp1 : 1 ≤ p)

include hp hp1

/-- `penalise` takes a finite score down, and not below 0 if it was not there. -/
private theorem count_penalise (hx : x.isFinite = true) :
    count (penalise p x) ≤ count x ∧ (0 ≤ count x → 0 ≤ count (penalise p x)) := by
  rw [penalise]
  split
  · next hlt =>
    have hneg := (lt_iff.mp hlt).2.2
    rw [count_zero] at hneg
    exact ⟨(mul_penalty hp hp1 hx).2.1 hneg.le, fun h => absurd h hneg.not_ge⟩
  · next hge =>
    have h0 := (nonneg_iff.mp ((not_lt_iff (isNaN_of_isFinite hx) isNaN_zero).mp hge)).2
    obtain ⟨-, hdiv0, hdivle⟩ := div_penalty hp hp1 hx h0
    exact ⟨hdivle, fun _ => hdiv0⟩

/-- `penalise` raises no score. -/
theorem penalise_le (hx : x.isNaN = false) : penalise p x ≤ x := by
  have hnan := (penalise_narrowed hp hp1 hx).1.isNaN_eq
  refine le_iff.mpr ⟨hnan, hx, ?_⟩
  rcases eq_or_isFinite hx with rfl | hfinite | rfl
  · rw [penalise_negInfinity hp hp1]
  · exact (count_penalise hp hp1 hfinite).1
  · rw [penalise_infinity hp hp1]

/-- `penalise` keeps what is not negative on its side of 0. -/
theorem penalise_nonneg_iff (hx : x.isNaN = false) : 0 ≤ penalise p x ↔ 0 ≤ x := by
  have hnan := (penalise_narrowed hp hp1 hx).1.isNaN_eq
  refine ⟨fun h => Binary.le_trans h (penalise_le hp hp1 hx), fun h => ?_⟩
  rcases eq_or_isFinite hx with rfl | hfinite | rfl
  · exact absurd h (by decide)
  · exact nonneg_iff.mpr ⟨hnan, (count_penalise hp hp1 hfinite).2 (nonneg_iff.mp h).2⟩
  · rwa [penalise_infinity hp hp1]

/-- `penalise` keeps what is negative on its side of 0. -/
theorem penalise_neg_iff (hx : x.isNaN = false) : penalise p x < 0 ↔ x < 0 := by
  have hnan := (penalise_narrowed hp hp1 hx).1.isNaN_eq
  rw [← not_le_iff isNaN_zero hnan, ← not_le_iff isNaN_zero hx, penalise_nonneg_iff hp hp1 hx]

end Score

/-! ## The history token by token -/

/-- The tokens seen so far and the scores, after one more token: its score is weighed down unless
the token was seen before. -/
def weighDown (p : Float32) (state : List Token × Scores) (token : Token) : List Token × Scores :=
  if token ∈ state.1 then state
  else (token :: state.1, state.2.modify token.toNat (penalise p))

/-- A score after one more token has gone through `weighDown`. -/
theorem getElem?_weighDown (p : Float32) (seen : List Token) (scores : Scores) (token : Token)
    (i : ℕ) :
    (weighDown p (seen, scores) token).2[i]? =
      if token ∉ seen ∧ token.toNat = i then scores[i]?.map (penalise p) else scores[i]? := by
  rw [weighDown]
  split_ifs with hseen h h
  · exact absurd hseen h.1
  · rfl
  · simp only [List.getElem?_modify, h.2, if_true]
    rfl
  · have hother : token.toNat ≠ i := fun heq => h ⟨hseen, heq⟩
    simp only [List.getElem?_modify, hother, if_false]
    exact Option.map_id'

/-- The scores after `weighDown` has gone through a history: those of its tokens that were not seen
before are weighed down once. -/
theorem foldl_weighDown (seen : List Token) (i : ℕ) :
    (history.foldl (weighDown p) (seen, scores)).2[i]? =
      if ∃ token ∈ history, token ∉ seen ∧ token.toNat = i then scores[i]?.map (penalise p)
      else scores[i]? := by
  -- induction on the history, for any scores and any tokens seen so far
  induction history generalizing seen scores with
  | nil => simp
  | cons token history ih =>
    have hstep := getElem?_weighDown p seen scores token i
    rw [weighDown] at hstep
    rw [List.foldl_cons, weighDown]
    by_cases hseen : token ∈ seen
    · -- a token seen before adds nothing
      rw [if_pos hseen, ih]
      simp only [List.mem_cons, exists_eq_or_imp, hseen, not_true_eq_false, false_and, false_or]
    · rw [if_neg hseen] at hstep ⊢
      rw [ih, hstep]
      by_cases htoken : token.toNat = i
      · -- no other token belongs to this score, so nothing is left to be weighed down
        have hnone : ¬∃ other ∈ history, other ∉ token :: seen ∧ other.toNat = i := by
          rintro ⟨other, -, hother, heq⟩
          exact hother (UInt32.toNat_inj.mp (heq.trans htoken.symm) ▸ List.mem_cons_self)
        rw [if_neg hnone, if_pos ⟨hseen, htoken⟩, if_pos ⟨token, List.mem_cons_self, hseen, htoken⟩]
      · have hrest : (∃ other ∈ history, other ∉ token :: seen ∧ other.toNat = i) ↔
            ∃ other ∈ token :: history, other ∉ seen ∧ other.toNat = i := by
          simp only [List.mem_cons, exists_eq_or_imp, htoken, and_false, false_or, not_or]
          refine exists_congr fun other => and_congr_right fun _ => ?_
          exact ⟨fun h => ⟨h.1.2, h.2⟩, fun h => ⟨⟨fun heq => htoken (heq ▸ h.2), h.1⟩, h.2⟩⟩
        simp only [hrest, htoken, and_false, if_false]

/-! ## All scores -/

/-- A token of the history belongs to the position. -/
def Used (history : List Token) (i : ℕ) : Prop :=
  ∃ token ∈ history, token.toNat = i

/-- `penaliseRepeats` applies the penalty to the scores of used tokens, and to no other. -/
theorem getElem?_penaliseRepeats (p : Float32) (history : List Token) (scores : Scores) (i : ℕ)
    [Decidable (Used history i)] :
    (penaliseRepeats p history scores)[i]? =
      if Used history i then scores[i]?.map (penalise p) else scores[i]? := by
  have hused : (Std.HashSet.ofList (history.map (·.toNat))).contains i = true ↔ Used history i :=
    contains_used history i
  simp only [penaliseRepeats, List.getElem?_mapIdx, hused]
  split
  · rfl
  · exact Option.map_id'

/-- `penaliseRepeats` does what `weighDown` does going through the history with nothing seen
before. -/
theorem penaliseRepeats_eq_foldl :
    penaliseRepeats p history scores = (history.foldl (weighDown p) ([], scores)).2 := by
  classical
  refine List.ext_getElem? fun i => ?_
  rw [getElem?_penaliseRepeats, foldl_weighDown]
  exact if_congr (by simp [Used]) rfl rfl

/-- `penaliseRepeats` does the same for histories with the same tokens, as far as these have a
score. -/
theorem penaliseRepeats_congr {others : List Token}
    (h : ∀ token : Token, token.toNat < scores.length → (token ∈ history ↔ token ∈ others)) :
    penaliseRepeats p history scores = penaliseRepeats p others scores := by
  classical
  refine List.ext_getElem? fun i => ?_
  rw [getElem?_penaliseRepeats, getElem?_penaliseRepeats]
  by_cases hi : i < scores.length
  · have hused : Used history i ↔ Used others i := by
      refine exists_congr fun token => and_congr_left fun heq => h token ?_
      rwa [heq]
    simp only [hused]
  · rw [List.getElem?_eq_none (Nat.le_of_not_lt hi), Option.map_none, ite_self, ite_self]

/-- For a finite penalty of at least 1 and scores that are numbers, going through the history token
by token gives the scores, and so does any other history with the same tokens as far as these have a
score.  The score of a token that was not used is the same as before.  That of a used one has the
penalty applied once: it is no higher, on the same side of 0, and an infinite one stays as it is. -/
theorem penaliseRepeats_of_used (hp : p.isFinite = true) (hp1 : 1 ≤ p) (hscores : Numbers scores)
    (history : List Token) :
    let after := penaliseRepeats p history scores
    after = (history.foldl (weighDown p) ([], scores)).2 ∧
      (∀ others : List Token,
        (∀ token : Token, token.toNat < scores.length → (token ∈ history ↔ token ∈ others)) →
        penaliseRepeats p others scores = after) ∧
      after.length = scores.length ∧
      (∀ i, ¬Used history i → after[i]? = scores[i]?) ∧
      ∀ i x, Used history i → scores[i]? = some x → ∃ y, after[i]? = some y ∧ y = penalise p x ∧
        y ≤ x ∧ (0 ≤ y ↔ 0 ≤ x) ∧ (y < 0 ↔ x < 0) ∧
        (x = infinity → y = infinity) ∧ (x = negInfinity → y = negInfinity) := by
  classical
  refine ⟨penaliseRepeats_eq_foldl, fun others h => (penaliseRepeats_congr h).symm,
    List.length_mapIdx, fun i hused => ?_, fun i x hused hx => ⟨_, ?_, rfl, ?_⟩⟩
  · -- positions of no used token are left alone
    rw [getElem?_penaliseRepeats, if_neg hused]
  · rw [getElem?_penaliseRepeats, if_pos hused, hx, Option.map_some]
  · have hnan := hscores x (List.mem_of_getElem? hx)
    refine ⟨penalise_le hp hp1 hnan, penalise_nonneg_iff hp hp1 hnan,
      penalise_neg_iff hp hp1 hnan, ?_, ?_⟩
    · rintro rfl
      exact penalise_infinity hp hp1
    · rintro rfl
      exact penalise_negInfinity hp hp1

/-- With a penalty of 2 and the history `2, 0, 2, 9`, where 9 has no score, `-inf` stays and 8 is
halved once.  The history `0, 2` weighs down the same scores. -/
theorem penaliseRepeats_of_used_repeated :
    let scores : Scores := [negInfinity, 3, 8, -1]
    let history : List Token := [2, 0, 2, 9]
    let others : List Token := [0, 2]
    Numbers scores ∧
      (∀ token : Token, token.toNat < scores.length → (token ∈ history ↔ token ∈ others)) ∧
      penaliseRepeats 2 others scores = penaliseRepeats 2 history scores ∧
      (penaliseRepeats 2 history scores)[2]? = some (4 : Float32) ∧
      (penaliseRepeats 2 history scores)[3]? = some (-1 : Float32) := by
  intro scores history others
  have hscores : Numbers scores := by
    unfold Numbers
    decide
  -- token 9 lies outside the scores, so it may be dropped from the history
  have hsame : ∀ token : Token, token.toNat < scores.length →
      (token ∈ history ↔ token ∈ others) := by
    intro token htoken
    have hne : token ≠ 9 := by
      rintro rfl
      exact absurd htoken (by decide)
    simp only [history, others, List.mem_cons, List.not_mem_nil, or_false, hne]
    tauto
  obtain ⟨-, hothers, -, hunused, hused⟩ :=
    penaliseRepeats_of_used (p := 2) (by decide) (by decide) hscores history
  refine ⟨hscores, hsame, hothers others hsame, ?_, ?_⟩
  · obtain ⟨y, hy, rfl, -⟩ := hused 2 8 ⟨2, by decide, by decide⟩ rfl
    rw [hy]
    decide
  · exact hunused 3 (by unfold Used; decide)

end Utterance.Scores
