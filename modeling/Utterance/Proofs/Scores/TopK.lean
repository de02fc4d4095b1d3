import Utterance.Proofs.Scores.Truncation

/-!
# The highest scores

Top-k truncation is described without its ranking: it keeps a score exactly when fewer than `k`
scores are above it (`InTop`).  Two truncations in a row do what the narrower one does.

## Key results

- `inTop_iff_not_lt`: comparing with the `k`-th of the ranking counts the scores above
- `keepTop_eq_map`: what becomes of each score
- `keepTop_exact`: the truncation as a whole
-/

namespace Utterance.Scores

open Binary

variable {scores : Scores} {k : ℕ} {x : Float32}

/-- Fewer than `k` scores are above `x`. -/
def InTop (k : ℕ) (scores : Scores) (x : Float32) : Prop :=
  scores.countP (x < ·) < k

/-- Whether a score is `InTop` is decided by counting. -/
instance (k : ℕ) (scores : Scores) (x : Float32) : Decidable (InTop k scores x) :=
  inferInstanceAs (Decidable (_ < k))

/-- A score that is no lower than one `InTop` has no more scores above it. -/
theorem InTop.mono {y : Float32} (hx : InTop k scores x) (hle : x ≤ y) : InTop k scores y := by
  refine (List.countP_mono_left fun z _ hz => ?_).trans_lt hx
  exact decide_eq_true (Binary.lt_of_le_of_lt hle (of_decide_eq_true hz))

/-- A score is not above itself, so all are `InTop` of no fewer than there are. -/
theorem inTop_of_length_le (hx : x ∈ scores) (hk : scores.length ≤ k) : InTop k scores x := by
  have hlt : scores.countP (x < ·) < scores.length :=
    List.countP_lt_length_iff.mpr ⟨x, hx, decide_eq_false (not_lt_self x)⟩
  exact hlt.trans_le hk

/-- `ranked` has the same scores, so counting along it is counting them. -/
private theorem countP_ranked (p : Float32 → Bool) :
    (ranked scores).countP (fun a => p a.1) = scores.countP p := by
  have hperm : ((ranked scores).map Prod.fst).Perm scores := by
    have h := (perm_ranked scores).map Prod.fst
    rwa [List.zipIdx_map_fst] at h
  rw [← hperm.countP_eq, List.countP_map]
  rfl

/-- In `ranked`, what is above a given value comes first. -/
private theorem pairwise_above (hscores : Numbers scores) (x : Float32) :
    (ranked scores).Pairwise fun a b => decide (x < b.1) = true → decide (x < a.1) = true := by
  refine (pairwise_ranked scores).imp_of_mem fun {a b} ha hb hle => ?_
  have hanan := hscores a.1 (List.mem_of_getElem? (mem_ranked.mp ha))
  have hbnan := hscores b.1 (List.mem_of_getElem? (mem_ranked.mp hb))
  rw [decide_eq_true_iff, decide_eq_true_iff]
  intro hlt
  obtain ⟨hxnan, -, hcount⟩ := lt_iff.mp hlt
  exact lt_iff.mpr ⟨hxnan, hanan, hcount.trans_le (count_le_of_rank_le hbnan hanan hle)⟩

/-- Not to be below the `k`-th of the ranking means to have fewer than `k` scores above. -/
theorem inTop_iff_not_lt (hscores : Numbers scores) {t : Float32 × ℕ}
    (ht : (ranked scores)[k]? = some t) (x : Float32) :
    InTop (k + 1) scores x ↔ ¬x < t.1 := by
  have hcount := lt_countP_iff (pairwise_above hscores x) ht
  rw [countP_ranked (fun y => decide (x < y)), decide_eq_true_iff] at hcount
  rw [InTop, ← hcount, Nat.lt_succ_iff, not_lt]

/-- `keepTop k` keeps a score if fewer than `k` are above it, and masks it otherwise. -/
theorem keepTop_eq_map (hscores : Numbers scores) (hk : 1 ≤ k) :
    keepTop k scores = scores.map fun x => if InTop k scores x then x else negInfinity := by
  obtain ⟨k, rfl⟩ := Nat.exists_eq_add_of_le' hk
  by_cases hlength : scores.length ≤ k + 1
  · -- a list no longer than `k` is kept whole
    rw [keepTop, threshold, if_pos (.inr hlength)]
    refine (List.map_id _).symm.trans (List.map_congr_left fun x hx => ?_)
    rw [if_pos (inTop_of_length_le hx hlength), id]
  · -- a proper truncation compares with the threshold
    obtain ⟨t, ht⟩ : ∃ t, (ranked scores)[k]? = some t := by
      have hk' : k < (ranked scores).length := by
        rw [length_ranked]
        omega
      exact ⟨_, List.getElem?_eq_getElem hk'⟩
    have hthreshold : threshold (k + 1) scores = some t.1 := by
      rw [threshold, if_neg (by omega), Nat.add_sub_cancel, ht, Option.map_some]
    rw [keepTop, hthreshold]
    refine List.map_congr_left fun x _ => ?_
    simp only [inTop_iff_not_lt hscores ht, ite_not]

/-- At least `k` scores are kept, where there are so many. -/
theorem min_le_countP_inTop (hscores : Numbers scores) (k : ℕ) :
    min k scores.length ≤ scores.countP (InTop k scores ·) := by
  have hfirst : ∀ t ∈ (ranked scores).take k, decide (InTop k scores t.1) = true := by
    intro t ht
    obtain ⟨i, hlt, hi⟩ := List.mem_take_iff_getElem.mp ht
    obtain ⟨hik, hilength⟩ := lt_min_iff.mp hlt
    -- the `i`-th of the ranking has at most `i` above it
    have htop : InTop (i + 1) scores t.1 :=
      (inTop_iff_not_lt hscores (List.getElem?_eq_some_iff.mpr ⟨hilength, hi⟩) t.1).mpr
        (not_lt_self t.1)
    exact decide_eq_true (htop.trans_le hik)
  calc min k scores.length = ((ranked scores).take k).length := by
        rw [List.length_take, length_ranked]
    _ = ((ranked scores).take k).countP (fun t => InTop k scores t.1) :=
        (List.countP_eq_length.mpr hfirst).symm
    _ ≤ (ranked scores).countP (fun t => InTop k scores t.1) :=
        (List.take_sublist _ _).countP_le
    _ = scores.countP (InTop k scores ·) := countP_ranked (fun x => InTop k scores x)

/-! ## Two truncations -/

variable {j : ℕ}

/-- A score that `keepTop` keeps has as many scores above it afterwards as before, since all of
these are kept. -/
private theorem inTop_keepTop_iff (hscores : Numbers scores) (hj : 1 ≤ j)
    (hx : InTop j scores x) : InTop k (keepTop j scores) x ↔ InTop k scores x := by
  -- the first truncation keeps all that is above a kept score
  have habove : (keepTop j scores).countP (x < ·) = scores.countP (x < ·) := by
    rw [keepTop_eq_map hscores hj, List.countP_map]
    refine List.countP_congr fun y _ => ?_
    simp only [Function.comp_apply, decide_eq_true_eq]
    constructor
    · intro hlt
      split at hlt
      · exact hlt
      · exact absurd hlt (not_lt_negInfinity x)
    · intro hlt
      rwa [if_pos (hx.mono (Binary.le_of_lt hlt))]
  rw [InTop, InTop, habove]

/-- A map over what `keepTop` leaves is one over the scores themselves. -/
private theorem map_keepTop (hscores : Numbers scores) (hj : 1 ≤ j) (g : Float32 → Float32) :
    (keepTop j scores).map g =
      scores.map fun x => g (if InTop j scores x then x else negInfinity) := by
  rw [keepTop_eq_map hscores hj, List.map_map]
  rfl

/-- Of two `keepTop`s in a row the narrower one decides. -/
theorem keepTop_keepTop (hscores : Numbers scores) (hj : 1 ≤ j) (hk : 1 ≤ k) :
    keepTop k (keepTop j scores) = keepTop (min j k) scores := by
  have hkept : Numbers (keepTop j scores) := (keepTop_narrows j hscores).numbers
  rw [keepTop_eq_map hkept hk, map_keepTop hscores hj, keepTop_eq_map hscores (le_min hj hk)]
  refine List.map_congr_left fun x _ => ?_
  by_cases hx : InTop j scores x
  · have hmin : InTop (min j k) scores x ↔ InTop k scores x :=
      lt_min_iff.trans (and_iff_right hx)
    simp only [if_pos hx, inTop_keepTop_iff hscores hj hx, hmin]
  · -- what the first truncation masks stays masked
    have hmin : ¬InTop (min j k) scores x := fun h => hx (lt_min_iff.mp h).1
    rw [if_neg hx, if_neg hmin, ite_self]

/-! ## The truncation as a whole -/

/-- Truncation to the `k` highest scores keeps a score as it is if fewer than `k` scores are above
it, and masks all others.  So it keeps at least `k` scores where there are so many, and all scores
equal to the `k`-th of the ranking; and two truncations in a row are one to the smaller number. -/
theorem keepTop_exact (hscores : Numbers scores) (hk : 1 ≤ k) :
    (keepTop k scores = scores.map fun x =>
      if scores.countP (x < ·) < k then x else negInfinity) ∧
    (min k scores.length ≤ scores.countP fun x => scores.countP (x < ·) < k) ∧
    (∀ (t x : Float32) (i j : ℕ), (ranked scores)[k - 1]? = some (t, i) → scores[j]? = some x →
      (x == t) = true → (keepTop k scores)[j]? = some x) ∧
    ∀ j, 1 ≤ j → keepTop k (keepTop j scores) = keepTop (min j k) scores := by
  refine ⟨keepTop_eq_map hscores hk, min_le_countP_inTop hscores k, fun t x i j ht hx hequal => ?_,
    fun j hj => keepTop_keepTop hscores hj hk⟩
  obtain ⟨hxnan, htnan, hcount⟩ := beq_iff.mp hequal
  obtain ⟨n, rfl⟩ := Nat.exists_eq_add_of_le' hk
  -- the `k`-th of the ranking is not below itself, and no other equal score is
  have htop : InTop (n + 1) scores x :=
    (inTop_iff_not_lt hscores ht x).mpr ((not_lt_iff hxnan htnan).mpr
      (le_iff.mpr ⟨htnan, hxnan, hcount.ge⟩))
  rw [keepTop_eq_map hscores hk, List.getElem?_map, hx, Option.map_some, if_pos htop]

/-- Of two zeros at the threshold `keepTop` keeps both, whatever their signs. -/
theorem keepTop_exact_zeros :
    let scores : Scores := [1, .ofBits 0x80000000, 0, -1, infinity]
    keepTop 3 scores = [1, .ofBits 0x80000000, 0, negInfinity, infinity] ∧
      keepTop 3 (keepTop 1 scores) =
        [negInfinity, negInfinity, negInfinity, negInfinity, infinity] := by
  intro scores
  have hscores : Numbers scores := by
    unfold Numbers
    decide
  obtain ⟨hmap, -, -, hagain⟩ := keepTop_exact (k := 3) hscores (by decide)
  refine ⟨hmap.trans (by decide), (hagain 1 le_rfl).trans ?_⟩
  exact (keepTop_eq_map hscores le_rfl).trans (by decide)

end Utterance.Scores
