import Utterance.Proofs.Scores.Ranking
import Utterance.Scores.TopK
import Utterance.Scores.TopP

/-!
# Truncation

Top-k and nucleus truncation mask scores and change no other.  Neither masks all of the highest
scores: the threshold of top-k is one of the scores, and the nucleus is a prefix of the ranking with
at least one position (`exists_keepRanked`).
-/

namespace Utterance.Scores

open Binary

variable {scores : Scores}

/-! ## Top-k -/

/-- `threshold` gives one of the scores. -/
theorem threshold_mem {k : ℕ} {x : Float32} (h : threshold k scores = some x) : x ∈ scores := by
  rw [threshold] at h
  split at h
  · cases h
  · obtain ⟨⟨y, i⟩, hy, rfl⟩ := Option.map_eq_some_iff.mp h
    exact List.mem_of_getElem? (mem_ranked.mp (List.mem_of_getElem? hy))

/-- `keepTop` narrows the scores: it masks some, and certain ones are never below the threshold. -/
theorem keepTop_narrows (k : ℕ) (hscores : Numbers scores) :
    Narrows scores (keepTop k scores) := by
  rw [keepTop]
  -- without a threshold the scores are as they were
  split
  · exact .refl hscores
  · next limit hlimit =>
    refine .of_map (fun x hx => ?_) ?_
    · split
      · exact .mask x
      · exact .refl (hscores x hx)
    · -- nothing is above `inf`
      refine if_neg fun hlt => ?_
      have hle := (abs_le.mp (abs_count_le limit)).2
      have hcount := (lt_iff.mp hlt).2.2
      rw [count_infinity] at hcount
      omega

/-- `keepTop` leaves usable scores usable, since it keeps the threshold itself. -/
theorem keepTop_usable (k : ℕ) (husable : Usable scores) : Usable (keepTop k scores) := by
  rw [keepTop]
  split
  · exact husable
  · next least hleast =>
    obtain ⟨x, hx, hlt⟩ := husable
    by_cases hmask : negInfinity < least
    · -- the threshold itself stays
      refine ⟨least, List.mem_map.mpr ⟨least, threshold_mem hleast, if_neg fun h => ?_⟩, hmask⟩
      exact lt_irrefl _ (lt_iff.mp h).2.2
    · -- a masked threshold masks nothing
      refine ⟨x, List.mem_map.mpr ⟨x, hx, if_neg fun h => hmask ?_⟩, hlt⟩
      obtain ⟨-, -, hlow⟩ := lt_iff.mp hlt
      obtain ⟨-, hnan, hless⟩ := lt_iff.mp h
      exact lt_iff.mpr ⟨isNaN_negInfinity, hnan, hlow.trans hless⟩

/-! ## The nucleus -/

variable {exp : Float32 → Float32} {mass : Float32} {probability : ℕ → Float32} {order : List ℕ}

/-- Once the mass is reached `nucleus` takes no position. -/
theorem nucleus_of_reached {total : Float32} (h : mass ≤ total) (order : List ℕ) :
    nucleus mass probability total order = [] := by
  induction order with
  | nil => rfl
  | cons i rest ih => rw [nucleus, if_pos h, ih]

/-- `nucleus` takes a prefix, whatever the probabilities are. -/
theorem nucleus_prefix (mass : Float32) (probability : ℕ → Float32) (total : Float32)
    (order : List ℕ) : nucleus mass probability total order <+: order := by
  -- the mass so far goes up on the way, so the induction is for every running total
  induction order generalizing total with
  | nil => exact List.prefix_rfl
  | cons i rest ih =>
    by_cases hreached : mass ≤ total
    · rw [nucleus_of_reached hreached]
      exact List.nil_prefix
    · rw [nucleus, if_neg hreached]
      exact List.cons_prefix_cons.mpr ⟨rfl, ih _⟩

/-- `nucleus` takes the first position, if there is some mass to reach. -/
theorem nucleus_cons (hmass : 0 < mass) (probability : ℕ → Float32) (i : ℕ) (rest : List ℕ) :
    i ∈ nucleus mass probability 0 (i :: rest) := by
  obtain ⟨-, -, hpos⟩ := lt_iff.mp hmass
  have hnot : ¬mass ≤ 0 := fun h => absurd (le_iff.mp h).2.2 (not_le.mpr hpos)
  rw [nucleus, if_neg hnot]
  exact List.mem_cons_self

/-- The scores with all but the first `m` positions of the ranking masked. -/
def keepRanked (m : ℕ) (scores : Scores) : Scores :=
  scores.mapIdx fun i x => if i ∈ (ranking scores).take m then x else negInfinity

/-- Where `softmax` has a distribution, `keepNucleus` keeps a nucleus of the ranking. -/
theorem keepNucleus_eq_keepRanked {m : ℕ} {probabilities : List Float32}
    (hsoftmax : softmax exp scores = some probabilities) (hmass : ¬1 ≤ mass)
    (hnucleus : nucleus mass (fun i => probabilities[i]?.getD 0) 0 (ranking scores) =
      (ranking scores).take m) :
    keepNucleus exp mass scores = keepRanked m scores := by
  rw [keepNucleus, if_neg hmass, hsoftmax]
  simp only [List.getElem?_toArray, Std.HashSet.contains_ofList, List.contains_iff_mem]
  rw [← ranking, hnucleus]
  rfl

/-- `keepNucleus` keeps some of the first positions of the ranking, if it does anything. -/
theorem exists_keepRanked (exp : Float32 → Float32) (hmass : 0 < mass) (scores : Scores) :
    keepNucleus exp mass scores = scores ∨
      ∃ m, 1 ≤ m ∧ keepNucleus exp mass scores = keepRanked m scores := by
  by_cases hone : 1 ≤ mass
  · left
    rw [keepNucleus, if_pos hone]
  · cases hsoftmax : softmax exp scores with
    | none =>
      left
      rw [keepNucleus, if_neg hone, hsoftmax]
    | some probabilities =>
      have hprefix := nucleus_prefix mass (fun i => probabilities[i]?.getD 0) 0 (ranking scores)
      have hkept := keepNucleus_eq_keepRanked hsoftmax hone (List.prefix_iff_eq_take.mp hprefix)
      by_cases hnil : scores = []
      · -- then there is nothing to keep, and nothing to mask
        left
        rw [hkept, hnil]
        rfl
      · -- the first position is kept, as no mass has been gathered before it
        obtain ⟨i, rest, hranking, -⟩ := ranking_eq_cons hnil
        refine .inr ⟨_, ?_, hkept⟩
        rw [hranking]
        exact List.length_pos_of_mem (nucleus_cons hmass _ i rest)

section KeepRanked

variable {m i : ℕ} {x : Float32}

/-- The first `m` positions of the ranking keep their scores. -/
theorem getElem?_keepRanked (hi : i ∈ (ranking scores).take m) :
    (keepRanked m scores)[i]? = scores[i]? := by
  simp only [keepRanked, List.getElem?_mapIdx, if_pos hi, Option.map_id']

/-- What stands outside of the first `m` positions of the ranking is masked. -/
theorem keepRanked_masked (hx : (keepRanked m scores)[i]? = some x) :
    scores[i]? = some x ∧ i ∈ (ranking scores).take m ∨ x = negInfinity := by
  rw [keepRanked, List.getElem?_mapIdx, Option.map_eq_some_iff] at hx
  obtain ⟨y, hy, rfl⟩ := hx
  split
  · next hi => exact .inl ⟨hy, hi⟩
  · exact .inr rfl

/-- A largest score is kept. -/
theorem exists_mem_keepRanked (hm : 1 ≤ m) (hscores : Numbers scores) (hx : x ∈ scores) :
    ∃ y ∈ keepRanked m scores, y ∈ scores ∧ count x ≤ count y := by
  obtain ⟨y, i, rest, hranked, hi, hmax⟩ := ranked_eq_cons (List.ne_nil_of_mem hx) hscores
  have hfirst : i ∈ (ranking scores).take m := by
    rw [ranking, hranked, List.map_cons, ← Nat.sub_add_cancel hm, List.take_succ_cons]
    exact List.mem_cons_self
  exact ⟨y, List.mem_of_getElem? ((getElem?_keepRanked hfirst).trans hi), List.mem_of_getElem? hi,
    hmax x hx⟩

/-- `keepRanked` narrows the scores, if it keeps at least one. -/
theorem keepRanked_narrows (hm : 1 ≤ m) (hscores : Numbers scores) :
    Narrows scores (keepRanked m scores) := by
  refine .of_mapIdx (fun i x hx => ?_) fun hmem => ?_
  · -- a kept position keeps its score, any other is masked
    split
    · exact .refl (hscores x (List.mem_of_getElem? hx))
    · exact .mask x
  · -- a largest score is certain where any is
    obtain ⟨y, hy, hyscores, hle⟩ := exists_mem_keepRanked hm hscores hmem
    have hlimit := (abs_le.mp (abs_count_le y)).2
    rw [count_infinity] at hle
    rwa [← eq_infinity_iff.mpr ⟨hscores y hyscores, le_antisymm hlimit hle⟩]

end KeepRanked

/-- `keepNucleus` narrows the scores, whatever the exponential is. -/
theorem keepNucleus_narrows (exp : Float32 → Float32) (hmass : 0 < mass)
    (hscores : Numbers scores) : Narrows scores (keepNucleus exp mass scores) := by
  rcases exists_keepRanked exp hmass scores with hsame | ⟨m, hm, hkept⟩
  · rw [hsame]
    exact .refl hscores
  · rw [hkept]
    exact keepRanked_narrows hm hscores

/-- `keepNucleus` leaves usable scores usable, since it keeps a largest one. -/
theorem keepNucleus_usable (exp : Float32 → Float32) (hmass : 0 < mass)
    (hscores : Numbers scores) (husable : Usable scores) :
    Usable (keepNucleus exp mass scores) := by
  rcases exists_keepRanked exp hmass scores with hsame | ⟨m, hm, hkept⟩
  · rwa [hsame]
  · obtain ⟨x, hx, hlt⟩ := husable
    obtain ⟨y, hy, hyscores, hle⟩ := exists_mem_keepRanked hm hscores hx
    obtain ⟨-, -, hlow⟩ := lt_iff.mp hlt
    rw [hkept]
    exact ⟨y, hy, lt_iff.mpr ⟨isNaN_negInfinity, hscores y hyscores, hlow.trans_le hle⟩⟩

end Utterance.Scores
