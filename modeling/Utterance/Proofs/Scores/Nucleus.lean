import Utterance.Proofs.Scores.Softmax
import Utterance.Proofs.Scores.Truncation

/-!
# The nucleus is a prefix of the ranking

Nucleus truncation keeps the first positions of the ranking: the fewest whose probabilities, added
from left to right, reach the wanted mass, or all positions if their rounded sum falls short of it.

## Key results

- `nucleus_eq_take`: what the loop keeps is such a prefix (`Covers`)
- `Covers.mono`: more mass takes no fewer positions
- `keepNucleus_shortest`: the truncation as a whole
-/

namespace Utterance.Scores

open Binary

/-! ## Running mass -/

/-- The probabilities of the first `j` positions of an order, added from left to right. -/
def cumulative (probability : ℕ → Float32) (order : List ℕ) (j : ℕ) : Float32 :=
  (order.take j).foldl (fun total i => total + probability i) 0

/-- The first `m` positions of an order are the fewest whose probabilities reach `mass`, or they are
all positions and none of the shorter prefixes reaches it. -/
structure Covers (probability : ℕ → Float32) (order : List ℕ) (mass : Float32) (m : ℕ) : Prop where
  le_length : m ≤ order.length
  below : ∀ j < m, cumulative probability order j < mass
  reached : mass ≤ cumulative probability order m ∨ m = order.length

variable {probability : ℕ → Float32} {order : List ℕ} {mass mass' : Float32} {m m' : ℕ}

/-- More mass takes no fewer positions. -/
theorem Covers.mono (h : Covers probability order mass m) (h' : Covers probability order mass' m')
    (hle : mass ≤ mass') : m ≤ m' := by
  by_contra hlt
  have hbelow := (lt_iff.mp (h.below m' (not_le.mp hlt))).2.2
  rcases h'.reached with hreached | hall
  · exact absurd hbelow (not_lt.mpr ((le_iff.mp hle).2.2.trans (le_iff.mp hreached).2.2))
  · exact hlt (hall ▸ h.le_length)

/-- From any running mass on, `nucleus` takes a prefix: up to each of its positions the mass falls
short, and at its end it does not, or there are no more positions. -/
private theorem nucleus_eq_take_from (hprobability : ∀ i, 0 ≤ probability i)
    (hmass : mass.isNaN = false) (order : List ℕ) :
    ∀ total : Float32, 0 ≤ total → ∃ m ≤ order.length,
      nucleus mass probability total order = order.take m ∧
      (∀ j < m, (order.take j).foldl (fun total i => total + probability i) total < mass) ∧
      (mass ≤ (order.take m).foldl (fun total i => total + probability i) total ∨
        m = order.length) := by
  induction order with
  | nil => exact fun total _ => ⟨0, le_rfl, rfl, nofun, .inr rfl⟩
  | cons i rest ih =>
    intro total htotal
    by_cases hreached : mass ≤ total
    · exact ⟨0, Nat.zero_le _, nucleus_of_reached hreached _, nofun, .inl hreached⟩
    · have hshort : total < mass := (not_le_iff hmass (nonneg_iff.mp htotal).1).mp hreached
      -- sums of probabilities are numbers again, and do not fall below 0
      obtain ⟨hnan, hle, -⟩ := add_of_nonneg htotal (hprobability i)
      have htotal' : 0 ≤ total + probability i :=
        nonneg_iff.mpr ⟨hnan, (nonneg_iff.mp htotal).2.trans hle⟩
      obtain ⟨m, hm, htake, hbelow, hend⟩ := ih _ htotal'
      refine ⟨m + 1, Nat.succ_le_succ hm, ?_, fun j hj => ?_, ?_⟩
      · rw [nucleus, if_neg hreached, htake, List.take_succ_cons]
      · cases j with
        | zero => exact hshort
        | succ j => exact hbelow j (Nat.lt_of_succ_lt_succ hj)
      · exact hend.imp_right fun h => congrArg Nat.succ h

/-- `nucleus` takes the shortest prefix of the order that has the mass. -/
theorem nucleus_eq_take (hprobability : ∀ i, 0 ≤ probability i) (hmass : mass.isNaN = false)
    (order : List ℕ) :
    ∃ m, nucleus mass probability 0 order = order.take m ∧ Covers probability order mass m := by
  obtain ⟨m, hm, htake, hbelow, hend⟩ :=
    nucleus_eq_take_from hprobability hmass order 0 (by decide)
  exact ⟨m, htake, hm, hbelow, hend⟩

/-- Some mass takes some position, so a nucleus is not empty. -/
theorem Covers.pos (h : Covers probability order mass m) (hmass : 0 < mass) (hne : order ≠ []) :
    1 ≤ m := by
  by_contra hlt
  obtain rfl : m = 0 := by omega
  rcases h.reached with hreached | hall
  · exact not_le.mpr (pos_iff.mp hmass).2 ((le_iff.mp hreached).2.2.trans_eq count_zero)
  · exact hne (List.length_eq_zero_iff.mp hall.symm)

/-! ## The truncation -/

variable {exp : Float32 → Float32} {scores : Scores} {probabilities : List Float32}

/-- Numbers that `softmax` has a distribution for are `Usable`, and no probability is negative. -/
private theorem nonneg_of_softmax (hexp : IsExp exp) (hscores : Numbers scores)
    (hsoftmax : softmax exp scores = some probabilities) :
    Usable scores ∧ ∀ i : ℕ, 0 ≤ probabilities[i]?.getD 0 := by
  -- there are probabilities only for usable scores
  have husable : Usable scores := by
    by_contra h
    rw [softmax_of_not_usable hscores h] at hsoftmax
    cases hsoftmax
  obtain ⟨others, hothers, hdistributes⟩ := softmax_of_usable hexp husable
  obtain rfl := Option.some.inj (hsoftmax.symm.trans hothers)
  refine ⟨husable, fun i => ?_⟩
  -- a position beyond the list counts as zero
  cases hi : probabilities[i]? with
  | none => decide
  | some w => exact hdistributes.nonneg w (List.mem_of_getElem? hi)

/-- The ranking has every position once, by descending rank and identical scores by ascending
position.  For a mass between 0 and 1, nucleus truncation of scores that have a distribution keeps
the first positions of the ranking, the fewest whose probabilities reach the mass or all there are,
and masks the others.  So it keeps the first position, with a position all those of higher scores,
and for more mass no fewer positions. -/
theorem keepNucleus_shortest (hexp : IsExp exp) (hscores : Numbers scores)
    (hsoftmax : softmax exp scores = some probabilities) :
    let probability : ℕ → Float32 := fun i => probabilities[i]?.getD 0
    let order := ranking scores
    (order.Perm (List.range scores.length) ∧ order.Pairwise (Precedes scores)) ∧
    ∀ mass, 0 < mass → mass < 1 → ∃ m, 1 ≤ m ∧ Covers probability order mass m ∧
      keepNucleus exp mass scores = keepRanked m scores ∧
      (∀ i, order.head? = some i → (keepNucleus exp mass scores)[i]? = scores[i]?) ∧
      (∀ i j x y, i ∈ order.take m → scores[i]? = some x → scores[j]? = some y → x < y →
        j ∈ order.take m) ∧
      ∀ mass', mass ≤ mass' → mass' < 1 → ∃ m', Covers probability order mass' m' ∧
        keepNucleus exp mass' scores = keepRanked m' scores ∧ order.take m ⊆ order.take m' := by
  intro probability order
  obtain ⟨husable, hprobability⟩ := nonneg_of_softmax hexp hscores hsoftmax
  have hkeep : ∀ mass : Float32, mass < 1 → ∃ m, Covers probability order mass m ∧
      keepNucleus exp mass scores = keepRanked m scores := by
    intro mass hmass
    obtain ⟨hnan, hone, -⟩ := lt_iff.mp hmass
    obtain ⟨m, htake, hcovers⟩ := nucleus_eq_take hprobability hnan order
    exact ⟨m, hcovers, keepNucleus_eq_keepRanked hsoftmax
      ((not_le_iff hone hnan).mpr hmass) htake⟩
  have hne : order ≠ [] := by
    obtain ⟨x, hx, -⟩ := husable
    have hpos := List.length_pos_of_mem hx
    rw [← length_ranking] at hpos
    exact List.ne_nil_of_length_pos hpos
  -- the parts for a larger mass come from the same two prefixes, compared by `Covers.mono`
  refine ⟨⟨perm_ranking scores, pairwise_ranking scores⟩, fun mass hmass0 hmass1 => ?_⟩
  obtain ⟨m, hcovers, hkept⟩ := hkeep mass hmass1
  have hpos := hcovers.pos hmass0 hne
  refine ⟨m, hpos, hcovers, hkept, fun i hi => ?_, fun i j x y => mem_take_ranking_of_lt,
    fun mass' hle hmass' => ?_⟩
  · have hfirst : i ∈ order.take m := by
      obtain ⟨rest, horder⟩ := List.head?_eq_some_iff.mp hi
      rw [horder, ← Nat.sub_add_cancel hpos, List.take_succ_cons]
      exact List.mem_cons_self
    rw [hkept, keepRanked, List.getElem?_mapIdx]
    simp only [order] at hfirst
    simp only [if_pos hfirst, Option.map_id']
  · obtain ⟨m', hcovers', hkept'⟩ := hkeep mass' hmass'
    exact ⟨m', hcovers', hkept', List.take_subset_take_left order (hcovers.mono hcovers' hle)⟩

/-- Of two equal scores and a masked one, each of the equal ones has half of the mass, and the first
of them is enough for half of it. -/
theorem keepNucleus_shortest_halves :
    let scores : Scores := [negInfinity, 0, 0]
    let half : Float32 := .ofBits 0x3f000000
    Numbers scores ∧ softmax (fun _ => 1) scores = some [0, half, half] ∧ 0 < half ∧ half < 1 ∧
      ∃ m, 1 ≤ m ∧ keepNucleus (fun _ => 1) half scores = keepRanked m scores := by
  intro scores half
  have hexp : IsExp fun _ => 1 := ⟨fun _ _ => ⟨by decide, by decide⟩, rfl⟩
  have hscores : Numbers scores := by
    unfold Numbers
    decide
  -- two equal scores share the mass, the masked one gets none
  have hsoftmax : softmax (fun _ => 1) scores = some [0, half, half] := by decide +kernel
  have hhalf : 0 < half ∧ half < 1 := ⟨by decide, by decide⟩
  obtain ⟨m, hm, -, hkept, -⟩ :=
    (keepNucleus_shortest hexp hscores hsoftmax).2 half hhalf.1 hhalf.2
  exact ⟨hscores, hsoftmax, hhalf.1, hhalf.2, m, hm, hkept⟩

end Utterance.Scores
