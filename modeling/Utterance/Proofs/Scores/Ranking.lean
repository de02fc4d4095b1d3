import Utterance.Proofs.Binary.Rank
import Utterance.Proofs.Scores.Support
import Utterance.Scores.Ranking

/-!
# The ranking

The ranking is a permutation of the scores with their positions, in descending order of rank, and
identical scores stay in the order of their positions.

## Key results

- `perm_ranking`, `pairwise_ranking`: every position once, in the order of `Precedes`
- `lt_countP_iff`: in an ordered list, where the elements with a property come first, an element
  has it exactly when it stands among as many as there are
- `ranked_eq_cons`, `ranking_eq_cons`: the first of the ranking is a largest score and comes before
  all other positions
- `mem_take_ranking_of_precedes`: a prefix of the ranking has what comes before its positions
-/

namespace Utterance.Scores

open Binary

variable {scores : Scores}

/-! ## The order -/

/-- `ranked` has the scores with their positions, each once. -/
theorem perm_ranked (scores : Scores) : (ranked scores).Perm scores.zipIdx :=
  List.mergeSort_perm scores.zipIdx _

/-- `ranked` has as many entries as there are scores. -/
theorem length_ranked (scores : Scores) : (ranked scores).length = scores.length := by
  rw [(perm_ranked scores).length_eq, List.length_zipIdx]

/-- `ranked` lists the scores with their positions. -/
theorem mem_ranked {x : Float32} {i : ℕ} : (x, i) ∈ ranked scores ↔ scores[i]? = some x := by
  rw [(perm_ranked scores).mem_iff, List.mem_zipIdx_iff_getElem?]

/-- The comparison that `ranked` sorts by is transitive. -/
private theorem rank_le_trans (a b c : Float32 × ℕ) (hab : decide (rank b.1 ≤ rank a.1) = true)
    (hbc : decide (rank c.1 ≤ rank b.1) = true) : decide (rank c.1 ≤ rank a.1) = true := by
  rw [decide_eq_true_iff] at *
  exact hbc.trans hab

/-- The comparison that `ranked` sorts by is total, so sorting leaves no two entries out of
order. -/
private theorem rank_le_total (a b : Float32 × ℕ) :
    (decide (rank b.1 ≤ rank a.1) || decide (rank a.1 ≤ rank b.1)) = true := by
  rw [Bool.or_eq_true, decide_eq_true_iff, decide_eq_true_iff]
  exact Int.le_total _ _

/-- Ranks do not increase along `ranked`. -/
theorem pairwise_ranked (scores : Scores) :
    (ranked scores).Pairwise fun a b => rank b.1 ≤ rank a.1 := by
  have hsorted := List.pairwise_mergeSort rank_le_trans rank_le_total scores.zipIdx
  simpa only [ranked, decide_eq_true_eq] using hsorted

/-- In `ranked`, identical scores stay in the order of their positions. -/
private theorem filter_ranked (x : Float32) :
    (ranked scores).filter (·.1 = x) = scores.zipIdx.filter (·.1 = x) := by
  -- entries of one score are in order for any ranking, so a stable sort keeps them as a sublist
  have htied : (scores.zipIdx.filter (·.1 = x)).Pairwise
      fun a b => decide (rank b.1 ≤ rank a.1) = true := by
    refine List.pairwise_of_forall_mem_list fun a ha b hb => ?_
    have ha := of_decide_eq_true (List.mem_filter.mp ha).2
    have hb := of_decide_eq_true (List.mem_filter.mp hb).2
    rw [ha, hb, decide_eq_true_iff]
  have hsublist := (List.sublist_mergeSort rank_le_trans rank_le_total htied
    List.filter_sublist).filter (·.1 = x)
  -- a sublist of the same length is the whole
  rw [List.filter_filter] at hsublist
  simp only [Bool.and_self] at hsublist
  exact (hsublist.eq_of_length ((perm_ranked scores).filter _).length_eq.symm).symm

/-- Along `ranked`, ranks go down, or scores are identical and positions go up. -/
theorem pairwise_ranked_strict (scores : Scores) :
    (ranked scores).Pairwise fun a b => rank b.1 < rank a.1 ∨ a.1 = b.1 ∧ a.2 < b.2 := by
  rw [List.pairwise_iff_forall_sublist]
  intro a b hab
  have hle := List.pairwise_iff_forall_sublist.mp (pairwise_ranked scores) hab
  refine hle.lt_or_eq.imp_right fun heq => ?_
  have hsame : b.1 = a.1 := rank_injective heq
  -- both are among the scores that are identical to the first
  have hpair := hab.filter (·.1 = a.1)
  have hpositions : (scores.zipIdx.map Prod.snd).Pairwise (· < ·) := by
    rw [List.zipIdx_map_snd]
    exact List.pairwise_lt_range'
  rw [filter_ranked, List.filter_eq_self.mpr (by simp [hsame])] at hpair
  have hzipIdx := hpair.trans List.filter_sublist
  exact ⟨hsame.symm, List.pairwise_iff_forall_sublist.mp (List.pairwise_map.mp hpositions) hzipIdx⟩

/-! ## Positions -/

/-- The positions in the order of `ranked`. -/
def ranking (scores : Scores) : List ℕ :=
  (ranked scores).map (·.2)

/-- A position comes before another in the `ranking`: its score has the higher rank, or the two are
identical and it is the lower position. -/
def Precedes (scores : Scores) (i j : ℕ) : Prop :=
  ∃ x y, scores[i]? = some x ∧ scores[j]? = some y ∧ (rank y < rank x ∨ x = y ∧ i < j)

/-- `ranking` has every position once. -/
theorem perm_ranking (scores : Scores) : (ranking scores).Perm (List.range scores.length) := by
  have hperm := (perm_ranked scores).map Prod.snd
  rwa [List.zipIdx_map_snd, ← List.range_eq_range'] at hperm

/-- `ranking` lists the positions in the order of `Precedes`. -/
theorem pairwise_ranking (scores : Scores) : (ranking scores).Pairwise (Precedes scores) := by
  rw [ranking, List.pairwise_map]
  refine (pairwise_ranked_strict scores).imp_of_mem fun ha hb hab => ?_
  exact ⟨_, _, mem_ranked.mp ha, mem_ranked.mp hb, hab⟩

/-- `ranking` has the positions that there are. -/
theorem mem_ranking {i : ℕ} : i ∈ ranking scores ↔ i < scores.length := by
  rw [(perm_ranking scores).mem_iff, List.mem_range]

/-- `ranking` is as long as the scores. -/
theorem length_ranking (scores : Scores) : (ranking scores).length = scores.length := by
  rw [(perm_ranking scores).length_eq, List.length_range]

/-- Of two positions only one `Precedes` the other. -/
theorem Precedes.asymm {i j : ℕ} (h : Precedes scores i j) : ¬Precedes scores j i := by
  rintro ⟨y, x, hy, hx, hrank⟩
  obtain ⟨x', y', hx', hy', hrank'⟩ := h
  obtain rfl := Option.some.inj (hx.symm.trans hx')
  obtain rfl := Option.some.inj (hy.symm.trans hy')
  rcases hrank with hlt | ⟨rfl, hlt⟩ <;> rcases hrank' with hlt' | ⟨heq, hlt'⟩
  · omega
  · rw [heq] at hlt
    omega
  · omega
  · omega

/-- What comes before one of the first `m` positions is one of them. -/
theorem mem_take_ranking_of_precedes {m i j : ℕ} (hi : i ∈ (ranking scores).take m)
    (h : Precedes scores j i) : j ∈ (ranking scores).take m := by
  have hj : j ∈ ranking scores := by
    obtain ⟨x, -, hx, -⟩ := h
    exact mem_ranking.mpr (List.getElem?_eq_some_iff.mp hx).1
  have hordered := pairwise_ranking scores
  rw [← List.take_append_drop m (ranking scores)] at hj hordered
  refine (List.mem_append.mp hj).resolve_right fun hdrop => ?_
  exact h.asymm ((List.pairwise_append.mp hordered).2.2 i hi j hdrop)

/-- So is what has a higher score than one of the first `m` positions. -/
theorem mem_take_ranking_of_lt {m i j : ℕ} {x y : Float32} (hi : i ∈ (ranking scores).take m)
    (hx : scores[i]? = some x) (hy : scores[j]? = some y) (hlt : x < y) :
    j ∈ (ranking scores).take m :=
  mem_take_ranking_of_precedes hi ⟨y, x, hy, hx, .inl (rank_lt_of_lt hlt)⟩

/-- The `ranking` of some scores has a first position, which comes before all others. -/
theorem ranking_eq_cons (hne : scores ≠ []) :
    ∃ i rest, ranking scores = i :: rest ∧ ∀ j < scores.length, j = i ∨ Precedes scores i j := by
  -- the ranking is as long as the scores, so it has a first position
  cases hranking : ranking scores with
  | nil =>
    have hlength := length_ranking scores
    rw [hranking, List.length_nil] at hlength
    exact absurd (List.length_eq_zero_iff.mp hlength.symm) hne
  | cons i rest =>
    refine ⟨i, rest, rfl, fun j hj => ?_⟩
    have hordered := pairwise_ranking scores
    have hmem := mem_ranking.mpr hj
    rw [hranking] at hordered hmem
    exact (List.mem_cons.mp hmem).imp_right ((List.pairwise_cons.mp hordered).1 j)

/-- `ranked` starts with the position of a largest score. -/
theorem ranked_eq_cons (hne : scores ≠ []) (hscores : Numbers scores) :
    ∃ (x : Float32) (i : ℕ) (rest : List (Float32 × ℕ)), ranked scores = (x, i) :: rest ∧
      scores[i]? = some x ∧ ∀ y ∈ scores, count y ≤ count x := by
  obtain ⟨⟨x, i⟩, rest, hranked⟩ : ∃ top rest, ranked scores = top :: rest := by
    refine List.exists_cons_of_ne_nil fun hnil => hne ?_
    have hlength := congrArg List.length hnil
    rw [length_ranked] at hlength
    exact List.length_eq_zero_iff.mp hlength
  -- the first entry is an entry of the scores, and the ranks descend from it
  have hi : scores[i]? = some x := mem_ranked.mp (hranked ▸ List.mem_cons_self)
  refine ⟨x, i, rest, hranked, hi, fun y hy => ?_⟩
  refine count_le_of_rank_le (hscores y hy) (hscores x (List.mem_of_getElem? hi)) ?_
  obtain ⟨j, hj⟩ := List.mem_iff_getElem?.mp hy
  have hmem : (y, j) ∈ (x, i) :: rest := hranked ▸ mem_ranked.mpr hj
  have hsorted := pairwise_ranked scores
  rw [hranked, List.pairwise_cons] at hsorted
  rcases List.mem_cons.mp hmem with heq | hrest
  · obtain ⟨rfl, -⟩ := Prod.mk.inj heq
    exact le_rfl
  · exact hsorted.1 _ hrest

/-! ## Counting along the ranking -/

/-- In a list where the elements with a property come first, an element has the property exactly
when its index is below `countP` of it. -/
theorem lt_countP_iff {α : Type*} {p : α → Bool} {l : List α}
    (hl : l.Pairwise fun a b => p b = true → p a = true) {n : ℕ} {a : α} (ha : l[n]? = some a) :
    n < l.countP p ↔ p a = true := by
  -- induction on the list; where the head lacks `p` so does all the rest
  induction l generalizing n with
  | nil => cases ha
  | cons b rest ih =>
    obtain ⟨hb, hrest⟩ := List.pairwise_cons.mp hl
    by_cases hpb : p b = true
    · rw [List.countP_cons_of_pos hpb]
      cases n with
      | zero =>
        obtain rfl := Option.some.inj ha
        exact iff_of_true (Nat.succ_pos _) hpb
      | succ n => rw [Nat.succ_lt_succ_iff, ih hrest ha]
    · -- what comes after has not got it either
      have hnone : ∀ c ∈ b :: rest, ¬p c = true :=
        List.forall_mem_cons.mpr ⟨hpb, fun c hc hpc => hpb (hb c hc hpc)⟩
      rw [List.countP_eq_zero.mpr hnone]
      exact iff_of_false (Nat.not_lt_zero n) (hnone a (List.mem_of_getElem? ha))

end Utterance.Scores
