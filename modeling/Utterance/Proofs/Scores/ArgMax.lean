import Utterance.Proofs.Scores.Support
import Utterance.Scores.Selection

/-!
# The highest score

`argMax` picks the position that leads: the first of the largest scores, if that is above `-inf`.
Undefined scores do not count.

## Key results

- `Leads.unique`, `exists_leads`: usable numbers have exactly one position that leads
- `argMax_eq_of_leads`, `argMax_of_not_usable`: it is the one that is picked, if there is one
- `Leads.map`: a change of scores that keeps what is below the leading score below it keeps the lead
-/

namespace Utterance.Scores

open Binary

variable {scores : Scores} {x y : Float32} {i j : ℕ}

/-- `x` at position `i` is above `-inf`, no score is above it, and none before it is as high. -/
structure Leads (scores : Scores) (x : Float32) (i : ℕ) : Prop where
  getElem?_eq : scores[i]? = some x
  negInfinity_lt : negInfinity < x
  not_lt : ∀ y ∈ scores, ¬x < y
  not_le : ∀ j < i, ∀ y, scores[j]? = some y → ¬x ≤ y

/-- At most one position `Leads`. -/
theorem Leads.unique (h : Leads scores x i) (h' : Leads scores y j) : i = j := by
  -- of two that lead the later would be above the earlier
  have hnot : ∀ {x y : Float32} {i j : ℕ}, Leads scores x i → Leads scores y j → ¬i < j := by
    intro x y i j h h' hij
    have hle := h'.not_le i hij x h.getElem?_eq
    have hlt := (not_le_iff (lt_iff.mp h'.negInfinity_lt).2.1
      (lt_iff.mp h.negInfinity_lt).2.1).mp hle
    exact h.not_lt y (List.mem_of_getElem? h'.getElem?_eq) hlt
  exact Nat.le_antisymm (Nat.not_lt.mp (hnot h' h)) (Nat.not_lt.mp (hnot h h'))

/-! ## The fold -/

/-- What the fold over some scores ends with: what leads, or nothing if no score is above `-inf`. -/
def IsLeader (scores : Scores) : Option (Float32 × ℕ) → Prop
  | none => ¬Usable scores
  | some best => Leads scores best.1 best.2

/-- The condition on which `better` skips a score: no score above `-inf` has it. -/
private theorem skipped_iff (x : Float32) :
    (x == negInfinity || x.isNaN) = true ↔ ¬negInfinity < x := by
  rw [Bool.or_eq_true, beq_negInfinity, negInfinity_lt_iff]
  cases x.isNaN <;> simp

/-- A score that is not above the one that `Leads` leaves the lead as it is. -/
private theorem Leads.append_of_not_lt (h : Leads scores x i) (hy : ¬x < y) :
    Leads (scores ++ [y]) x i := by
  obtain ⟨hi, -⟩ := List.getElem?_eq_some_iff.mp h.getElem?_eq
  refine ⟨?_, h.negInfinity_lt, List.forall_mem_append.mpr
    ⟨h.not_lt, List.forall_mem_singleton.mpr hy⟩, fun j hj z hz => ?_⟩
  · rw [List.getElem?_append_left hi, h.getElem?_eq]
  · rw [List.getElem?_append_left (hj.trans hi)] at hz
    exact h.not_le j hj z hz

/-- A score above `-inf` and all others takes the lead. -/
private theorem leads_append (hlt : negInfinity < y) (hall : ∀ z ∈ scores, ¬y ≤ z) :
    Leads (scores ++ [y]) y scores.length := by
  refine ⟨List.getElem?_concat_length, hlt, List.forall_mem_append.mpr
    ⟨fun z hz hyz => hall z hz (Binary.le_of_lt hyz),
      List.forall_mem_singleton.mpr (not_lt_self y)⟩, fun j hj z hz => ?_⟩
  rw [List.getElem?_append_left hj] at hz
  exact hall z (List.mem_of_getElem? hz)

/-- One more step of `better`, with the score at the end, keeps the leader up to date. -/
private theorem isLeader_better {best : Option (Float32 × ℕ)} (hbest : IsLeader scores best)
    (y : Float32) : IsLeader (scores ++ [y]) (better best (y, scores.length)) := by
  unfold better
  by_cases hskip : (y == negInfinity || y.isNaN) = true
  · rw [if_pos hskip]
    have hlow := (skipped_iff y).mp hskip
    cases best with
    | none =>
      rintro ⟨z, hz, hlt⟩
      rcases List.mem_append.mp hz with hz | hz
      · exact hbest ⟨z, hz, hlt⟩
      · exact hlow (List.mem_singleton.mp hz ▸ hlt)
    | some top =>
      exact Leads.append_of_not_lt hbest fun hlt =>
        hlow (Binary.lt_of_lt_of_le hbest.negInfinity_lt (Binary.le_of_lt hlt))
  · rw [if_neg hskip]
    have hlt : negInfinity < y := not_not.mp (mt (skipped_iff y).mpr hskip)
    have hynan := (lt_iff.mp hlt).2.1
    cases best with
    | none =>
      -- no score so far is above `-inf`
      exact leads_append hlt fun z hz hyz => hbest ⟨z, hz, Binary.lt_of_lt_of_le hlt hyz⟩
    | some top =>
      have htopnan := (lt_iff.mp hbest.negInfinity_lt).2.1
      show IsLeader _ (if y ≤ top.1 then some top else some (y, scores.length))
      split
      · next hle => exact Leads.append_of_not_lt hbest ((not_lt_iff htopnan hynan).mpr hle)
      · next hgt =>
        -- what is as high as the new score would be above the leading one
        have habove := (not_le_iff hynan htopnan).mp hgt
        exact leads_append hlt fun z hz hyz =>
          hbest.not_lt z hz (Binary.lt_of_lt_of_le habove hyz)

/-- The fold of `better` over all scores ends with what leads. -/
theorem isLeader_foldl (scores : Scores) :
    IsLeader scores (scores.zipIdx.foldl better none) := by
  -- the fold runs from the left, so the induction adds scores at the end
  induction scores using List.reverseRecOn with
  | nil => exact fun ⟨x, hx, _⟩ => List.not_mem_nil hx
  | append_singleton scores y ih =>
    rw [List.zipIdx_append, List.foldl_append]
    simpa using isLeader_better ih y

/-- In scores that are `Usable` some position leads. -/
theorem exists_leads (husable : Usable scores) : ∃ x i, Leads scores x i := by
  have hleader := isLeader_foldl scores
  cases hfold : scores.zipIdx.foldl better none with
  | none =>
    rw [hfold] at hleader
    exact absurd husable hleader
  | some best =>
    rw [hfold] at hleader
    exact ⟨best.1, best.2, hleader⟩

/-- `argMax` picks the position that `Leads`. -/
theorem argMax_eq_of_leads (h : Leads scores x i) : argMax scores = tokenAt? i := by
  have hleader := isLeader_foldl scores
  rw [argMax]
  cases hfold : scores.zipIdx.foldl better none with
  | none =>
    rw [hfold] at hleader
    exact absurd ⟨x, List.mem_of_getElem? h.getElem?_eq, h.negInfinity_lt⟩ hleader
  | some best =>
    rw [hfold] at hleader
    rw [Option.bind_some, hleader.unique h]

/-- `argMax` picks nothing from scores that are not `Usable`. -/
theorem argMax_of_not_usable (h : ¬Usable scores) : argMax scores = none := by
  have hleader := isLeader_foldl scores
  rw [argMax]
  cases hfold : scores.zipIdx.foldl better none with
  | none => rfl
  | some best =>
    rw [hfold] at hleader
    exact absurd ⟨best.1, List.mem_of_getElem? hleader.getElem?_eq, hleader.negInfinity_lt⟩ h

/-- Where there are certain tokens, the one that `Leads` is certain. -/
theorem Leads.eq_infinity (h : Leads scores x i) (hmem : infinity ∈ scores) : x = infinity := by
  by_contra hne
  exact h.not_lt infinity hmem (lt_infinity_iff.mpr ⟨(lt_iff.mp h.negInfinity_lt).2.1, hne⟩)

/-! ## Keeping the lead -/

/-- A change of scores that takes nothing above the score that `Leads`, and keeps what is below it
below it, keeps the lead. -/
theorem Leads.map {f : Float32 → Float32} (h : Leads scores x i) (hscores : Numbers scores)
    (hlt : negInfinity < f x) (hmono : ∀ y ∈ scores, y ≤ x → f y ≤ f x)
    (hstrict : ∀ y ∈ scores, y < x → f y < f x) : Leads (scores.map f) (f x) i := by
  have hx := hscores x (List.mem_of_getElem? h.getElem?_eq)
  refine ⟨?_, hlt, List.forall_mem_map.mpr fun y hy => ?_, fun j hj z hz => ?_⟩
  · rw [List.getElem?_map, h.getElem?_eq, Option.map_some]
  · -- nothing is above the image of `x`: `f` keeps `≤`
    have hle := hmono y hy ((not_lt_iff hx (hscores y hy)).mp (h.not_lt y hy))
    obtain ⟨hfynan, hfxnan, -⟩ := le_iff.mp hle
    exact (not_lt_iff hfxnan hfynan).mpr hle
  · -- nothing before it reaches the image: `f` keeps `<` below `x`
    rw [List.getElem?_map, Option.map_eq_some_iff] at hz
    obtain ⟨y, hy, rfl⟩ := hz
    have hynan := hscores y (List.mem_of_getElem? hy)
    have hless := hstrict y (List.mem_of_getElem? hy)
      ((not_le_iff hx hynan).mp (h.not_le j hj y hy))
    obtain ⟨hfynan, hfxnan, -⟩ := lt_iff.mp hless
    exact (not_le_iff hfxnan hfynan).mpr hless

end Utterance.Scores
