import Utterance.Proofs.Scores.ArgMax
import Utterance.Proofs.Scores.Rescaling

/-!
# Temperature and order

Whichever way the scores are divided by the temperature, a larger score does not become the smaller
one.  On the way without a shift different scores may become equal.  With a shift the largest finite
score goes to 0 and stays apart from the others: a difference of different scores does not vanish,
and only a temperature below 1 calls for a shift.

## Key results

- `rescale_eq_infinity_iff`: exactly the certain tokens are certain afterwards
- `LargestFinite.rescale_of_overflow`: the scores after a shift
- `Leads.temper`: after a shift the same position leads
- `temper_order`: temperature as a whole
-/

namespace Utterance.Scores

open Binary

variable {t x y : Float32} {scores : Scores} {i : ℕ}

/-- What `Leads` is certain or a largest finite score. -/
theorem Leads.eq_infinity_or_largestFinite (h : Leads scores x i) (hscores : Numbers scores) :
    x = infinity ∨ LargestFinite scores x := by
  have hmem := List.mem_of_getElem? h.getElem?_eq
  have hnan := hscores x hmem
  have hne := (negInfinity_lt_iff.mp h.negInfinity_lt).2
  refine ((eq_or_isFinite hnan).resolve_left hne).symm.imp_right fun hfinite => ?_
  exact ⟨hmem, hfinite, fun y hy _ => (not_lt_iff hnan (hscores y hy)).mp (h.not_lt y hy)⟩

section Temperature

variable (ht : t.isFinite = true) (ht0 : 0 < t)

include ht ht0

/-- `rescale` makes exactly the certain scores certain. -/
theorem rescale_eq_infinity_iff (hscores : Numbers scores) (hx : x ∈ scores) :
    rescale t scores x = infinity ↔ x = infinity := by
  refine ⟨(rescale_narrowed ht ht0 hscores hx).certain, ?_⟩
  rintro rfl
  exact rescale_infinity ht ht0 scores

/-- Shifted by a larger value, a score goes below 0 in `rescale`. -/
theorem rescale_neg (ht1 : t < 1) (hlt : x < shift t scores) : rescale t scores x < 0 :=
  Binary.div_neg_of_le_one ht ht0 (Binary.le_of_lt ht1)
    (Binary.sub_neg_of_lt (shift_isFinite t scores) hlt)

/-! ## Overflow -/

omit ht0 in
/-- Only a temperature below 1 takes a finite score out of range, where `isFinite` fails. -/
theorem lt_one_of_overflow (hx : x.isFinite = true) (hover : (x / t).isFinite = false) : t < 1 := by
  refine (not_le_iff (isNaN_of_isFinite isFinite_one) (isNaN_of_isFinite ht)).mp fun hge => ?_
  rw [isFinite_div_of_one_le ht hge hx] at hover
  cases hover

variable (hover : ∃ y ∈ scores, y.isFinite = true ∧ (y / t).isFinite = false)

include hover

/-- After a shift that an overflow asks for, `rescale` takes the largest finite score to 0 and what
is below it below 0. -/
theorem LargestFinite.rescale_of_overflow (h : LargestFinite scores x) :
    (rescale t scores x == 0) = true ∧ ∀ y, y < x → rescale t scores y < 0 := by
  obtain ⟨z, hmem, hz, hout⟩ := hover
  -- a quotient overflows, so the shift is the largest finite score
  have hshift : LargestFinite scores (shift t scores) := by
    refine (shift_cases t scores).resolve_left fun ⟨_, hall⟩ => ?_
    rw [hall z hmem hz] at hout
    cases hout
  have hcount := h.count_eq hshift
  refine ⟨rescale_beq_zero ht ht0 h.isFinite hcount, fun y hlt => ?_⟩
  obtain ⟨hynan, -, hlt⟩ := lt_iff.mp hlt
  exact rescale_neg ht ht0 (lt_one_of_overflow ht hz hout)
    (lt_iff.mpr ⟨hynan, isNaN_of_isFinite (shift_isFinite t scores), hlt.trans_eq hcount⟩)

/-- After a shift the same position `Leads`. -/
theorem Leads.temper (h : Leads scores x i) (hscores : Numbers scores) :
    Leads (temper t scores) (rescale t scores x) i := by
  suffices hlead : negInfinity < rescale t scores x ∧
      ∀ y ∈ scores, y < x → rescale t scores y < rescale t scores x from
    h.map hscores hlead.1 (fun y _ => rescale_le_rescale ht ht0 scores) hlead.2
  rcases h.eq_infinity_or_largestFinite hscores with rfl | hlargest
  · -- what is not certain does not become so
    rw [rescale_infinity ht ht0]
    refine ⟨by decide, fun y hy hlt => lt_infinity_iff.mpr ⟨?_, ?_⟩⟩
    · exact (rescale_narrowed ht ht0 hscores hy).isNaN_eq
    · exact mt (rescale_eq_infinity_iff ht ht0 hscores hy).mp (lt_infinity_iff.mp hlt).2
  · -- after a shift the largest finite score is `0` and all below it are negative
    obtain ⟨hzero, hneg⟩ := hlargest.rescale_of_overflow ht ht0 hover
    obtain ⟨hnan, -, hcount⟩ := beq_iff.mp hzero
    have hge : 0 ≤ rescale t scores x := le_iff.mpr ⟨isNaN_zero, hnan, hcount.ge⟩
    exact ⟨Binary.lt_of_lt_of_le (by decide) hge, fun y _ hlt =>
      Binary.lt_of_lt_of_le (hneg y hlt) hge⟩

end Temperature

/-- `temper` with a finite positive temperature takes numbers to numbers and keeps their order.
Exactly the certain tokens are certain afterwards, masked ones are masked, and the largest finite
score stays finite.  When division would take some finite score out of range, the largest finite
score becomes 0, smaller ones become negative, and the highest score is still that of the same
token. -/
theorem temper_order (ht : t.isFinite = true) (ht0 : 0 < t) (hscores : Numbers scores) :
    let f := rescale t scores
    temper t scores = scores.map f ∧ Numbers (temper t scores) ∧
      (∀ x y, x ≤ y → f x ≤ f y) ∧
      (∀ x ∈ scores, f x = infinity ↔ x = infinity) ∧
      f negInfinity = negInfinity ∧
      ((∃ x ∈ scores, x.isFinite = true) → ∃ x, LargestFinite scores x) ∧
      (∀ x, LargestFinite scores x → (f x).isFinite = true) ∧
      ((∃ x ∈ scores, x.isFinite = true ∧ (x / t).isFinite = false) →
        (∀ x, LargestFinite scores x → (f x == 0) = true ∧ ∀ y, y < x → f y < 0) ∧
        argMax (temper t scores) = argMax scores) := by
  refine ⟨temper_eq_map t scores, (temper_narrows ht ht0 hscores).numbers,
    fun x y => rescale_le_rescale ht ht0 scores, fun x => rescale_eq_infinity_iff ht ht0 hscores,
    rescale_negInfinity ht ht0 scores,
    fun ⟨_, hx, hfinite⟩ => ⟨_, largestFinite_maximum hx hfinite⟩,
    fun x h => h.isFinite_rescale ht ht0, fun hover => ?_⟩
  -- the score whose quotient overflows is usable, so there is a leading one
  have husable : Usable scores := by
    obtain ⟨x, hx, hfinite, -⟩ := hover
    exact ⟨x, hx, negInfinity_lt_of_isFinite hfinite⟩
  obtain ⟨x, i, hleads⟩ := exists_leads husable
  refine ⟨fun x h => h.rescale_of_overflow ht ht0 hover, ?_⟩
  rw [argMax_eq_of_leads hleads, argMax_eq_of_leads (hleads.temper ht ht0 hover hscores)]

/-- The smallest positive temperature takes 5 out of range, so `temper` shifts the scores by 5: it
becomes 0, and the token at position 1 keeps the highest score. -/
theorem temper_order_smallest :
    let scores : Scores := [1, 5, negInfinity, -1]
    let t : Float32 := .ofBits 1
    Numbers scores ∧ (5 / t).isFinite = false ∧ (rescale t scores 5 == 0) = true ∧
      rescale t scores 1 < 0 ∧ argMax (temper t scores) = some 1 := by
  intro scores t
  have hscores : Numbers scores := by
    unfold Numbers
    decide
  have hmem : 5 ∈ scores := List.mem_cons_of_mem _ List.mem_cons_self
  -- dividing `5` by the smallest positive temperature overflows
  have hlargest : LargestFinite scores 5 := ⟨hmem, by decide, by decide⟩
  obtain ⟨-, -, -, -, -, -, -, hoverflow⟩ :=
    temper_order (t := t) (by decide) (by decide) hscores
  obtain ⟨htop, hargMax⟩ := hoverflow ⟨5, hmem, by decide, by decide⟩
  exact ⟨hscores, by decide, (htop 5 hlargest).1, (htop 5 hlargest).2 1 (by decide),
    hargMax.trans (by decide)⟩

end Utterance.Scores
