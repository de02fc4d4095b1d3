import Utterance.Proofs.Binary.Monotone
import Utterance.Proofs.Scores.Softmax

/-!
# Softmax keeps the order

The probability of a token is a monotone function of its score: a share of the mass for certain
tokens, and otherwise the weight of the score divided by the sum of all weights.  Division by the
same positive sum keeps the order of the weights, and a monotone exponential that of the scores.

## Key results

- `spreads_of_certain`, `spreads_of_finite`: the two ways in which mass is given
- `softmax_spreads`: softmax as a whole
-/

namespace Utterance.Scores

open Binary

variable {scores : Scores} {exp : Float32 → Float32} {x y top : Float32}

/-- A probability for every score that keeps their order (`mono`), with some of the mass for the
highest scores, none for undefined and masked ones, and all of it for certain ones where there are
any. -/
structure Spreads (scores : Scores) (probability : Float32 → Float32) : Prop where
  range : ∀ x ∈ scores, 0 ≤ probability x ∧ probability x ≤ 1
  undefined : ∀ x, x.isNaN = true → probability x = 0
  masked : probability negInfinity = 0
  highest : ∀ x ∈ scores, x.isNaN = false → (∀ y ∈ scores, ¬x < y) → 0 < probability x
  mono : ∀ x ∈ scores, ∀ y ∈ scores, x ≤ y → probability x ≤ probability y
  certain : infinity ∈ scores → ∀ x ∈ scores, 0 < probability x ↔ x = infinity

/-! ## Certain tokens -/

/-- The probability of a score when certain tokens each have the given `share` of the mass. -/
def shared (share x : Float32) : Float32 :=
  if x == infinity then share else 0

/-- A token with `infinity` has a share of the mass. -/
theorem shared_infinity (share : Float32) : shared share infinity = share :=
  if_pos (by decide)

/-- A token without `infinity` has no share. -/
theorem shared_of_ne (share : Float32) (hx : x ≠ infinity) : shared share x = 0 :=
  if_neg fun h => hx (beq_infinity.mp h)

/-- Only `infinity` is as high as `infinity`. -/
theorem eq_infinity_of_le (h : infinity ≤ y) : y = infinity := by
  by_contra hne
  obtain ⟨-, hnan, -⟩ := le_iff.mp h
  exact not_lt_self y (Binary.lt_of_lt_of_le (lt_infinity_iff.mpr ⟨hnan, hne⟩) h)

/-- A positive `share` for the certain tokens keeps the order, since nothing else is as high. -/
theorem spreads_of_certain {share : Float32} (hmem : infinity ∈ scores) (h0 : 0 < share)
    (h1 : share ≤ 1) : Spreads scores (shared share) where
  range x _ := by
    by_cases hx : x = infinity
    · rw [hx, shared_infinity]
      exact ⟨Binary.le_of_lt h0, h1⟩
    · rw [shared_of_ne share hx]
      decide
  undefined x hx := by
    refine shared_of_ne share ?_
    rintro rfl
    exact absurd hx (by decide)
  masked := shared_of_ne share (by decide)
  highest x _ hx hhighest := by
    -- the highest score is `+inf`, as there is one
    have hcertain : x = infinity := by
      by_contra hne
      exact hhighest infinity hmem (lt_infinity_iff.mpr ⟨hx, hne⟩)
    rwa [hcertain, shared_infinity]
  mono x _ y _ hle := by
    -- `+inf` is below itself only, and all others have no mass
    by_cases hx : x = infinity
    · rw [hx] at hle ⊢
      rw [eq_infinity_of_le hle, shared_infinity]
      exact le_iff.mpr ⟨(pos_iff.mp h0).1, (pos_iff.mp h0).1, le_rfl⟩
    · rw [shared_of_ne share hx]
      by_cases hy : y = infinity
      · rw [hy, shared_infinity]
        exact Binary.le_of_lt h0
      · rw [shared_of_ne share hy]
        decide
  certain _ x _ := by
    constructor
    · intro hpos
      by_contra hx
      rw [shared_of_ne share hx] at hpos
      exact absurd hpos (by decide)
    · rintro rfl
      rwa [shared_infinity]

/-! ## Finite scores -/

section Finite

variable (hexp : IsExp exp) (hmono : ∀ x y : Float32, x ≤ y → y ≤ 0 → exp x ≤ exp y)
  (hlargest : LargestFinite scores top)

include hexp hmono hlargest

/-- `weight` keeps the order of the scores, if none is certain. -/
theorem weight_mono (hcertain : infinity ∉ scores) (hy : y ∈ scores)
    (hle : x ≤ y) : weight exp top x ≤ weight exp top y := by
  have htop := hlargest.isFinite
  obtain ⟨hxnan, hynan, -⟩ := le_iff.mp hle
  have hweights := (weights_range hexp hlargest).1
  have hy0 := (hweights _ (List.mem_map_of_mem hy)).1
  rcases eq_or_isFinite hxnan with rfl | hxfinite | rfl
  · rwa [weight, if_neg (by decide)]
  · -- a score above a finite one is finite, as none is certain
    have hyfinite : y.isFinite = true := by
      rcases eq_or_isFinite hynan with rfl | hfinite | rfl
      · exact absurd (Binary.lt_of_lt_of_le (negInfinity_lt_of_isFinite hxfinite) hle)
          (not_lt_self _)
      · exact hfinite
      · exact absurd hy hcertain
    rw [weight, if_pos hxfinite, weight, if_pos hyfinite]
    exact hmono _ _ (Binary.sub_le_sub_right htop hle)
      (Binary.sub_nonpos_of_le hyfinite htop (hlargest.ge y hy hyfinite))
  · exact absurd (eq_infinity_of_le hle ▸ hy) hcertain

/-- Each `weight` divided by the sum of all keeps the order of the scores. -/
theorem spreads_of_finite (hcertain : infinity ∉ scores) :
    Spreads scores fun x => weight exp top x / sum (scores.map (weight exp top)) := by
  obtain ⟨hweights, -, hfinite, hcount, hinv, hall⟩ := weights_range hexp hlargest
  set total := sum (scores.map (weight exp top)) with htotal
  have hpos : 0 < total := pos_iff.mpr ⟨isNaN_of_isFinite hfinite, hcount⟩
  -- what is not finite has weight zero
  have hzero : ∀ x : Float32, x.isFinite = false → weight exp top x / total = 0 := by
    intro x hx
    rw [weight, if_neg (by rw [hx]; exact Bool.false_ne_true)]
    exact Binary.zero_div hpos hfinite
  have horder : ∀ x, ∀ y ∈ scores, x ≤ y → weight exp top x / total ≤ weight exp top y / total :=
    fun x y hy hle =>
      Binary.div_le_div_right hfinite hpos (weight_mono hexp hmono hlargest hcertain hy hle)
  refine ⟨fun x hx => ?_, fun x hx => ?_, hzero _ (by decide), fun x hx hnan hhighest => ?_,
    fun x _ => horder x, fun h => absurd h hcertain⟩
  · have hmem : weight exp top x ∈ scores.map (weight exp top) := List.mem_map_of_mem hx
    obtain ⟨h0, h1⟩ := hweights _ hmem
    -- dividing by the sum keeps the bounds of a weight
    refine ⟨?_, div_le_one_of_le ?_ hfinite hcount (hall _ hmem)⟩
    · have hdiv := Binary.div_le_div_right hfinite hpos h0
      rwa [Binary.zero_div hpos hfinite] at hdiv
    · exact isFinite_of_count_le h0 (le_iff.mp h1).2.2 isFinite_one
  · -- an undefined score is not finite
    refine hzero x ?_
    by_contra hfin
    rw [isNaN_of_isFinite (Bool.eq_true_of_not_eq_false hfin)] at hx
    cases hx
  · -- the largest finite score has weight 1, and the highest score is no lower
    have hle := (not_lt_iff hnan (isNaN_of_isFinite hlargest.isFinite)).mp
      (hhighest top hlargest.mem)
    refine Binary.lt_of_lt_of_le ?_ (horder top x hx hle)
    rwa [weight, if_pos hlargest.isFinite, sub_self_of_isFinite hlargest.isFinite, hexp.zero]

end Finite

/-- With an exponential that is monotone on what is not positive, `softmax` gives each token a
probability that depends on its score alone.  It is between 0 and 1, not lower for a higher score,
positive for the highest ones and 0 for undefined and masked ones; where there are certain tokens,
exactly these have a positive probability, which is the same for all of them. -/
theorem softmax_spreads (hexp : IsExp exp)
    (hmono : ∀ x y : Float32, x ≤ y → y ≤ 0 → exp x ≤ exp y) (hlength : scores.length < 2 ^ 64)
    {probabilities : List Float32} (h : softmax exp scores = some probabilities) :
    probabilities.length = scores.length ∧
      ∃ probability, probabilities = scores.map probability ∧ Spreads scores probability := by
  refine ⟨(distributes_of_softmax hexp h).length_eq, ?_⟩
  have hle := softmax_le_one hexp hlength h
  simp only [softmax] at h
  split at h
  · -- with a score `+inf` the mass is shared among these
    next hpos =>
    obtain ⟨x, hx, hinf⟩ := List.countP_pos_iff.mp hpos
    obtain rfl := beq_infinity.mp hinf
    obtain rfl := Option.some.inj h
    refine ⟨_, rfl, spreads_of_certain hx (share_pos _) ?_⟩
    exact hle _ (List.mem_map.mpr ⟨infinity, hx, shared_infinity _⟩)
  · -- without one the weights are divided by their sum
    next hnone =>
    have hcertain : infinity ∉ scores := fun hmem =>
      hnone (List.countP_pos_iff.mpr ⟨infinity, hmem, by decide⟩)
    split at h
    · next htop =>
      obtain rfl := Option.some.inj h
      refine ⟨_, List.map_map, ?_⟩
      exact spreads_of_finite hexp hmono (largestFinite_of_isFinite htop) hcertain
    · cases h

/-- The function `exp` as it is at zero and far below it, where it vanishes. -/
def steepExp (x : Float32) : Float32 :=
  if x < 0 then 0 else 1

/-- `steepExp` has all that is assumed of an exponential. -/
theorem isExp_steepExp : IsExp steepExp where
  range x _ := by
    unfold steepExp
    split
    · decide
    · decide
  zero := by decide

/-- `steepExp` is monotone, as far as `softmax_spreads` asks for it. -/
theorem steepExp_mono (x y : Float32) (hle : x ≤ y) (_ : y ≤ 0) : steepExp x ≤ steepExp y := by
  -- it steps up at 0, and a score above one that is not below 0 is not below 0 either
  by_cases hx : x < 0
  · have hzero : steepExp x = 0 := if_pos hx
    unfold steepExp at hzero ⊢
    rw [hzero]
    split
    · decide
    · decide
  · have hy : ¬y < 0 := fun h => hx (Binary.lt_of_le_of_lt hle h)
    unfold steepExp
    rw [if_neg hx, if_neg hy]
    decide

/-- By `softmax` two equal scores share the mass; one far below them, an undefined and a masked one
get none. -/
theorem softmax_spreads_steep :
    let scores : Scores := [200, .ofBits 0x7fc00000, negInfinity, 0, 200]
    let half : Float32 := .ofBits 0x3f000000
    IsExp steepExp ∧ (∀ x y : Float32, x ≤ y → y ≤ 0 → steepExp x ≤ steepExp y) ∧
      scores.length < 2 ^ 64 ∧ softmax steepExp scores = some [half, 0, 0, 0, half] ∧
      ∃ probability, [half, 0, 0, 0, half] = scores.map probability ∧
        Spreads scores probability := by
  intro scores half
  have hlength : scores.length < 2 ^ 64 := by decide
  have hsoftmax : softmax steepExp scores = some [half, 0, 0, 0, half] := by decide +kernel
  obtain ⟨-, hspreads⟩ := softmax_spreads isExp_steepExp steepExp_mono hlength hsoftmax
  exact ⟨isExp_steepExp, steepExp_mono, hlength, hsoftmax, hspreads⟩

end Utterance.Scores
