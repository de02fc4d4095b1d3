import Utterance.Proofs.Binary.Folds
import Utterance.Proofs.Binary.Rank
import Utterance.Random.Draw

/-!
# Draws hit positive weights

The number that a draw chooses is below the total of the weights (`chosen_lt`), so the position it
picks is one where the partial sums grow, and a partial sum grows only by a positive weight.
Whatever the weights, a draw takes a word exactly when it picks a position (`draw_cases`).
-/

namespace Utterance.Random

open Binary
open Float.Model (Format)

/-! ## The chosen number -/

/-- The patterns from 1 up to 2, with the exponent of `0x3f800000`, stand for the numbers from 1 up
to 2. -/
private theorem unit_pattern (word : UInt32) :
    0x3f800000 ≤ ((word >>> 9) ||| 0x3f800000).toNat ∧
      ((word >>> 9) ||| 0x3f800000).toNat ≤ 0x3fffffff := by
  have hlt : word.toNat / 2 ^ 9 < 2 ^ 23 := by
    have h := word.toNat_lt
    omega
  have hor : ((word >>> 9) ||| 0x3f800000).toNat = 2 ^ 23 * 127 + word.toNat / 2 ^ 9 := by
    rw [Nat.two_pow_add_eq_or_of_lt hlt, Nat.or_comm, UInt32.toNat_or, UInt32.toNat_shiftRight,
      Nat.shiftRight_eq_div_pow]
    rfl
  omega

/-- A `unit` is finite and between 0 and `unitMax`, the largest unit. -/
theorem unit_range (word : UInt32) :
    (unit word).isFinite = true ∧ 0 ≤ count (unit word) ∧ count (unit word) ≤ count unitMax := by
  obtain ⟨hlow, hhigh⟩ := unit_pattern word
  obtain ⟨hnan, hcount⟩ := count_ofBits (b := (word >>> 9) ||| 0x3f800000) (by omega)
  have hlow' := magnitude_mono (f := .binary32) hlow
  have hhigh' := magnitude_mono (f := .binary32) hhigh
  rw [show magnitude .binary32 0x3f800000 = 2 ^ 149 by decide] at hlow'
  rw [show magnitude .binary32 0x3fffffff = 2 ^ 149 + (2 ^ 149 - 2 ^ 126) by decide] at hhigh'
  have hbound := isFinite_iff.mp (show (Float32.ofBits 0x3fffffff).isFinite = true by decide)
  rw [show count (.ofBits 0x3fffffff) = 2 ^ 149 + (2 ^ 149 - 2 ^ 126) by decide] at hbound
  have hlow : 2 ^ 149 ≤ count (.ofBits ((word >>> 9) ||| 0x3f800000)) := by
    rw [hcount]
    exact_mod_cast hlow'
  have hhigh : count (.ofBits ((word >>> 9) ||| 0x3f800000)) ≤ 2 ^ 149 + (2 ^ 149 - 2 ^ 126) := by
    rw [hcount]
    omega
  -- taking 1 away from such a number is exact up to the grid, which has both ends
  have hfinite : (Float32.ofBits ((word >>> 9) ||| 0x3f800000)).isFinite = true :=
    isFinite_iff.mpr ⟨hnan, by omega, by omega⟩
  obtain ⟨hunan, hucount⟩ := sub_of_isFinite hfinite isFinite_one
  have hmax := isFinite_iff.mp (show unitMax.isFinite = true by decide)
  have h0 : 0 ≤ count (unit word) := by
    rw [unit, hucount, count_one]
    exact nearest_nonneg (by exact_mod_cast (by omega : 0 ≤ count _ - 2 ^ 149))
  have hle : count (unit word) ≤ count unitMax := by
    rw [unit, hucount, count_one]
    refine nearest_le (grid_count _) ?_
    rw [show count unitMax = 2 ^ 149 - 2 ^ 126 by decide]
    exact_mod_cast (by omega : count _ - 2 ^ 149 ≤ 2 ^ 149 - 2 ^ 126)
  exact ⟨isFinite_iff.mpr ⟨hunan, by omega, by omega⟩, h0, hle⟩

/-- `scaleBelow` ends at a number that is not negative, and `scale` at `unitMax` stays below the
total. -/
private theorem scaleBelow_spec {total : Float32} (htotal : 0 < total) :
    ∀ bits : ℕ, bits ≤ 0x7f800000 → (scaleBelow total bits).isNaN = false ∧
      0 ≤ count (scaleBelow total bits) ∧ scaleBelow total bits * unitMax < total := by
  have hmax : unitMax.isFinite = true := by decide
  have hmax0 : 0 < unitMax := by decide
  -- the search goes down from pattern to pattern, and ends at the latest with zero
  intro bits
  induction bits with
  | zero =>
    intro _
    have hzero : Float32.ofBits 0 * unitMax = 0 := by decide
    rw [scaleBelow, hzero]
    exact ⟨by decide, by decide, htotal⟩
  | succ bits ih =>
    intro hbits
    rw [scaleBelow]
    split
    · exact ih (by omega)
    · next hbelow =>
      have hpattern : (bits + 1).toUInt32.toNat = bits + 1 := by
        exact UInt32.toNat_ofNat_of_lt' (by norm_num [UInt32.size]; omega)
      obtain ⟨hnan, hcount⟩ := count_ofBits (b := (bits + 1).toUInt32) (by omega)
      refine ⟨hnan, by omega, ?_⟩
      rw [← not_le_iff (lt_iff.mp htotal).2.1]
      · exact hbelow
      · -- neither infinity nor a finite scale makes the product undefined
        rcases eq_or_isFinite hnan with h | hfinite | h
        · rw [h, negInfinity_mul hmax0 hmax]
          decide
        · exact (mul_of_isFinite hfinite hmax).1
        · rw [h, infinity_mul hmax0 hmax]
          decide

/-- The number that `draw` compares the partial sums with is not negative and below the total. -/
theorem chosen_lt {total : Float32} (htotal : 0 < total) (word : UInt32) :
    0 ≤ unit word * scale total ∧ unit word * scale total < total := by
  have hmax : unitMax.isFinite = true := by decide
  have hmax0 : 0 < unitMax := by decide
  obtain ⟨hunit, hunit0, hunitle⟩ := unit_range word
  obtain ⟨hnan, hscale0, hlt⟩ := scaleBelow_spec htotal _ (toBits_of_pos htotal).1
  rw [← scale] at hnan hscale0 hlt
  obtain ⟨-, htnan, htlt⟩ := lt_iff.mp hlt
  have htle := (abs_le.mp (abs_count_le total)).2
  have hlimit := limit_pos
  -- an infinite scale would not stay below the total
  have hfinite : (scale total).isFinite = true := by
    rcases eq_or_isFinite hnan with h | h | h
    · rw [h, count_negInfinity] at hscale0
      omega
    · exact h
    · rw [h, infinity_mul hmax0 hmax, count_infinity] at htlt
      omega
  obtain ⟨hpnan, hpcount⟩ := mul_of_isFinite hunit hfinite
  obtain ⟨-, hmcount⟩ := mul_of_isFinite hfinite hmax
  have hunit0' : (0 : ℚ) ≤ count (unit word) := by exact_mod_cast hunit0
  have hscale0' : (0 : ℚ) ≤ count (scale total) := by exact_mod_cast hscale0
  have hunitle' : (count (unit word) : ℚ) ≤ count unitMax := by exact_mod_cast hunitle
  have hone := one_pos .binary32
  -- rounding keeps the order of the exact products
  have hle : count (unit word * scale total) ≤ count (scale total * unitMax) := by
    rw [hpcount, hmcount, mul_comm (count (scale total) : ℚ)]
    exact nearest_mono
      (div_le_div_of_nonneg_right (mul_le_mul_of_nonneg_right hunitle' hscale0') hone.le)
  rw [nonneg_iff, lt_iff]
  refine ⟨⟨hpnan, ?_⟩, hpnan, htnan, hle.trans_lt htlt⟩
  rw [hpcount]
  exact nearest_nonneg (by positivity)

/-! ## Partial sums -/

/-- Adding a weight of 0 leaves a sum where it is, down to its `count`. -/
private theorem count_add_of_zero {sum w : Float32} (hsum : 0 ≤ sum) (hw : 0 ≤ w)
    (hzero : count w = 0) : count (sum + w) = count sum := by
  obtain ⟨hsnan, hs0⟩ := nonneg_iff.mp hsum
  have hlimit := limit_pos
  have hwfinite := isFinite_of_count_le hw (hzero.trans_le (by decide)) isFinite_one
  rcases eq_or_isFinite hsnan with rfl | hfinite | rfl
  · rw [count_negInfinity] at hs0
    omega
  · rw [(add_of_isFinite hfinite hwfinite).2, hzero, Int.cast_zero, add_zero,
      nearest_eq_self (grid_count sum)]
  · rw [infinity_add (negInfinity_lt_of_isFinite hwfinite)]

/-- The sums of `partialSums` do not decrease: all are numbers no smaller than the start, and the
last is no smaller than any weight. -/
private theorem partialSums_spec (rest : List Float32) :
    ∀ sum : Float32, 0 ≤ sum → (∀ w ∈ rest, 0 ≤ w) →
      (∀ s ∈ (partialSums sum rest).1, sum ≤ s) ∧ 0 ≤ (partialSums sum rest).2 ∧
        count sum ≤ count (partialSums sum rest).2 ∧
        ∀ w ∈ rest, count w ≤ count (partialSums sum rest).2 := by
  -- the start is the sum so far, so the induction is on the weights for every start
  induction rest with
  | nil => exact fun sum hsum _ => ⟨by simp [partialSums], hsum, le_rfl, by simp⟩
  | cons w rest ih =>
    intro sum hsum hrest
    have hw : 0 ≤ w := hrest w List.mem_cons_self
    obtain ⟨hnan, hsumle, hwle⟩ := add_of_nonneg hsum hw
    obtain ⟨hsnan, hs0⟩ := nonneg_iff.mp hsum
    have hnext : 0 ≤ sum + w := nonneg_iff.mpr ⟨hnan, hs0.trans hsumle⟩
    obtain ⟨hsums, htotal, hle, hall⟩ := ih (sum + w) hnext fun v hv =>
      hrest v (List.mem_cons_of_mem _ hv)
    simp only [partialSums, List.mem_cons, forall_eq_or_imp]
    refine ⟨⟨le_iff.mpr ⟨hsnan, hsnan, le_rfl⟩, fun s hs => ?_⟩, htotal, hsumle.trans hle,
      hwle.trans hle, hall⟩
    obtain ⟨-, hsnan', hsle⟩ := le_iff.mp (hsums s hs)
    exact le_iff.mpr ⟨hsnan, hsnan', hsumle.trans hsle⟩

/-- A number below the start is below every one of the `partialSums`. -/
private theorem countP_eq_zero {rest : List Float32} {sum chosen : Float32} (hsum : 0 ≤ sum)
    (hrest : ∀ w ∈ rest, 0 ≤ w) (hchosen : ¬sum ≤ chosen) :
    (partialSums sum rest).1.countP (· ≤ chosen) = 0 := by
  rw [List.countP_eq_zero]
  intro s hs hle
  obtain ⟨hsnan, -, hsle⟩ := le_iff.mp ((partialSums_spec rest sum hsum hrest).1 s hs)
  obtain ⟨-, hcnan, hcle⟩ := le_iff.mp (of_decide_eq_true hle)
  exact hchosen (le_iff.mpr ⟨hsnan, hcnan, hsle.trans hcle⟩)

/-- A number from the start on and below the total falls on a positive weight: the number of
`partialSums` that are no larger is the index of one, plus 1. -/
private theorem countP_partialSums (rest : List Float32) :
    ∀ sum chosen : Float32, 0 ≤ sum → (∀ w ∈ rest, 0 ≤ w) → sum ≤ chosen →
      chosen < (partialSums sum rest).2 →
      ∃ i w, (partialSums sum rest).1.countP (· ≤ chosen) = i + 1 ∧ rest[i]? = some w ∧ 0 < w := by
  induction rest with
  | nil =>
    intro sum chosen _ _ hle hlt
    obtain ⟨-, -, hcount⟩ := le_iff.mp hle
    obtain ⟨-, -, hcount'⟩ := lt_iff.mp hlt
    exact absurd hcount' (not_lt.mpr hcount)
  | cons w rest ih =>
    intro sum chosen hsum hrest hle hlt
    have hw : 0 ≤ w := hrest w List.mem_cons_self
    have hrest' : ∀ v ∈ rest, 0 ≤ v := fun v hv => hrest v (List.mem_cons_of_mem _ hv)
    obtain ⟨hnan, hsumle, -⟩ := add_of_nonneg hsum hw
    have hnext : 0 ≤ sum + w := nonneg_iff.mpr ⟨hnan, (nonneg_iff.mp hsum).2.trans hsumle⟩
    simp only [partialSums] at hlt ⊢
    rw [List.countP_cons, if_pos (decide_eq_true hle)]
    by_cases hstep : sum + w ≤ chosen
    · -- the number lies beyond this weight
      obtain ⟨i, v, hi, hv, hpos⟩ := ih (sum + w) chosen hnext hrest' hstep hlt
      exact ⟨i + 1, v, by rw [hi], by rw [List.getElem?_cons_succ, hv], hpos⟩
    · -- the sum passes the number here, so it grows
      refine ⟨0, w, by rw [countP_eq_zero hnext hrest' hstep], List.getElem?_cons_zero, ?_⟩
      obtain ⟨hwnan, hw0⟩ := nonneg_iff.mp hw
      obtain ⟨-, hcnan, hcle⟩ := le_iff.mp hle
      refine pos_iff.mpr ⟨hwnan, ?_⟩
      by_contra hnot
      have hsame := count_add_of_zero hsum hw (by omega)
      exact hstep (le_iff.mpr ⟨hnan, hcnan, by omega⟩)

/-- The total of `partialSums` adds up all weights, from left to right. -/
private theorem partialSums_snd (sum : Float32) (rest : List Float32) :
    (partialSums sum rest).2 = rest.foldl (· + ·) sum := by
  induction rest generalizing sum with
  | nil => rfl
  | cons w rest ih => simp only [partialSums, List.foldl_cons, ih]

section Total

variable {first : Float32} {rest : List Float32}

/-- A positive weight makes the total of `partialSums` positive. -/
theorem total_pos (hnonneg : ∀ w ∈ first :: rest, 0 ≤ w) (hpos : ∃ w ∈ first :: rest, 0 < w) :
    0 < (partialSums first rest).2 := by
  obtain ⟨hfirst, hrest⟩ := List.forall_mem_cons.mp hnonneg
  obtain ⟨-, htotal0, hfirstle, hall⟩ := partialSums_spec rest first hfirst hrest
  obtain ⟨w, hw, hlt⟩ := hpos
  refine pos_iff.mpr ⟨(nonneg_iff.mp htotal0).1, (pos_iff.mp hlt).2.trans_le ?_⟩
  rcases List.mem_cons.mp hw with rfl | hw
  · exact hfirstle
  · exact hall w hw

/-- The total that `partialSums` has for weights between 0 and 1 is finite. -/
theorem isFinite_total (h : ∀ w ∈ first :: rest, 0 ≤ w ∧ w ≤ 1) :
    (partialSums first rest).2.isFinite = true := by
  rw [partialSums_snd]
  exact isFinite_foldl_add h

end Total

/-! ## Draws -/

/-- A `draw` from weights that are not negative and not all zero takes one word and picks a position
with a positive weight. -/
theorem draw_spec {weights : List Float32} (hnonneg : ∀ w ∈ weights, 0 ≤ w)
    (hpos : ∃ w ∈ weights, 0 < w) (g : Generator) :
    ∃ i w, draw weights g = (some i, g.next.2) ∧ weights[i]? = some w ∧ 0 < w := by
  cases weights with
  | nil =>
    obtain ⟨w, hw, -⟩ := hpos
    exact absurd hw List.not_mem_nil
  | cons first rest =>
    have hfirst : 0 ≤ first := hnonneg first List.mem_cons_self
    have hrest : ∀ w ∈ rest, 0 ≤ w := fun w hw => hnonneg w (List.mem_cons_of_mem _ hw)
    -- a positive weight makes the total positive, so a number is drawn
    have htotal := total_pos hnonneg hpos
    have hguard : ((first :: rest).all (0 ≤ ·) && !((partialSums first rest).2 == 0)) = true := by
      rw [Bool.and_eq_true, List.all_eq_true, Bool.not_eq_true', Bool.eq_false_iff]
      refine ⟨fun w hw => decide_eq_true (hnonneg w hw), fun hzero => ?_⟩
      have hcount := (beq_iff.mp hzero).2.2
      have hlt := (lt_iff.mp htotal).2.2
      omega
    obtain ⟨hchosen0, hchosen⟩ := chosen_lt htotal g.next.1
    have hdraw : draw (first :: rest) g = (some ((partialSums first rest).1.countP
        (· ≤ unit g.next.1 * scale (partialSums first rest).2)), g.next.2) := by
      simp only [draw]
      rw [if_pos hguard]
    rw [hdraw]
    by_cases hle : first ≤ unit g.next.1 * scale (partialSums first rest).2
    · obtain ⟨i, w, hi, hw, hlt⟩ := countP_partialSums rest first _ hfirst hrest hle hchosen
      exact ⟨i + 1, w, by rw [hi], by rw [List.getElem?_cons_succ, hw], hlt⟩
    · -- the number is below the first weight
      refine ⟨0, first, by rw [countP_eq_zero hfirst hrest hle], List.getElem?_cons_zero, ?_⟩
      obtain ⟨hfnan, -⟩ := nonneg_iff.mp hfirst
      obtain ⟨hcnan, hc0⟩ := nonneg_iff.mp hchosen0
      refine pos_iff.mpr ⟨hfnan, ?_⟩
      by_contra hnot
      exact hle (le_iff.mpr ⟨hfnan, hcnan, (not_lt.mp hnot).trans hc0⟩)

/-! ## Words taken -/

/-- The generator with the next `n` words taken. -/
def Generator.skip (g : Generator) : ℕ → Generator
  | 0 => g
  | n + 1 => g.next.2.skip n

/-- `skip` moves the position of a generator and leaves its key. -/
theorem Generator.skip_eq (g : Generator) (n : ℕ) :
    g.skip n = { g with position := g.position + n } := by
  induction n generalizing g with
  | zero => rfl
  | succ n ih => simp only [skip, next, ih, Nat.add_assoc, Nat.add_comm 1]

/-- Words that are skipped in two goes add up, in `Generator.skip`. -/
theorem Generator.skip_skip (g : Generator) (m n : ℕ) : (g.skip m).skip n = g.skip (m + n) := by
  simp only [skip_eq, Nat.add_assoc]

/-- `partialSums` has a sum for every weight but the first. -/
theorem length_partialSums (sum : Float32) (rest : List Float32) :
    (partialSums sum rest).1.length = rest.length := by
  induction rest generalizing sum with
  | nil => rfl
  | cons w rest ih => simp only [partialSums, List.length_cons, ih]

/-- A `draw` picks nothing and takes no word, or picks a position and takes one word. -/
theorem draw_cases (weights : List Float32) (g : Generator) :
    draw weights g = (none, g) ∨ ∃ i < weights.length, draw weights g = (some i, g.next.2) := by
  cases weights with
  | nil => exact .inl rfl
  | cons first rest =>
    simp only [draw]
    split
    · -- the position is a number of partial sums, of which there is one less than weights
      refine .inr ⟨_, ?_, rfl⟩
      have hle := List.countP_le_length (p := (· ≤ unit g.next.1 *
        scale (partialSums first rest).2)) (l := (partialSums first rest).1)
      rw [length_partialSums] at hle
      exact Nat.lt_succ_of_le hle
    · exact .inl rfl

end Utterance.Random
