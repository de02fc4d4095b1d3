import Utterance.Proofs.Binary.Arithmetic

/-!
# Operations that keep the order

Rounding is monotone, so an operation that rounds a monotone function of the count keeps the order
of all numbers, infinities included (`le_of_rounds`).  Subtraction of a finite value and division by
a positive one are such operations.  What they do to the sign is strict: gradual underflow keeps the
difference of different values from vanishing, and division by a value of at most 1 takes no value
closer to 0.
-/

namespace Utterance.Binary

variable {x y s t : Float32}

/-- An operation that keeps the infinities and rounds a monotone function of the counts of finite
values keeps the order. -/
private theorem le_of_rounds (operation : Float32 → Float32) {ideal : ℚ → ℚ}
    (hmono : Monotone ideal)
    (hrounds : ∀ x : Float32, x.isFinite = true → (operation x).isNaN = false ∧
      count (operation x) = nearest .binary32 (ideal (count x)))
    (hlow : operation negInfinity = negInfinity) (hhigh : operation infinity = infinity)
    (hle : x ≤ y) : operation x ≤ operation y := by
  obtain ⟨hxnan, hynan, hcount⟩ := le_iff.mp hle
  -- the operation answers a number for every number, so that its counts can be compared
  have hnumber : ∀ z : Float32, z.isNaN = false → (operation z).isNaN = false := by
    intro z hz
    rcases eq_or_isFinite hz with rfl | hfinite | rfl
    · rw [hlow, isNaN_negInfinity]
    · exact (hrounds z hfinite).1
    · rw [hhigh, isNaN_infinity]
  refine le_iff.mpr ⟨hnumber x hxnan, hnumber y hynan, ?_⟩
  have hxbounds := abs_le.mp (abs_count_le (operation x))
  have hybounds := abs_le.mp (abs_count_le (operation y))
  rcases eq_or_isFinite hxnan with rfl | hx | rfl
  · rw [hlow, count_negInfinity]
    exact hybounds.1
  · rcases eq_or_isFinite hynan with rfl | hy | rfl
    · -- nothing finite is below `-inf`
      have hlimit := (isFinite_iff.mp hx).2.1
      rw [count_negInfinity] at hcount
      omega
    · rw [(hrounds x hx).2, (hrounds y hy).2]
      exact nearest_mono (hmono (by exact_mod_cast hcount))
    · rw [hhigh, count_infinity]
      exact hxbounds.2
  · -- only `inf` is as large as `inf`
    have hlimit := (abs_le.mp (abs_count_le y)).2
    rw [count_infinity] at hcount
    rw [eq_infinity_iff.mpr ⟨hynan, by omega⟩]

/-- `x - s` keeps the order of `x`. -/
protected theorem sub_le_sub_right (hs : s.isFinite = true) (hle : x ≤ y) : x - s ≤ y - s := by
  have hmono : Monotone fun q : ℚ => q - count s := fun a b hab => sub_le_sub_right hab _
  exact le_of_rounds (· - s) hmono (fun x hx => sub_of_isFinite hx hs) (negInfinity_sub hs)
    (infinity_sub hs) hle

/-- `x / t` keeps the order of `x` for a positive `t`. -/
protected theorem div_le_div_right (ht : t.isFinite = true) (ht0 : 0 < t) (hle : x ≤ y) :
    x / t ≤ y / t := by
  have hpos := (pos_iff.mp ht0).2
  have hpos' : (0 : ℚ) < count t := by exact_mod_cast hpos
  have hmono : Monotone fun q : ℚ => q * one .binary32 / count t := fun a b hab =>
    div_le_div_of_nonneg_right (mul_le_mul_of_nonneg_right hab (one_pos _).le) hpos'.le
  exact le_of_rounds (· / t) hmono (fun x hx => div_of_isFinite hx ht hpos.ne')
    (negInfinity_div ht0 ht) (infinity_div ht0 ht) hle

/-- `x - s` of different values does not vanish. -/
protected theorem sub_neg_of_lt (hs : s.isFinite = true) (hlt : x < s) : x - s < 0 := by
  have hlimit := limit_pos
  obtain ⟨hxnan, -, hcount⟩ := lt_iff.mp hlt
  rcases eq_or_isFinite hxnan with rfl | hx | rfl
  · rw [negInfinity_sub hs]
    decide
  · obtain ⟨hnan, hdiff⟩ := sub_of_isFinite hx hs
    -- the exact difference is at least one unit, which is on the grid
    have hunit : Grid .binary32 (-1) :=
      (grid_two_pow (j := 0) (by exact_mod_cast ceiling_pos .binary32)).neg
    have hle : count (x - s) ≤ -1 := by
      rw [hdiff]
      exact nearest_le hunit (by exact_mod_cast (by omega : count x - count s ≤ -1))
    exact lt_iff.mpr ⟨hnan, isNaN_zero, by rw [count_zero]; omega⟩
  · have hbound := (abs_le.mp (abs_count_le s)).2
    rw [count_infinity] at hcount
    omega

/-- `x / t` is no further from 0 than a finite `x` when `t` is at least 1. -/
theorem isFinite_div_of_one_le (ht : t.isFinite = true) (ht1 : 1 ≤ t) (hx : x.isFinite = true) :
    (x / t).isFinite = true := by
  have hone := (le_iff.mp ht1).2.2
  rw [count_one] at hone
  have hpos : 0 < count t := by omega
  obtain ⟨hnan, hcount⟩ := div_of_isFinite hx ht hpos.ne'
  have hpos' : (0 : ℚ) < count t := by exact_mod_cast hpos
  have hone' : one .binary32 ≤ count t := by
    rw [one_binary32]
    exact_mod_cast hone
  -- the quotient is no larger than the value before it is rounded
  have hquot : |(count x * one .binary32 / count t : ℚ)| ≤ |(count x : ℚ)| := by
    rw [abs_div, abs_mul, abs_of_pos hpos', abs_of_pos (one_pos _), div_le_iff₀ hpos']
    exact mul_le_mul_of_nonneg_left hone' (abs_nonneg _)
  have hgrid : Grid .binary32 |count x| := by
    rcases abs_choice (count x) with h | h <;> rw [h]
    · exact grid_count x
    · exact (grid_count x).neg
  -- rounding keeps below what is on the grid, so the result is as finite as the value
  have hle := abs_nearest_le hgrid (hquot.trans_eq (Int.cast_abs).symm)
  obtain ⟨-, hbounds⟩ := isFinite_iff.mp hx
  rw [isFinite_iff, hcount]
  exact ⟨hnan, abs_lt.mp (hle.trans_lt (abs_lt.mpr hbounds))⟩

/-- `x / t` is no closer to 0 than a negative `x` when `t` is at most 1. -/
protected theorem div_neg_of_le_one (ht : t.isFinite = true) (ht0 : 0 < t) (ht1 : t ≤ 1)
    (hx : x < 0) : x / t < 0 := by
  obtain ⟨hxnan, -, hneg⟩ := lt_iff.mp hx
  rw [count_zero] at hneg
  -- infinity stays, and a finite value is divided
  rcases eq_or_isFinite hxnan with rfl | hfinite | rfl
  · rw [negInfinity_div ht0 ht]
    exact hx
  · have hpos := (pos_iff.mp ht0).2
    have hone := (le_iff.mp ht1).2.2
    rw [count_one] at hone
    obtain ⟨hnan, hcount⟩ := div_of_isFinite hfinite ht hpos.ne'
    have hpos' : (0 : ℚ) < count t := by exact_mod_cast hpos
    have hone' : count t ≤ one .binary32 := by
      rw [one_binary32]
      exact_mod_cast hone
    have hneg' : (count x : ℚ) ≤ 0 := by exact_mod_cast hneg.le
    -- the quotient lies below the value, and rounding does not lift it above
    have hle : count (x / t) ≤ count x := by
      rw [hcount]
      refine nearest_le (grid_count x) ?_
      rw [div_le_iff₀ hpos']
      exact mul_le_mul_of_nonpos_left hone' hneg'
    exact lt_iff.mpr ⟨hnan, isNaN_zero, by rw [count_zero]; omega⟩
  · -- an infinite count is not negative
    have hlimit := limit_pos
    rw [count_infinity] at hneg
    omega

end Utterance.Binary
