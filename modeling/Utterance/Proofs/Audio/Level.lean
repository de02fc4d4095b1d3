import Utterance.Audio.Wav
import Utterance.Proofs.Binary.Integers

/-!
# Levels

A sample is written as a whole number of steps, of which full scale has 32767.

## Key results

- `toInt_word`: the word of a sample
- `abs_level_sub_le`: how far the level is from the sample
-/

namespace Utterance.Audio.Wav

open Binary
open Float.Model (UnpackedFloat)

variable {x : Float32}

/-- The `level` of a sample: how many steps are written for it. -/
def level (x : Float32) : ℤ :=
  if x.isNaN then 0 else roundAway (value (clamp x * 32767))

/-! ## Limited samples -/

/-- `clamp` leaves a NaN as it is, since no comparison with it holds. -/
theorem clamp_of_isNaN (hx : x.isNaN = true) : clamp x = x := by
  have hlow : ¬x < -1 := fun h => nomatch (lt_iff.mp h).1.symm.trans hx
  have hhigh : ¬1 < x := fun h => nomatch (lt_iff.mp h).2.1.symm.trans hx
  rw [clamp, if_neg hlow, if_neg hhigh]

/-- `clamp` does not limit samples that are in range. -/
theorem clamp_of_abs_count_le (h : |count x| ≤ 2 ^ 149) : clamp x = x := by
  -- in units of the smallest positive value, full scale is 2 ^ 149
  obtain ⟨hlow, hhigh⟩ := abs_le.mp h
  have hminus : count (-1) = -2 ^ 149 := by decide
  have hbelow : ¬x < -1 := fun hlt => by
    have hcount := (lt_iff.mp hlt).2.2
    omega
  have habove : ¬1 < x := fun hlt => by
    have hcount := (lt_iff.mp hlt).2.2
    rw [count_one] at hcount
    omega
  rw [clamp, if_neg hbelow, if_neg habove]

/-- What `clamp` gives for a number is a number in range. -/
theorem clamp_bounds (hx : x.isNaN = false) :
    (clamp x).isNaN = false ∧ |count (clamp x)| ≤ 2 ^ 149 := by
  have hlow : (-1 : Float32).isNaN = false ∧ count (-1) = -2 ^ 149 := by decide
  have hhigh : (1 : Float32).isNaN = false := by decide
  rw [clamp]
  split_ifs with hbelow habove
  -- a sample below, above and within the range
  · rw [hlow.2, abs_neg, abs_of_pos (by positivity)]
    exact ⟨hlow.1, le_rfl⟩
  · rw [count_one, abs_of_pos (by positivity)]
    exact ⟨hhigh, le_rfl⟩
  · rw [not_lt_iff hx hlow.1, le_iff, hlow.2] at hbelow
    rw [not_lt_iff hhigh hx, le_iff, count_one] at habove
    exact ⟨hx, abs_le.mpr ⟨hbelow.2.2, habove.2.2⟩⟩

/-- In absolute value, what `clamp` gives is no more than 1. -/
theorem abs_value_clamp_le (hx : x.isNaN = false) : |value (clamp x)| ≤ 1 := by
  have h := abs_value_le (n := 1) ((clamp_bounds hx).2.trans_eq (one_mul _).symm)
  rwa [Int.cast_one] at h

/-- What `clamp` gives for a number is finite, so that arithmetic with it is plain rounding. -/
theorem isFinite_clamp (hx : x.isNaN = false) : (clamp x).isFinite = true :=
  isFinite_of_abs_value_le (clamp_bounds hx).1 ((abs_value_clamp_le hx).trans (by norm_num))

/-! ## Scaled samples -/

/-- The literal `32767` is the integer. -/
theorem isInteger_fullScale : IsInteger 32767 32767 where
  isNumber := by decide
  count := by decide

/-- Scaling a clamped sample multiplies the value by 32767 and takes the `nearest` count. -/
theorem count_scaled (hx : x.isNaN = false) :
    (clamp x * 32767).isNaN = false ∧
      count (clamp x * 32767) = nearest .binary32 (32767 * value (clamp x) * 2 ^ 149) := by
  obtain ⟨hnan, hcount⟩ :=
    mul_of_isFinite (isFinite_clamp hx) (isInteger_fullScale.isFinite (by decide))
  refine ⟨hnan, ?_⟩
  rw [hcount, isInteger_fullScale.count, one_binary32, count_eq_value]
  congr 1
  push_cast
  ring

/-- A sample clamped and scaled does not pass full scale, the `value` 32767. -/
theorem abs_value_scaled_le (hx : x.isNaN = false) : |value (clamp x * 32767)| ≤ 32767 := by
  have hgrid : Grid .binary32 (32767 * 2 ^ 149) := grid_mul_two_pow (by decide) (by decide)
  obtain ⟨hlow, hhigh⟩ := abs_le.mp (abs_value_clamp_le hx)
  -- full scale is on the grid, so rounding does not pass it
  refine abs_value_le (n := 32767) ?_
  rw [(count_scaled hx).2, abs_le]
  constructor
  · refine le_nearest hgrid.neg ?_
    push_cast
    nlinarith
  · refine nearest_le hgrid ?_
    push_cast
    nlinarith

/-- A scaled sample is finite, so `nearestInt` has a result for it. -/
theorem isFinite_scaled (hx : x.isNaN = false) : (clamp x * 32767).isFinite = true :=
  isFinite_of_abs_value_le (count_scaled hx).1 ((abs_value_scaled_le hx).trans (by norm_num))

/-- `nearest` moves a scaled sample by half a step at most. -/
theorem abs_value_scaled_sub_le (hx : x.isNaN = false) :
    |value (clamp x * 32767) - 32767 * value (clamp x)| ≤ 1 / 2 := by
  set q := 32767 * value (clamp x) * 2 ^ 149 with hq
  -- with a spacing of 2 ^ 140, half of it is half a step
  have hsize : |q| < 2 ^ (140 + Float.Model.Format.binary32.mantissaBits) := by
    have hclamp := abs_value_clamp_le hx
    rw [hq, abs_mul, abs_mul, abs_of_pos (by norm_num : (0 : ℚ) < 32767),
      abs_of_pos (by positivity : (0 : ℚ) < 2 ^ 149)]
    calc 32767 * |value (clamp x)| * 2 ^ 149 ≤ 32767 * 1 * 2 ^ 149 := by gcongr
      _ < 2 ^ (140 + 24) := by norm_num
  have hround := abs_nearest_sub_le hsize
    (by exact_mod_cast two_pow_le_ceiling (k := 164) (by decide))
  have heq : value (clamp x * 32767) - 32767 * value (clamp x) =
      (nearest .binary32 q - q) / 2 ^ 149 := by
    rw [value, (count_scaled hx).2, sub_div, hq, mul_div_cancel_right₀ _ (by positivity)]
  -- what is left is to divide the error by the unit
  rw [heq, abs_div, abs_of_pos (by positivity : (0 : ℚ) < 2 ^ 149), div_le_iff₀ (by positivity)]
  exact hround.trans (by norm_num)

/-! ## Levels -/

/-- A `level` takes 15 bits and a sign. -/
theorem abs_level_le (x : Float32) : |level x| ≤ 32767 := by
  rw [level]
  split_ifs with hx
  · decide
  · exact abs_roundAway_le (by exact_mod_cast abs_value_scaled_le (Bool.eq_false_of_not_eq_true hx))

/-- A product with a NaN is a NaN, also in the form of `unpack`. -/
theorem mul_of_isNaN {y : Float32} (hx : x.isNaN = true) :
    (x * y).toModel.unpack = .notANumber := by
  have hunpack : x.toModel.unpack = .notANumber := by
    by_contra hne
    exact nomatch (isNaN_eq_false_iff.mpr hne).symm.trans hx
  show (Float32.ofModel
    (.pack (.mul .binary32 x.toModel.unpack y.toModel.unpack))).toModel.unpack = _
  rw [hunpack, UnpackedFloat.mul]
  rfl

/-- The `word` of a sample is its `level`, taken to 16 bits without loss. -/
theorem toInt_word (x : Float32) : (word x).toInt = level x := by
  have hrange := abs_le.mp (abs_level_le x)
  -- a NaN has no nearest integer and becomes silence, as its level does
  have hlevel : (nearestInt (clamp x * 32767).toModel.unpack).getD 0 = level x := by
    rw [level]
    split_ifs with hx
    · rw [clamp_of_isNaN hx, mul_of_isNaN hx]
      rfl
    · rw [nearestInt_unpack (isFinite_scaled (Bool.eq_false_of_not_eq_true hx))]
      rfl
  rw [word, hlevel, Int16.toInt_ofInt_of_le (by omega) (by omega)]

/-- The `level` is within two steps of the sample, of which full scale has 32768 when it is read. -/
theorem abs_level_sub_le (hx : x.isNaN = false) :
    |level x / 32768 - value (clamp x)| ≤ 1 / 16384 := by
  have hround := abs_le.mp (abs_roundAway_sub_le (value (clamp x * 32767)))
  have hscaled := abs_le.mp (abs_value_scaled_sub_le hx)
  have hclamp := abs_le.mp (abs_value_clamp_le hx)
  rw [level, if_neg (Bool.eq_false_iff.mp hx), abs_le]
  constructor <;> linarith

end Utterance.Audio.Wav
