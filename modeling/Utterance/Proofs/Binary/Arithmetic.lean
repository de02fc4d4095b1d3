import Utterance.Proofs.Binary.Operations
import Utterance.Proofs.Binary.Order

/-!
# Arithmetic on binary32 values

The operations on `Float32` in terms of counts: on finite values each is the exact operation taken
to the grid, and an infinity absorbs what it meets.
-/

namespace Utterance.Binary

open Float.Model (Format UnpackedFloat)
open Float.Model.UnpackedFloat

variable {x y : Float32}

/-! ## Finite operands -/

/-- Packing a value that `Rounds` relates to a number gives a value with the rounded count. -/
theorem of_rounds {u : UnpackedFloat} {q : ℚ} (h : Rounds .binary32 u q) :
    (Float32.ofModel (.pack u)).isNaN = false ∧
      count (.ofModel (.pack u)) = nearest .binary32 q := by
  rw [isNaN_eq_false_iff, count, unpack_ofModel_pack h.canonical]
  exact h.settle

/-- `x + y` is the exact sum of the counts, taken to the grid. -/
theorem add_of_isFinite (hx : x.isFinite = true) (hy : y.isFinite = true) :
    (x + y).isNaN = false ∧ count (x + y) = nearest .binary32 (count x + count y) :=
  of_rounds (rounds_add (settled_unpack32 x) (settled_unpack32 y) hx hy)

/-- `x - y` is the exact difference of the counts, taken to the grid. -/
theorem sub_of_isFinite (hx : x.isFinite = true) (hy : y.isFinite = true) :
    (x - y).isNaN = false ∧ count (x - y) = nearest .binary32 (count x - count y) :=
  of_rounds (rounds_sub (settled_unpack32 x) (settled_unpack32 y) hx hy)

/-- `x * y` is the exact product, counted in the smallest positive value and taken to the grid. -/
theorem mul_of_isFinite (hx : x.isFinite = true) (hy : y.isFinite = true) :
    (x * y).isNaN = false ∧
      count (x * y) = nearest .binary32 (count x * count y / one .binary32) :=
  of_rounds (rounds_mul (settled_unpack32 x) (settled_unpack32 y) hx hy)

/-- `x / y` is the exact quotient, counted in the smallest positive value and taken to the grid,
unless `y` is a zero. -/
theorem div_of_isFinite (hx : x.isFinite = true) (hy : y.isFinite = true) (hne : count y ≠ 0) :
    (x / y).isNaN = false ∧
      count (x / y) = nearest .binary32 (count x * one .binary32 / count y) :=
  of_rounds (rounds_div (settled_unpack32 x) (settled_unpack32 y) hx hy hne)

/-- The number 1 is `2 ^ 149` times the smallest positive binary32 value. -/
theorem one_binary32 : one .binary32 = 2 ^ 149 := by
  rw [one, show -Format.binary32.minExponent = ((149 : ℕ) : ℤ) from rfl, zpow_natCast]

/-- The `count` of the value 1. -/
theorem count_one : count 1 = 2 ^ 149 := by decide

/-- The value 1 is finite. -/
theorem isFinite_one : (1 : Float32).isFinite = true := by decide

/-- The `count` of a value is on the grid. -/
theorem grid_count (x : Float32) : Grid .binary32 (count x) :=
  grid_units (settled_unpack32 x)

/-- A number of items as a binary32 value: `toFloat32` rounds it to the grid. -/
theorem toFloat32_of_uInt64 (n : UInt64) :
    n.toFloat32.isNaN = false ∧
      count n.toFloat32 = nearest .binary32 (n.toNat * one .binary32) := by
  have h := of_rounds (rounds_normalize (f := .binary32) n.toNat 0 .positive)
  rwa [zero_sub] at h

/-- The inverse of a value that is not too large does not vanish: `1 / y` stays positive. -/
theorem one_div_pos {y : Float32} (hy : y.isFinite = true) (hpos : 0 < count y)
    (hle : count y ≤ 2 ^ 213) : (1 / y).isNaN = false ∧ 0 < count (1 / y) := by
  obtain ⟨hnan, hcount⟩ := div_of_isFinite isFinite_one hy hpos.ne'
  refine ⟨hnan, ?_⟩
  -- the exact quotient is at least the smallest positive value
  have hpos' : (0 : ℚ) < count y := by exact_mod_cast hpos
  have hle' : (count y : ℚ) ≤ 2 ^ 149 * 2 ^ 149 := by
    have h : (count y : ℚ) ≤ 2 ^ 213 := by exact_mod_cast hle
    exact h.trans (by norm_num)
  have hgrid : Grid .binary32 1 := by
    have hceiling := ceiling_pos .binary32
    simpa using grid_two_pow (f := .binary32) (j := 0) (by simp; omega)
  -- the smallest positive value is on the grid, so rounding cannot go below it
  have hone : (((1 : ℤ) : ℚ)) ≤ count 1 * one .binary32 / count y := by
    rw [count_one, one_binary32, Int.cast_one, le_div_iff₀ hpos', one_mul]
    push_cast
    exact hle'
  have hle1 := le_nearest hgrid hone
  omega

/-- `x / y` is at most 1 when `y` is no smaller than `x`. -/
theorem div_le_one_of_le {x y : Float32} (hx : x.isFinite = true) (hy : y.isFinite = true)
    (hpos : 0 < count y) (hle : count x ≤ count y) : x / y ≤ 1 := by
  obtain ⟨hnan, hcount⟩ := div_of_isFinite hx hy hpos.ne'
  have hpos' : (0 : ℚ) < count y := by exact_mod_cast hpos
  have hle' : (count x : ℚ) ≤ count y := by exact_mod_cast hle
  refine le_iff.mpr ⟨hnan, isNaN_of_isFinite isFinite_one, ?_⟩
  rw [hcount]
  -- the exact quotient is at most 1, and 1 is on the grid
  refine nearest_le (grid_count 1) ?_
  rw [count_one, one_binary32, div_le_iff₀ hpos']
  push_cast
  rw [mul_comm]
  exact mul_le_mul_of_nonneg_left hle' (by positivity)

/-- A finite value is at no distance from itself: `x - x` is the positive zero. -/
theorem sub_self_of_isFinite (h : x.isFinite = true) : x - x = 0 := by
  change x.toModel.unpack.isFinite = true at h
  show Float32.ofModel (.pack (sub .binary32 x.toModel.unpack x.toModel.unpack)) = _
  generalize x.toModel.unpack = u at *
  cases u with
  | notANumber => cases h
  | infinity s => cases h
  | zero s => cases s <;> rfl
  | finite s m e hm =>
    -- both significands are aligned to the same exponent and cancel
    simp only [sub, sub_self, UnpackedFloat.normalize, Int.compare_eq_eq.mpr rfl]
    rfl

/-- `x - y` is not positive when `y` is no smaller than `x`. -/
protected theorem sub_nonpos_of_le (hx : x.isFinite = true) (hy : y.isFinite = true) (hle : x ≤ y) :
    x - y ≤ 0 := by
  obtain ⟨hnan, hcount⟩ := sub_of_isFinite hx hy
  have hle' := (le_iff.mp hle).2.2
  refine le_iff.mpr ⟨hnan, isNaN_zero, ?_⟩
  rw [hcount, count_zero]
  exact nearest_nonpos (by exact_mod_cast (by omega : count x - count y ≤ 0))

/-! ## Infinite operands, and a zero divided -/

/-- The unpacked form of `+inf`. -/
private theorem unpack_infinity : infinity.toModel.unpack = .infinity .positive := rfl

/-- The unpacked form of `-inf`. -/
private theorem unpack_negInfinity : negInfinity.toModel.unpack = .infinity .negative := rfl

/-- The unpacked form of a positive finite value: it is `finite` with a positive sign. -/
private theorem unpack_of_pos (h : 0 < x) (hx : x.isFinite = true) :
    ∃ m e hm, x.toModel.unpack = .finite .positive m e hm := by
  obtain ⟨-, hpos⟩ := pos_iff.mp h
  change x.toModel.unpack.isFinite = true at hx
  rw [count] at hpos
  -- the count is positive only for a finite value with that sign
  generalize x.toModel.unpack = u at *
  cases u with
  | notANumber => cases hx
  | infinity s => cases hx
  | zero s => exact absurd hpos (lt_irrefl 0)
  | finite s m e hm =>
    cases s with
    | positive => exact ⟨m, e, hm, rfl⟩
    | negative =>
      -- a negative value has a negative count
      have hsize : (0 : ℤ) < m * 2 ^ (e - Format.binary32.minExponent).toNat := by positivity
      simp only [units, Sign.apply] at hpos
      omega

/-- The unpacked form of a value above `-inf` is neither `notANumber` nor a negative infinity. -/
private theorem unpack_of_negInfinity_lt (h : negInfinity < x) :
    x.toModel.unpack ≠ .notANumber ∧ x.toModel.unpack ≠ .infinity .negative := by
  obtain ⟨hnan, hne⟩ := negInfinity_lt_iff.mp h
  rw [isNaN_eq_false_iff] at hnan
  exact ⟨hnan, fun hunpack => hne (ext_unpack (hunpack.trans unpack_negInfinity.symm))⟩

/-- `+inf` absorbs every value above `-inf` that is added to it. -/
theorem infinity_add (h : negInfinity < x) : infinity + x = infinity := by
  obtain ⟨hnan, hne⟩ := unpack_of_negInfinity_lt h
  show Float32.ofModel (.pack (add .binary32 infinity.toModel.unpack x.toModel.unpack)) = _
  rw [unpack_infinity]
  -- infinity has one addend that it cannot absorb
  generalize x.toModel.unpack = u at *
  cases u with
  | notANumber => exact absurd rfl hnan
  | infinity s =>
    cases s with
    | positive => rfl
    | negative => exact absurd rfl hne
  | zero s => rfl
  | finite s m e hm => rfl

/-- `+inf` absorbs every value above `-inf` that it is added to. -/
theorem add_infinity (h : negInfinity < x) : x + infinity = infinity := by
  obtain ⟨hnan, hne⟩ := unpack_of_negInfinity_lt h
  show Float32.ofModel (.pack (add .binary32 x.toModel.unpack infinity.toModel.unpack)) = _
  rw [unpack_infinity]
  -- one case for each constructor of the unpacked value: two are excluded, three compute
  generalize x.toModel.unpack = u at *
  cases u with
  | notANumber => exact absurd rfl hnan
  | infinity s =>
    cases s with
    | positive => rfl
    | negative => exact absurd rfl hne
  | zero s => rfl
  | finite s m e hm => rfl

/-- `+inf` absorbs every finite value that is taken from it. -/
theorem infinity_sub (h : x.isFinite = true) : infinity - x = infinity := by
  change x.toModel.unpack.isFinite = true at h
  show Float32.ofModel (.pack (sub .binary32 infinity.toModel.unpack x.toModel.unpack)) = _
  rw [unpack_infinity]
  cases hu : x.toModel.unpack <;> rw [hu] at h <;> first | rfl | cases h

/-- `-inf` absorbs every finite value that is taken from it. -/
theorem negInfinity_sub (h : x.isFinite = true) : negInfinity - x = negInfinity := by
  change x.toModel.unpack.isFinite = true at h
  show Float32.ofModel (.pack (sub .binary32 negInfinity.toModel.unpack x.toModel.unpack)) = _
  rw [unpack_negInfinity]
  cases hu : x.toModel.unpack <;> rw [hu] at h <;> first | rfl | cases h

/-- `+inf` stays where it is when it is divided by a positive finite value. -/
theorem infinity_div (h : 0 < x) (hx : x.isFinite = true) : infinity / x = infinity := by
  obtain ⟨m, e, hm, hu⟩ := unpack_of_pos h hx
  show Float32.ofModel (.pack (div .binary32 infinity.toModel.unpack x.toModel.unpack)) = _
  rw [unpack_infinity, hu]
  rfl

/-- `-inf` stays where it is when it is divided by a positive finite value. -/
theorem negInfinity_div (h : 0 < x) (hx : x.isFinite = true) :
    negInfinity / x = negInfinity := by
  obtain ⟨m, e, hm, hu⟩ := unpack_of_pos h hx
  show Float32.ofModel (.pack (div .binary32 negInfinity.toModel.unpack x.toModel.unpack)) = _
  rw [unpack_negInfinity, hu]
  rfl

/-- The positive zero stays where it is when it is divided by a positive finite value. -/
protected theorem zero_div (h : 0 < x) (hx : x.isFinite = true) : 0 / x = 0 := by
  obtain ⟨m, e, hm, hu⟩ := unpack_of_pos h hx
  show Float32.ofModel (.pack (div .binary32 (.zero .positive) x.toModel.unpack)) = _
  rw [hu]
  rfl

/-- `+inf` stays where it is when it is multiplied by a positive finite value. -/
theorem infinity_mul (h : 0 < x) (hx : x.isFinite = true) : infinity * x = infinity := by
  obtain ⟨m, e, hm, hu⟩ := unpack_of_pos h hx
  show Float32.ofModel (.pack (mul .binary32 infinity.toModel.unpack x.toModel.unpack)) = _
  rw [unpack_infinity, hu]
  rfl

/-- `-inf` stays where it is when it is multiplied by a positive finite value. -/
theorem negInfinity_mul (h : 0 < x) (hx : x.isFinite = true) :
    negInfinity * x = negInfinity := by
  obtain ⟨m, e, hm, hu⟩ := unpack_of_pos h hx
  show Float32.ofModel (.pack (mul .binary32 negInfinity.toModel.unpack x.toModel.unpack)) = _
  rw [unpack_negInfinity, hu]
  rfl

end Utterance.Binary
