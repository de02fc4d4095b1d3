import Utterance.Proofs.Binary.Binary64
import Utterance.Proofs.Binary.Neutral

/-!
# Decimal fractions and the two formats

A decimal fraction is taken to the nearest binary64 value, however it is computed.  Every finite
binary32 value is a binary64 value, and narrowing gives it back.

## Key results

- `stands_ofScientific`: the value of a decimal fraction
- `stands_widen`: the wider value stands for the same number
- `narrow_eq_of_stands`: what stands for the number of a binary32 value is narrowed to it
-/

namespace Utterance.Binary

open Float.Model (Format UnpackedFloat totalExponent)
open Float.Model.UnpackedFloat

/-! ## Equal values -/

/-- A value is determined by what `unpack` makes of it. -/
theorem ext_unpack64 {x y : Float} (h : x.toModel.unpack = y.toModel.unpack) : x = y := by
  obtain ⟨⟨a, ha⟩⟩ := x
  obtain ⟨⟨b, hb⟩⟩ := y
  have hbits : a.toBitVec = b.toBitVec := (unpack_inj_of_valid ha hb).mp h
  obtain rfl : a = b := UInt64.toBitVec_inj.mp hbits
  rfl

/-- Values that `Stands` relates to the same number, which is no zero, are the same. -/
theorem Stands.eq {x y : Float} {q : ℚ} (hx : Stands x q) (hy : Stands y q) (hq : q ≠ 0) :
    x = y := by
  have hnumber : ∀ {u : UnpackedFloat}, u.isFinite = true → u ≠ .notANumber := by
    rintro u hfinite rfl
    cases hfinite
  -- what stands for a value other than 0 has no second pattern
  refine ext_unpack64 (eq_of_units_eq (settled_unpack64 x) (settled_unpack64 y)
    (hnumber hx.isFinite) (hnumber hy.isFinite) ?_ fun hzero => ?_)
  · -- the counts are the same
    have h := hx.units_eq.trans hy.units_eq.symm
    exact_mod_cast h
  · have h := hx.units_eq
    rw [hzero, Int.cast_zero, eq_comm, mul_eq_zero] at h
    exact h.elim hq (by positivity)

/-! ## Decimal fractions -/

section Fractions

variable {n k : ℕ}

/-- The powers of ten in `exactlyRepresentablePowersOfTen` are values of the format. -/
theorem stands_powerOfTen (k : Fin Float.exactlyRepresentablePowersOfTen.size) :
    Stands Float.exactlyRepresentablePowersOfTen[k] (10 ^ (k : ℕ)) := by
  have hall : ∀ k : Fin Float.exactlyRepresentablePowersOfTen.size,
      (Float.exactlyRepresentablePowersOfTen[k]).toModel.unpack.isFinite = true ∧
        units .binary64 (Float.exactlyRepresentablePowersOfTen[k]).toModel.unpack =
          10 ^ (k : ℕ) * 2 ^ 1074 := by
    decide +kernel
  obtain ⟨hfinite, hunits⟩ := hall k
  refine ⟨hfinite, ?_⟩
  rw [hunits, Int.cast_mul, Int.cast_pow, Int.cast_pow, Int.cast_ofNat, Int.cast_ofNat]

/-- A fraction that is not tiny has few places for its size and its digits. -/
theorem places_lt {p : ℕ} (hlow : 1 / 2 ^ p ≤ (n / 10 ^ k : ℚ)) : k < n.log2 + 1 + p := by
  -- without fractions: ten to the places is at most the digits shifted
  have hnat : 10 ^ k ≤ n * 2 ^ p := by
    rw [div_le_div_iff₀ (by positivity) (by positivity), one_mul] at hlow
    exact_mod_cast hlow
  have hlt : 2 ^ k < 2 ^ (n.log2 + 1 + p) :=
    calc 2 ^ k ≤ 10 ^ k := Nat.pow_le_pow_left (by decide) k
      _ ≤ n * 2 ^ p := hnat
      _ < 2 ^ (n.log2 + 1) * 2 ^ p :=
          Nat.mul_lt_mul_of_pos_right Nat.lt_log2_self (Nat.two_pow_pos _)
      _ = 2 ^ (n.log2 + 1 + p) := (pow_add _ _ _).symm
  exact (Nat.pow_lt_pow_iff_right (by decide)).mp hlt

/-- `ofScientific` on unpacked values rounds the exact fraction: none of its early answers
applies. -/
theorem rounds_ofScientific (hn : 0 < n) (hk : 0 < k) (hlow : 1 / 2 ^ 1075 ≤ (n / 10 ^ k : ℚ)) :
    Rounds .binary64 (UnpackedFloat.ofScientific .binary64 n (.negOfNat k))
      (n / 10 ^ k * 2 ^ 1074) := by
  have hplaces := places_lt hlow
  have hneg : Int.negOfNat k = -(k : ℤ) := Int.negOfNat_eq
  have h := rounds_div_finite (f := .binary64) .positive .positive hn
    (show 0 < 10 ^ (-Int.negOfNat k).toNat from Nat.pow_pos (by decide)) 0 0
  have hvalue : ((.positive / .positive : Sign).apply 1 : ℤ) *
      ((n : ℚ) * 2 ^ (0 : ℤ) / ((10 ^ (-Int.negOfNat k).toNat : ℕ) * 2 ^ (0 : ℤ)) *
        one .binary64) = n / 10 ^ k * 2 ^ 1074 := by
    rw [one_binary64, hneg, neg_neg, Int.toNat_natCast, zpow_zero, mul_one, mul_one]
    push_cast
    exact one_mul _
  rw [hvalue] at h
  -- the fraction is neither zero nor far out of the range of the format
  rw [UnpackedFloat.ofScientific, dif_neg hn.ne', if_neg ?_, if_neg ?_, if_neg ?_]
  · exact h
  · omega
  · have hbits : (2 : ℤ) ^ Format.binary64.exponentBits = 2 ^ 11 := rfl
    rw [hbits]
    omega
  · have hbits : (0 : ℤ) < 2 ^ Format.binary64.exponentBits := by positivity
    omega

/-- `ofScientific` of a fraction in decimal is the nearest value. -/
theorem stands_ofScientific (hn : 0 < n) (hk : 0 < k) (hlow : 1 / 2 ^ 1075 ≤ (n / 10 ^ k : ℚ))
    (hhigh : (n / 10 ^ k : ℚ) ≤ 2 ^ 256) :
    Stands (Float.ofScientific n true k) (fit (n / 10 ^ k)) := by
  have hbound : |(n / 10 ^ k : ℚ)| ≤ 2 ^ 256 := by
    rwa [abs_of_nonneg (by positivity)]
  rw [Float.ofScientific]
  split
  · next hsmall =>
    -- both operands are exact
    have hword : n.toUInt64.toNat = n := by
      rw [UInt64.toNat_ofNat']
      omega
    have hnumerator := stands_toFloat n.toUInt64
    rw [hword, (fits_natCast hsmall.1.le).fit_eq] at hnumerator
    have hdenominator := stands_powerOfTen ⟨k, by
      have hsize : Float.exactlyRepresentablePowersOfTen.size = 23 := rfl
      omega⟩
    rw [if_pos rfl]
    exact hnumerator.div hdenominator (by positivity) hbound
  · exact stands_of_rounds (rounds_ofScientific hn hk hlow) hbound

end Fractions

/-! ## Binary32 values as binary64 values -/

section Widening

variable {x : Float32} {y : Float}

/-- The wider format has all numbers of the narrower one: `Fits` holds of them. -/
theorem fits_value (x : Float32) : Fits (value x) := by
  obtain ⟨m, j, hm, hcount, hbound⟩ := grid_count x
  -- the counts of the short format are some of those of the long one
  refine ⟨count x * 2 ^ 925, ⟨m, j + 925, hm.trans ?_, ?_, ?_⟩, ?_⟩
  · exact pow_le_pow_right₀ (by norm_num) (by decide)
  · rw [hcount, pow_add, mul_assoc]
  · have hceiling : ceiling .binary32 * 2 ^ 925 ≤ ceiling .binary64 := by
      rw [ceiling, ceiling, ← pow_add]
      exact Nat.pow_le_pow_right (by decide) (by decide)
    rw [abs_mul, abs_of_pos (by positivity : (0 : ℤ) < 2 ^ 925)]
    refine (mul_le_mul_of_nonneg_right hbound (by positivity)).trans ?_
    exact_mod_cast hceiling
  · rw [value, Int.cast_mul, Int.cast_pow, Int.cast_ofNat, div_mul_eq_mul_div, mul_div_assoc,
      show (2 : ℚ) ^ 1074 = 2 ^ 925 * 2 ^ 149 from pow_add 2 925 149,
      mul_div_cancel_right₀ _ (by positivity)]

/-- No binary32 value stands for a number beyond this power of two. -/
theorem abs_value_le_two_pow (x : Float32) : |value x| ≤ 2 ^ 128 := by
  obtain ⟨_, _, _, _, hbound⟩ := grid_count x
  have hceiling : ceiling .binary32 ≤ 2 ^ 128 * 2 ^ 149 :=
    (Nat.pow_le_pow_right (by decide) (by decide)).trans_eq (pow_add 2 128 149)
  have h := abs_value_le (x := x) (n := 2 ^ 128) (hbound.trans (by exact_mod_cast hceiling))
  rwa [Int.cast_pow, Int.cast_ofNat] at h

/-- `widen` keeps the number that a finite value stands for. -/
theorem stands_widen (hfinite : x.isFinite = true) : Stands (widen x) (value x) := by
  have hbound : |value x| ≤ 2 ^ 256 :=
    (abs_value_le_two_pow x).trans (pow_le_pow_right₀ (by norm_num) (by decide))
  rw [← (fits_value x).fit_eq]
  refine stands_of_rounds ?_ hbound
  have hsettled := settled_unpack32 x
  have hvalue : value x = units .binary32 x.toModel.unpack / one .binary32 := by
    rw [one_binary32, value, count]
  change x.toModel.unpack.isFinite = true at hfinite
  rw [hvalue]
  -- neither an undefined nor an infinite value is left
  generalize x.toModel.unpack = u at hsettled hfinite ⊢
  cases u with
  | notANumber => cases hfinite
  | infinity s => cases hfinite
  | zero s =>
    have hzero : (units .binary32 (.zero s) : ℚ) / one .binary32 * 2 ^ 1074 = 0 := by simp [units]
    rw [hzero]
    exact rounds_zero _ s
  | finite s m e hm =>
    -- the two formats count in different units
    have hscale : (units .binary32 (.finite s m e hm) : ℚ) / one .binary32 * 2 ^ 1074 =
        s.apply 1 * (m * 2 ^ (e - Format.binary64.minExponent)) := by
      rw [units_finite_div_one hsettled.1.2.1, show e - Format.binary64.minExponent = e + (1074 : ℕ)
        from rfl, zpow_add₀ (by norm_num), zpow_natCast, mul_assoc, mul_assoc]
    rw [hscale]
    exact rounds_round s hm e

/-- What stands for the number of a value other than zero is taken to the value by `narrow`. -/
theorem narrow_eq_of_stands (hnan : x.isNaN = false) (hne : count x ≠ 0)
    (h : Stands y (value x)) : narrow y = x := by
  obtain ⟨hnumber, hcount⟩ := h.narrow
  rw [← count_eq_value, nearest_eq_self (grid_count x)] at hcount
  exact eq_of_count_eq hnumber hnan hcount (hcount.trans_ne hne)

end Widening

end Utterance.Binary
