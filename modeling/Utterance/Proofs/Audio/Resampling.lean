import Utterance.Audio.Resample
import Utterance.Proofs.Binary.Binary64

/-!
# Resampled signals

How many samples a signal takes at another rate, and where in the signal each of them is taken.  The
factor between the rates, the number of samples and the places are binary64 values.

## Key results

- `resampledLength_le`: the number of samples
- `place_le`: no place is past the end of the signal
- `interpolate_eq`: a sample as a mean of two neighbours
- `resample_sound`: the samples of a signal at another rate
-/

namespace Utterance.Audio

open Binary
open Float.Model (UnpackedFloat)

variable {source target : UInt32} {length : ℕ}

/-! ## Counts -/

/-- `nearestCount` rounds the number that a value stands for, and stops at the largest word. -/
theorem nearestCount_eq {x : Float} {q : ℚ} (h : Stands x q) :
    nearestCount x = min (roundAway q).toNat (UInt64.size - 1) := by
  have hfinite := h.isFinite
  have hnearest := nearestInt_of_settled (settled_unpack64 x) hfinite
  rw [h.units_eq, one_binary64, mul_div_cancel_right₀ _ (by positivity)] at hnearest
  -- a value that stands for a number is neither infinite nor undefined
  unfold nearestCount
  split
  · next hinf => rw [hinf] at hfinite; cases hfinite
  · rw [hnearest, Option.getD_some]

/-- `nearestCount` adds at most one half. -/
theorem nearestCount_le {x : Float} {q : ℚ} (h : Stands x q) (hq : 0 ≤ q) :
    (nearestCount x : ℚ) ≤ q + 1 / 2 := by
  -- half of a step is lost in rounding, and nothing in the cast, as the number is not negative
  have hround := (abs_le.mp (abs_roundAway_sub_le q)).2
  have hcount : nearestCount x ≤ (roundAway q).toNat :=
    (nearestCount_eq h).trans_le (min_le_left _ _)
  have hnonneg : 0 ≤ roundAway q := by
    rw [roundAway, if_neg hq.not_gt]
    exact Int.floor_nonneg.mpr (by linarith)
  have hint : (nearestCount x : ℤ) ≤ roundAway q := by omega
  have hrat : ((nearestCount x : ℤ) : ℚ) ≤ roundAway q := by exact_mod_cast hint
  push_cast at hrat
  linarith

/-! ## The factor between rates -/

/-- The `factor` between two rates, of which the first is positive, as `ratio` rounds it. -/
def factor (source target : UInt32) : ℚ :=
  fit (target.toNat / source.toNat)

/-- A rate that is not 0 is at least 1, as `toNat` has it. -/
theorem one_le_toNat {rate : UInt32} (h : rate ≠ 0) : (1 : ℚ) ≤ rate.toNat := by
  have hpos : 1 ≤ rate.toNat := by
    have hne : rate.toNat ≠ 0 := fun hzero => h (UInt32.toNat_inj.mp hzero)
    omega
  exact_mod_cast hpos

/-- A rate has 32 bits, so `toNat` is at most `2 ^ 32`. -/
theorem toNat_le_two_pow (rate : UInt32) : (rate.toNat : ℚ) ≤ 2 ^ 32 := by
  exact_mod_cast rate.toNat_lt.le

/-- The exact factor is at most the `target` rate. -/
theorem quotient_le (hs : source ≠ 0) : (target.toNat / source.toNat : ℚ) ≤ target.toNat :=
  div_le_self (by positivity) (one_le_toNat hs)

/-- No `factor` is negative. -/
theorem factor_nonneg : 0 ≤ factor source target :=
  fit_nonneg (by positivity)

/-- Rounding does not take the `factor` past the second rate, which the format has. -/
theorem factor_le (hs : source ≠ 0) : factor source target ≤ target.toNat := by
  have hsize := target.toNat_lt
  exact fit_le (fits_natCast (by omega)) (quotient_le hs)

/-- Two positive rates of 32 bits are not further apart than this: the factor is at least `2 ^
-32`. -/
theorem two_zpow_le_quotient (hs : source ≠ 0) (ht : target ≠ 0) :
    (2 : ℚ) ^ (-32 : ℤ) ≤ target.toNat / source.toNat := by
  have hone := one_le_toNat ht
  have hsize := toNat_le_two_pow source
  have hpos := one_le_toNat hs
  rw [le_div_iff₀ (by linarith)]
  calc (2 : ℚ) ^ (-32 : ℤ) * source.toNat ≤ 2 ^ (-32 : ℤ) * 2 ^ 32 :=
        mul_le_mul_of_nonneg_left hsize (by positivity)
    _ = 1 := by norm_num
    _ ≤ target.toNat := hone

/-- Rounding does not take the `factor` below a power of two, which the format has. -/
theorem le_factor (hs : source ≠ 0) (ht : target ≠ 0) : 2 ^ (-32 : ℤ) ≤ factor source target :=
  le_fit (fits_two_zpow (by decide) (by decide)) (two_zpow_le_quotient hs ht)

/-- To rate 0 the `factor` is 0. -/
theorem factor_zero : factor source 0 = 0 := by
  have h : Fits ((0 : ℕ) : ℚ) := fits_natCast (by decide)
  have hfit := h.fit_eq
  simpa [factor] using hfit

/-- What `ratio` computes stands for `factor`. -/
theorem stands_ratio (hs : source ≠ 0) : Stands (ratio source target) (factor source target) := by
  have hpos := one_le_toNat hs
  refine (stands_toFloat_uInt32 target).div (stands_toFloat_uInt32 source) (by linarith) ?_
  rw [abs_of_nonneg (by positivity)]
  exact (quotient_le hs).trans ((toNat_le_two_pow target).trans (by norm_num))

/-- From rate 0 there is no `factor`: the quotient that `ratio` computes is infinite. -/
theorem ratio_zero (ht : target ≠ 0) : (ratio 0 target).toModel.unpack = .infinity .positive := by
  have hpos : (0 : ℚ) < target.toNat := by linarith [one_le_toNat ht]
  exact unpack_div_zero (stands_toFloat_uInt32 target) hpos rfl

/-! ## The number of samples -/

/-- The number of samples before `nearestCount` rounds it. -/
def scaled (length : ℕ) (source target : UInt32) : ℚ :=
  fit (fit length * factor source target)

/-- A count up to a power of two stays there under `fit`. -/
theorem fit_natCast_le {n k : ℕ} (h : n ≤ 2 ^ k) (hk : k ≤ 64) : fit n ≤ 2 ^ k := by
  have hfits : Fits (2 ^ (k : ℤ)) := fits_two_zpow (by omega) (by omega)
  rw [zpow_natCast] at hfits
  exact fit_le hfits (by exact_mod_cast h)

/-- Counts below `2 ^ 64` are kept by the conversion to a word. -/
theorem toNat_toUInt64 {n : ℕ} (h : n < 2 ^ 64) : n.toUInt64.toNat = n := by
  rw [UInt64.toNat_ofNat', Nat.mod_eq_of_lt h]

/-- The number `scaled` of samples is not negative. -/
theorem scaled_nonneg : 0 ≤ scaled length source target :=
  fit_nonneg (mul_nonneg (fit_nonneg (by positivity)) factor_nonneg)

/-- The product that `resampledLength` computes stands for `scaled`: nothing overflows. -/
theorem stands_scaled (hs : source ≠ 0) (hlength : length < 2 ^ 64) :
    Stands (length.toUInt64.toFloat * ratio source target) (scaled length source target) := by
  have hcount : Stands length.toUInt64.toFloat (fit length) := by
    have h := stands_toFloat length.toUInt64
    rwa [toNat_toUInt64 hlength] at h
  have hfactor : factor source target ≤ 2 ^ 32 := (factor_le hs).trans (toNat_le_two_pow target)
  have hfit : fit length ≤ 2 ^ 64 := fit_natCast_le hlength.le le_rfl
  -- the product of two numbers that stand for their values, well inside of the range
  refine hcount.mul (stands_ratio hs) ?_
  rw [abs_of_nonneg (mul_nonneg (fit_nonneg (by positivity)) factor_nonneg)]
  calc fit length * factor source target ≤ 2 ^ 64 * 2 ^ 32 :=
        mul_le_mul hfit hfactor factor_nonneg (by positivity)
    _ ≤ 2 ^ 256 := by norm_num

/-- `resampledLength` is at most one half above the number that it rounds. -/
theorem resampledLength_le_scaled (target : UInt32) (hs : source ≠ 0)
    (hlength : length < 2 ^ 64) :
    (resampledLength length source target : ℚ) ≤ scaled length source target + 1 / 2 :=
  nearestCount_le (stands_scaled hs hlength) scaled_nonneg

/-- Rounding a length up to a power of two, `scaled` at most doubles it. -/
theorem scaled_le (target : UInt32) (hs : source ≠ 0)
    (hlength : length < 2 ^ 64) :
    scaled length source target ≤ 2 * length * target.toNat := by
  rcases Nat.eq_zero_or_pos length with rfl | hpos
  · simp [scaled, fit_zero]
  -- the next power of two, times the target rate, has few digits
  have hlow : 2 ^ length.log2 ≤ length := Nat.log2_self_le hpos.ne'
  have hhigh : length < 2 ^ (length.log2 + 1) := Nat.lt_log2_self
  have hlog : length.log2 < 64 := (Nat.log2_lt hpos.ne').mpr hlength
  have hfit : fit length ≤ 2 ^ (length.log2 + 1) := fit_natCast_le hhigh.le (by omega)
  have hfits : Fits (target.toNat * 2 ^ ((length.log2 + 1 : ℕ) : ℤ)) := by
    have hsize := target.toNat_lt
    exact fits_mul_two_zpow (by omega) (by omega) (by omega)
  rw [zpow_natCast] at hfits
  calc scaled length source target ≤ target.toNat * 2 ^ (length.log2 + 1) := by
        refine fit_le hfits ?_
        rw [mul_comm (fit _)]
        exact mul_le_mul (factor_le hs) hfit (fit_nonneg (by positivity)) (by positivity)
    _ = 2 * 2 ^ length.log2 * target.toNat := by ring
    _ ≤ 2 * length * target.toNat := by
        have hcast : (2 : ℚ) ^ length.log2 ≤ length := by exact_mod_cast hlow
        gcongr

/-- `resampledLength` is at most twice the product of the length and the second rate. -/
theorem resampledLength_le (target : UInt32) (hs : source ≠ 0)
    (hlength : length < 2 ^ 64) :
    resampledLength length source target ≤ 2 * length * target.toNat := by
  have hcount := resampledLength_le_scaled target hs hlength
  have hscaled := scaled_le target hs hlength
  have hlt : (resampledLength length source target : ℚ) < (2 * length * target.toNat + 1 : ℕ) := by
    push_cast
    linarith
  rw [Nat.cast_lt] at hlt
  omega

/-- Each of the three roundings in `scaled` at most doubles the exact number of samples. -/
theorem scaled_le_exact (target : UInt32) (hs : source ≠ 0)
    (hlength : length < 2 ^ 64) :
    scaled length source target ≤ 8 * (length * (target.toNat / source.toNat)) := by
  rcases eq_or_ne target 0 with rfl | ht
  · simp [scaled, factor_zero, fit_zero]
  rcases Nat.eq_zero_or_pos length with rfl | hpos
  · simp [scaled, fit_zero]
  have hone : (1 : ℚ) ≤ length := by exact_mod_cast hpos
  have hsize : (length : ℚ) ≤ 2 ^ 64 := by exact_mod_cast hlength.le
  have hquotient : (2 : ℚ) ^ (-32 : ℤ) ≤ target.toNat / source.toNat := two_zpow_le_quotient hs ht
  have hrate : (target.toNat / source.toNat : ℚ) ≤ 2 ^ 32 :=
    (quotient_le hs).trans (toNat_le_two_pow target)
  -- each of the numbers that are rounded is in the range where rounding at most doubles
  have hfit : fit length ≤ 2 * length :=
    fit_le_two_mul (.inr (le_trans (by norm_num) hone)) (hsize.trans (by norm_num))
  have hfactor : factor source target ≤ 2 * (target.toNat / source.toNat) :=
    fit_le_two_mul (.inr (le_trans (by norm_num) hquotient)) (hrate.trans (by norm_num))
  have hlow : 2 ^ (-32 : ℤ) ≤ fit length * factor source target := by
    have hfits : Fits ((1 : ℕ) : ℚ) := fits_natCast (by decide)
    rw [Nat.cast_one] at hfits
    calc (2 : ℚ) ^ (-32 : ℤ) = 1 * 2 ^ (-32 : ℤ) := (one_mul _).symm
      _ ≤ fit length * factor source target :=
        mul_le_mul (le_fit hfits hone) (le_factor hs ht) (by positivity)
          (fit_nonneg (by positivity))
  have hhigh : fit length * factor source target ≤ 4 * (length * (target.toNat / source.toNat)) :=
    calc fit length * factor source target ≤ 2 * length * (2 * (target.toNat / source.toNat)) :=
          mul_le_mul hfit hfactor factor_nonneg (by positivity)
      _ = 4 * (length * (target.toNat / source.toNat)) := by ring
  have hbound : (4 : ℚ) * (length * (target.toNat / source.toNat)) ≤ 4 * (2 ^ 64 * 2 ^ 32) := by
    gcongr
  calc scaled length source target ≤ 2 * (fit length * factor source target) := by
        refine fit_le_two_mul (.inr (le_trans (by norm_num) hlow)) ?_
        exact (hhigh.trans hbound).trans (by norm_num)
    _ ≤ 8 * (length * (target.toNat / source.toNat)) := by linarith

/-- A signal whose exact form at the other rate is not too long has a form that a buffer holds:
`resampledLength` is within `capacity`. -/
theorem resampledLength_le_capacity (hs : source ≠ 0) (hlength : length < 2 ^ 64)
    (h : length * target.toNat ≤ 2 ^ 57 * source.toNat) :
    resampledLength length source target ≤ capacity := by
  have hpos : (0 : ℚ) < source.toNat := by linarith [one_le_toNat hs]
  have hexact : (length * (target.toNat / source.toNat) : ℚ) ≤ 2 ^ 57 := by
    rw [← mul_div_assoc, div_le_iff₀ hpos]
    exact_mod_cast h
  -- one sample of slack for what rounding adds, and the capacity is above even that
  have hscaled := scaled_le_exact target hs hlength
  have hcount := resampledLength_le_scaled target hs hlength
  have hlt : (resampledLength length source target : ℚ) < ((2 ^ 60 + 1 : ℕ) : ℚ) := by
    push_cast
    linarith
  rw [Nat.cast_lt] at hlt
  have hcapacity : capacity = 2 ^ 61 - 1 := rfl
  omega

/-- From rate 0 `resampledLength` has as many samples as a word can say. -/
theorem resampledLength_zero (ht : target ≠ 0) (hpos : 0 < length) (hlength : length < 2 ^ 64) :
    resampledLength length 0 target = UInt64.size - 1 := by
  have hword : 0 < fit length.toUInt64.toNat := by
    rw [toNat_toUInt64 hlength]
    have hfits : Fits ((1 : ℕ) : ℚ) := fits_natCast (by decide)
    have hone : ((1 : ℕ) : ℚ) ≤ length := by exact_mod_cast hpos
    exact lt_of_lt_of_le (by norm_num) (le_fit hfits hone)
  rw [resampledLength, nearestCount,
    unpack_mul_infinity (stands_toFloat length.toUInt64) hword (ratio_zero ht)]

/-! ## Places -/

/-- The `place` in the signal where the sample `i` is taken. -/
def place (source target : UInt32) (i : ℕ) : ℚ :=
  fit (fit i / factor source target)

/-- No `place` is before the signal. -/
theorem place_nonneg (i : ℕ) : 0 ≤ place source target i :=
  fit_nonneg (div_nonneg (fit_nonneg (by positivity)) factor_nonneg)

/-- The exact place of a sample is below `2 ^ 96`, since no factor is small. -/
theorem quotient_le_two_pow (hs : source ≠ 0) (ht : target ≠ 0) {i : ℕ} (hi : i < 2 ^ 64) :
    fit i / factor source target ≤ 2 ^ 96 := by
  have hfactor := le_factor hs ht
  have hfit : fit i ≤ 2 ^ 64 := fit_natCast_le hi.le le_rfl
  rw [div_le_iff₀ (lt_of_lt_of_le (by positivity) hfactor)]
  calc fit i ≤ 2 ^ 96 * 2 ^ (-32 : ℤ) := hfit.trans (by norm_num)
    _ ≤ 2 ^ 96 * factor source target := mul_le_mul_of_nonneg_left hfactor (by positivity)

/-- Rounding leaves a `place` below that power of two. -/
theorem place_le_two_pow (hs : source ≠ 0) (ht : target ≠ 0) {i : ℕ} (hi : i < 2 ^ 64) :
    place source target i ≤ 2 ^ 96 := by
  have hfits : Fits (2 ^ (96 : ℤ)) := fits_two_zpow (by decide) (by decide)
  exact fit_le hfits (quotient_le_two_pow hs ht hi)

/-- The quotient that `resample` computes for the index `i` stands for `place`. -/
theorem stands_place (hs : source ≠ 0) (ht : target ≠ 0) {i : ℕ} (hi : i < 2 ^ 64) :
    Stands (i.toUInt64.toFloat / ratio source target) (place source target i) := by
  have hindex : Stands i.toUInt64.toFloat (fit i) := by
    have h := stands_toFloat i.toUInt64
    rwa [toNat_toUInt64 hi] at h
  have hpos : 0 < factor source target := lt_of_lt_of_le (by positivity) (le_factor hs ht)
  refine hindex.div (stands_ratio hs) hpos.ne' ?_
  rw [abs_of_nonneg (div_nonneg (fit_nonneg (by positivity)) hpos.le)]
  exact (quotient_le_two_pow hs ht hi).trans (by norm_num)

/-- As long as the format tells neighbouring numbers of samples apart, no `place` is past the
end. -/
theorem place_le (hs : source ≠ 0) (ht : target ≠ 0) (hlength : length ≤ 2 ^ 53) {i : ℕ}
    (hi : i < resampledLength length source target) (hlast : i ≤ 2 ^ 53) :
    place source target i ≤ length := by
  have hpos : 0 < factor source target := lt_of_lt_of_le (by positivity) (le_factor hs ht)
  have hfitsLength : Fits (length : ℚ) := fits_natCast hlength
  have hfitsIndex : Fits (i : ℚ) := fits_natCast hlast
  have hcount := resampledLength_le_scaled target hs (show length < 2 ^ 64 by omega)
  have hnext : ((i + 1 : ℕ) : ℚ) ≤ resampledLength length source target := by exact_mod_cast hi
  rw [Nat.cast_add, Nat.cast_one] at hnext
  -- otherwise there are at most `i` samples
  have hexact : (i : ℚ) ≤ length * factor source target := by
    by_contra hgt
    rw [not_le] at hgt
    have hscaled : scaled length source target ≤ i := by
      rw [scaled, hfitsLength.fit_eq]
      exact fit_le hfitsIndex hgt.le
    linarith
  refine fit_le hfitsLength ?_
  rwa [hfitsIndex.fit_eq, div_le_iff₀ hpos]

/-! ## Interpolation -/

/-- The neighbours of the place `p` in a signal, and the weight of the second of them. -/
structure Neighbours (input : List Float32) (p : ℚ) (left right : Fin input.length) (t : Float32) :
    Prop where
  left_eq : (left : ℕ) = min ⌊p⌋₊ (input.length - 1)
  right_eq : (right : ℕ) = min ((left : ℕ) + 1) (input.length - 1)
  isNumber : t.isNaN = false
  count_eq : count t = nearest .binary32 (fit (p - fit left) * 2 ^ 149)

variable {input : List Float32} {p : ℚ} {left right : Fin input.length} {t : Float32}

/-- The first neighbour is not past the place, also under `fit`. -/
theorem fit_left_le (hfits : Fits p) (hp : 0 ≤ p) {left : ℕ} (h : left ≤ ⌊p⌋₊) : fit left ≤ p := by
  have hle : (left : ℚ) ≤ p := le_trans (by exact_mod_cast h) (Nat.floor_le hp)
  exact fit_le hfits hle

/-- The weight `t` of the second neighbour is not negative, since the first is not past the
place. -/
theorem Neighbours.weight_nonneg (h : Neighbours input p left right t) (hfits : Fits p)
    (hp : 0 ≤ p) : 0 ≤ t := by
  have hleft : fit left ≤ p := fit_left_le hfits hp (h.left_eq.trans_le (min_le_left _ _))
  have hweight : 0 ≤ fit (p - fit left) := fit_nonneg (by linarith)
  refine le_iff.mpr ⟨rfl, h.isNumber, ?_⟩
  rw [h.count_eq]
  exact nearest_nonneg (by positivity)

/-- The weight `t` is at most 1 when the place is at most one sample past the first neighbour. -/
theorem Neighbours.weight_le_one (h : Neighbours input p left right t)
    (hclose : p - fit left ≤ 1) : t ≤ 1 := by
  have hfits : Fits ((1 : ℕ) : ℚ) := fits_natCast (by decide)
  rw [Nat.cast_one] at hfits
  have hweight : fit (p - fit left) ≤ 1 := fit_le hfits hclose
  refine le_iff.mpr ⟨h.isNumber, rfl, ?_⟩
  rw [h.count_eq]
  refine nearest_le (grid_count 1) ?_
  rw [count_one, Int.cast_pow, Int.cast_ofNat]
  exact mul_le_of_le_one_left (by positivity) hweight

/-- Before the last sample, the first neighbour `left` is at most one sample away. -/
theorem Neighbours.close_of_lt (h : Neighbours input p left right t) (hfits : Fits p)
    (hp : 0 ≤ p) (hlt : (left : ℕ) < input.length - 1) : p - fit left ≤ 1 := by
  have hleft : (left : ℕ) = ⌊p⌋₊ := by
    have heq := h.left_eq
    omega
  have hnext := Nat.lt_floor_add_one p
  rw [hleft, (hfits.floor hp).fit_eq]
  linarith

/-- At the last sample the place is at most one sample from `left` too, if it is not past the
end. -/
theorem Neighbours.close_of_le (h : Neighbours input p left right t) (hfits : Fits p) (hp : 0 ≤ p)
    (hlength : input.length ≤ 2 ^ 53) (hend : p ≤ input.length) : p - fit left ≤ 1 := by
  by_cases hlt : (left : ℕ) < input.length - 1
  · exact h.close_of_lt hfits hp hlt
  -- both neighbours are the last sample, and the place is between it and the end
  · have hleft : (left : ℕ) + 1 = input.length := by omega
    have hfitsLeft : Fits ((left : ℕ) : ℚ) := fits_natCast (by omega)
    rw [← hleft, Nat.cast_add, Nat.cast_one] at hend
    rw [hfitsLeft.fit_eq]
    linarith

/-- A sample that `interpolate` computes is a mean of the neighbours of its place. -/
theorem interpolate_eq (hne : input ≠ []) (hlength : input.length < 2 ^ 64) {x : Float}
    (hx : Stands x p) (hp : 0 ≤ p) (hhigh : p ≤ 2 ^ 96) :
    ∃ left right t, Neighbours input p left right t ∧
      interpolate input.toArray (input.length - 1) x =
        input[left] * (1 - t) + input[right] * t := by
  have hpos : 0 < input.length := List.length_pos_iff.mpr hne
  -- a place that 64 bits do not hold is past the last sample in any case
  have hindex : min x.toUInt64.toNat (input.length - 1) = min ⌊p⌋₊ (input.length - 1) := by
    have hword := hx.toUInt64 hp
    have hsize : UInt64.size = 2 ^ 64 := rfl
    omega
  let left : Fin input.length := ⟨min ⌊p⌋₊ (input.length - 1), by omega⟩
  let right : Fin input.length := ⟨min ((left : ℕ) + 1) (input.length - 1), by omega⟩
  have hleft : fit left ≤ p := fit_left_le hx.fits hp (min_le_left _ _)
  have hsub : Stands (x - (left : ℕ).toUInt64.toFloat) (fit (p - fit left)) := by
    have hword := stands_toFloat (left : ℕ).toUInt64
    rw [toNat_toUInt64 (by omega)] at hword
    refine hx.sub hword ?_
    have hnonneg : 0 ≤ fit (left : ℕ) := fit_nonneg (by positivity)
    rw [abs_of_nonneg (by linarith)]
    exact le_trans (by linarith) (hhigh.trans (by norm_num))
  obtain ⟨hnan, hcount⟩ := hsub.narrow
  refine ⟨left, right, Binary.narrow (x - (left : ℕ).toUInt64.toFloat),
    ⟨rfl, rfl, hnan, hcount⟩, ?_⟩
  have hread (k : Fin input.length) : input.toArray.getD k 0 = input[k] := by simp
  simp only [interpolate, hindex]
  rw [← hread left, ← hread right]

/-! ## Signals -/

/-- `resample` with the checks that come first behind it. -/
theorem resample_of_ne (hne : input ≠ []) (hrates : source ≠ target) :
    resample input source target =
      if capacity < resampledLength input.length source target then none
      else some ((List.range (resampledLength input.length source target)).map fun i =>
        interpolate input.toArray (input.length - 1)
          (i.toUInt64.toFloat / ratio source target)) := by
  simp [resample, hne, hrates]

/-- From rate 0 the buffer would be too long, so `resample` gives nothing. -/
theorem resample_zero (hne : input ≠ []) (hlength : input.length ≤ capacity) (ht : target ≠ 0) :
    resample input 0 target = none := by
  have hpos : 0 < input.length := List.length_pos_iff.mpr hne
  have hcapacity : capacity = 2 ^ 61 - 1 := rfl
  have hsize : UInt64.size = 2 ^ 64 := rfl
  rw [resample_of_ne hne ht.symm, resampledLength_zero ht hpos (by omega), if_pos (by omega)]

/-- A resampled signal has `resampledLength` samples, and each is a mean of two neighbours. -/
theorem resample_samples (hne : input ≠ []) (hlength : input.length ≤ capacity)
    (hrates : source ≠ target) {out : List Float32} (h : resample input source target = some out) :
    source ≠ 0 ∧ out.length = resampledLength input.length source target ∧ out.length ≤ capacity ∧
      ∀ i (hi : i < out.length), target ≠ 0 ∧ ∃ left right t,
        Neighbours input (place source target i) left right t ∧
          out[i] = input[left] * (1 - t) + input[right] * t := by
  have hcapacity : capacity = 2 ^ 61 - 1 := rfl
  have hs : source ≠ 0 := by
    rintro rfl
    rw [resample_zero hne hlength hrates.symm] at h
    cases h
  rw [resample_of_ne hne hrates] at h
  split at h
  · cases h
  · next hroom =>
    rw [Option.some_inj] at h
    have hcount : out.length = resampledLength input.length source target := by simp [← h]
    refine ⟨hs, hcount, by omega, fun i hi => ?_⟩
    have hbound := resampledLength_le target hs (show input.length < 2 ^ 64 by omega)
    -- at rate 0 there are no samples, and so no index
    have ht : target ≠ 0 := by
      rintro rfl
      rw [UInt32.toNat_zero, Nat.mul_zero] at hbound
      omega
    have hsmall : i < 2 ^ 64 := by omega
    have hmean := interpolate_eq hne (by omega) (stands_place hs ht hsmall) (place_nonneg i)
      (place_le_two_pow hs ht hsmall)
    refine ⟨ht, ?_⟩
    simpa [← h] using hmean

/-- What `resample` gives for every signal that a buffer holds and every pair of rates. -/
theorem resample_sound (input : List Float32) (source target : UInt32)
    (hlength : input.length ≤ capacity) :
    (source = target ∨ input = [] → resample input source target = some input) ∧
    (source ≠ target → input ≠ [] →
      (source = 0 → resample input source target = none) ∧
      (source ≠ 0 → input.length * target.toNat ≤ 2 ^ 57 * source.toNat →
        ∃ out, resample input source target = some out) ∧
      ∀ out, resample input source target = some out →
        out.length ≤ 2 * input.length * target.toNat ∧
        ∀ i (hi : i < out.length), ∃ (left right : Fin input.length) (t : Float32),
          Neighbours input (place source target i) left right t ∧
          out[i] = input[left] * (1 - t) + input[right] * t ∧
          0 ≤ t ∧ ((left : ℕ) < input.length - 1 → t ≤ 1) ∧
          (input.length ≤ 2 ^ 53 → out.length ≤ 2 ^ 53 → t ≤ 1)) := by
  have hcapacity : capacity = 2 ^ 61 - 1 := rfl
  constructor
  · rintro (rfl | rfl)
    · simp [resample]
    · simp [resample]
  intro hrates hne
  refine ⟨?_, ?_, ?_⟩
  · rintro rfl
    exact resample_zero hne hlength hrates.symm
  · -- without a rate of zero the only danger is the number of samples
    intro hs hexact
    have hroom := resampledLength_le_capacity hs (by omega) hexact
    rw [resample_of_ne hne hrates, if_neg (by omega)]
    exact ⟨_, rfl⟩
  · intro out hout
    obtain ⟨hs, hcount, hroom, hsamples⟩ := resample_samples hne hlength hrates hout
    have hbound := resampledLength_le target hs (show input.length < 2 ^ 64 by omega)
    -- what is left is the weight between the two neighbours
    refine ⟨hcount.trans_le hbound, fun i hi => ?_⟩
    obtain ⟨ht, left, right, t, hneighbours, hvalue⟩ := hsamples i hi
    have hfits : Fits (place source target i) :=
      (stands_place hs ht (i := i) (by omega)).fits
    have hnonneg : 0 ≤ place source target i := place_nonneg i
    refine ⟨left, right, t, hneighbours, hvalue, hneighbours.weight_nonneg hfits hnonneg, ?_, ?_⟩
    · -- before the last sample the weight is the distance, which is below 1
      intro hbefore
      exact hneighbours.weight_le_one (hneighbours.close_of_lt hfits hnonneg hbefore)
    · -- at the last one it takes an exact position, which needs numbers without rounding
      intro hsmall hfew
      have hend := place_le hs ht hsmall (hcount ▸ hi) (by omega)
      exact hneighbours.weight_le_one (hneighbours.close_of_le hfits hnonneg hsmall hend)

/-- `resample` of a signal of two samples to twice its rate. -/
theorem resample_sound_doubled :
    ([0.5, -0.25] : List Float32).length ≤ capacity ∧
      ∃ out, resample [0.5, -0.25] 24000 48000 = some out ∧
      out.length ≤ 2 * 2 * 48000 ∧ ∀ i (hi : i < out.length), ∃ left right : Fin 2, ∃ t : Float32,
        out[i] = [0.5, -0.25][left] * (1 - t) + [0.5, -0.25][right] * t ∧ 0 ≤ t ∧
          (out.length ≤ 2 ^ 53 → t ≤ 1) := by
  have hlength : ([0.5, -0.25] : List Float32).length ≤ capacity := by decide
  obtain ⟨-, hchanged⟩ := resample_sound _ 24000 48000 hlength
  obtain ⟨-, hexists, hsamples⟩ := hchanged (by decide) (by simp)
  obtain ⟨out, hout⟩ := hexists (by decide) (by decide)
  obtain ⟨hbound, hmeans⟩ := hsamples out hout
  refine ⟨hlength, out, hout, hbound, fun i hi => ?_⟩
  obtain ⟨left, right, t, -, hvalue, hnonneg, -, hone⟩ := hmeans i hi
  exact ⟨left, right, t, hvalue, hnonneg, hone (by decide)⟩

/-- A signal whose rate is said to be 0 has no form at another rate: `resample` gives none. -/
theorem resample_rateless :
    ¬∃ out, resample [0.5] 0 24000 = some out ∧ out.length ≤ 2 * 1 * 24000 + 1 := by
  rw [resample_zero (by simp) (by decide) (by decide)]
  rintro ⟨out, h, -⟩
  cases h

end Utterance.Audio
