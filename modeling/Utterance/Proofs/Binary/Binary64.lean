import Utterance.Proofs.Binary.Integers

/-!
# Binary64 values

Counts and places of samples are binary64 values.  `fit` takes a number to the nearest one that the
format has, and `Stands x q` says that the value `x` is finite and stands for the number `q`.  An
operation on values that stand for numbers stands for the exact result, taken to the format.

## Key results

- `fit_mono`, `Fits.fit_eq`: what is known about rounding
- `Stands.mul`, `Stands.div`, `Stands.sub`: arithmetic
- `stands_toFloat`, `Stands.toUInt64`: integers as values, and the integer part of one
- `Stands.narrow`: the binary32 value nearest to a binary64 value
-/

namespace Utterance.Binary

open Float.Model (Format UnpackedFloat)
open Float.Model.UnpackedFloat

/-! ## Numbers of the format -/

/-- The number `q` taken to the nearest one of the format. -/
def fit (q : ℚ) : ℚ :=
  nearest .binary64 (q * 2 ^ 1074) / 2 ^ 1074

/-- The format has the number `q`: as a count it is on the grid. -/
def Fits (q : ℚ) : Prop :=
  ∃ n : ℤ, Grid .binary64 n ∧ (n : ℚ) = q * 2 ^ 1074

variable {q a b : ℚ}

/-- `fit` keeps the order. -/
theorem fit_mono : Monotone fit := by
  intro a b hab
  have hle : nearest .binary64 (a * 2 ^ 1074) ≤ nearest .binary64 (b * 2 ^ 1074) :=
    nearest_mono (mul_le_mul_of_nonneg_right hab (by positivity))
  exact div_le_div_of_nonneg_right (by exact_mod_cast hle) (by positivity)

/-- `fit` leaves a number alone that the format has. -/
theorem Fits.fit_eq (h : Fits q) : fit q = q := by
  obtain ⟨n, hgrid, hn⟩ := h
  rw [fit, ← hn, nearest_eq_self hgrid, hn, mul_div_cancel_right₀ _ (by positivity)]

/-- `fit` does not pass a number of the format from below. -/
theorem fit_le (hb : Fits b) (h : a ≤ b) : fit a ≤ b :=
  (fit_mono h).trans_eq hb.fit_eq

/-- `fit` does not pass a number of the format from above. -/
theorem le_fit (ha : Fits a) (h : a ≤ b) : a ≤ fit b :=
  ha.fit_eq.symm.trans_le (fit_mono h)

/-- Powers of two up to this one are below the `ceiling`, the count that stands for infinity. -/
theorem two_pow_le_ceiling64 {k : ℕ} (hk : k ≤ 2098) : (2 : ℤ) ^ k ≤ ceiling .binary64 := by
  have h : 2 ^ k ≤ ceiling .binary64 := Nat.pow_le_pow_right (by decide) hk
  exact_mod_cast h

/-- Powers of two below the ceiling are on the `Grid`. -/
theorem grid_two_pow64 {k : ℕ} (hk : k ≤ 2098) : Grid .binary64 (2 ^ k) :=
  grid_two_pow (Nat.pow_le_pow_right (by decide) hk)

/-- A number with few digits `Fits`, in front of a point that is not too far away. -/
theorem fits_mul_two_zpow {m : ℕ} {k : ℤ} (hm : m ≤ 2 ^ 53) (hlow : -1074 ≤ k) (hhigh : k ≤ 971) :
    Fits (m * 2 ^ k) := by
  have hsize : (m : ℤ) ≤ 2 ^ 53 := by exact_mod_cast hm
  -- in units of the smallest exponent; the power of two takes up what is above it
  refine ⟨m * 2 ^ (k + 1074).toNat, ⟨m, (k + 1074).toNat, ?_, rfl, ?_⟩, ?_⟩
  · rwa [Nat.abs_cast]
  · calc |(m : ℤ) * 2 ^ (k + 1074).toNat| = m * 2 ^ (k + 1074).toNat :=
          abs_of_nonneg (by positivity)
      _ ≤ 2 ^ 53 * 2 ^ (k + 1074).toNat := mul_le_mul_of_nonneg_right hsize (by positivity)
      _ = 2 ^ (53 + (k + 1074).toNat) := (pow_add ..).symm
      _ ≤ ceiling .binary64 := two_pow_le_ceiling64 (by omega)
  · have hpow : (2 : ℚ) ^ (k + 1074).toNat = 2 ^ k * 2 ^ 1074 := by
      rw [← zpow_natCast, Int.toNat_of_nonneg (by omega), zpow_add₀ (by norm_num)]
      rfl
    push_cast
    rw [hpow, mul_assoc]

/-- Integers up to `2 ^ 53` are numbers of the format. -/
theorem fits_natCast {m : ℕ} (hm : m ≤ 2 ^ 53) : Fits m := by
  have h := fits_mul_two_zpow (k := 0) hm (by decide) (by decide)
  rwa [zpow_zero, mul_one] at h

/-- Powers of two are numbers of the format: they are among what `Fits`. -/
theorem fits_two_zpow {k : ℤ} (hlow : -1074 ≤ k) (hhigh : k ≤ 971) : Fits (2 ^ k) := by
  have h := fits_mul_two_zpow (m := 1) (by decide) hlow hhigh
  rwa [Nat.cast_one, one_mul] at h

/-- `fit` leaves 0 where it is. -/
theorem fit_zero : fit 0 = 0 := by
  rw [fit, zero_mul, nearest_zero, Int.cast_zero, zero_div]

/-- `fit` does not make a number negative. -/
theorem fit_nonneg (h : 0 ≤ q) : 0 ≤ fit q :=
  fit_zero.symm.trans_le (fit_mono h)

/-- A number lies between two powers of two, of which each `Fits`. -/
theorem exists_two_zpow (hlow : 2 ^ (-256 : ℤ) ≤ q) (hhigh : q ≤ 2 ^ (256 : ℤ)) :
    ∃ k : ℤ, -256 ≤ k ∧ k ≤ 256 ∧ (2 : ℚ) ^ k ≤ q ∧ q < 2 ^ (k + 1) := by
  have hpos : 0 < q := lt_of_lt_of_le (by positivity) hlow
  obtain ⟨k, hle, hlt⟩ := exists_mem_Ico_zpow hpos (one_lt_two : (1 : ℚ) < 2)
  refine ⟨k, ?_, ?_, hle, hlt⟩
  · have h : (-256 : ℤ) < k + 1 := (zpow_lt_zpow_iff_right₀ one_lt_two).mp (hlow.trans_lt hlt)
    omega
  · exact (zpow_le_zpow_iff_right₀ one_lt_two).mp (hle.trans hhigh)

/-- `fit` at most doubles a number, unless it is tiny: it does not pass the next power of two. -/
theorem fit_le_two_mul (hlow : q = 0 ∨ 2 ^ (-256 : ℤ) ≤ q) (hhigh : q ≤ 2 ^ (256 : ℤ)) :
    fit q ≤ 2 * q := by
  obtain rfl | hlow := hlow
  · rw [fit_zero, mul_zero]
  · obtain ⟨k, hklow, hkhigh, hle, hlt⟩ := exists_two_zpow hlow hhigh
    have hfits : Fits (2 ^ (k + 1)) := fits_two_zpow (by omega) (by omega)
    have hdouble : (2 : ℚ) ^ (k + 1) ≤ 2 * q := by
      rw [zpow_add_one₀ (by norm_num), mul_comm]
      linarith
    exact (fit_le hfits hlt.le).trans hdouble

/-- A number of the format that is beyond `2 ^ 53` is an integer. -/
theorem Fits.isInt (h : Fits q) (hq : 2 ^ 53 < q) : (⌊q⌋₊ : ℚ) = q := by
  obtain ⟨n, ⟨m, j, hm, rfl, -⟩, hn⟩ := h
  have hsize : (m : ℚ) ≤ 2 ^ 53 := by exact_mod_cast (le_abs_self m).trans hm
  have hpos : (0 : ℚ) < 2 ^ 1074 := by positivity
  push_cast at hn
  -- the last digit stands before the point
  have hj : 1074 ≤ j := by
    by_contra hlt
    have hpow : (2 : ℚ) ^ j ≤ 2 ^ 1074 := pow_le_pow_right₀ (by norm_num) (by omega)
    have hle : (m : ℚ) * 2 ^ j ≤ 2 ^ 53 * 2 ^ 1074 :=
      mul_le_mul hsize hpow (by positivity) (by positivity)
    rw [hn] at hle
    exact (mul_lt_mul_of_pos_right hq hpos).not_ge hle
  have hint : q = ((m * 2 ^ (j - 1074) : ℤ) : ℚ) := by
    have hsplit : (2 : ℚ) ^ j = 2 ^ (j - 1074) * 2 ^ 1074 := by
      rw [← pow_add, Nat.sub_add_cancel hj]
    rw [hsplit, ← mul_assoc] at hn
    rw [Int.cast_mul, Int.cast_pow, Int.cast_ofNat]
    exact (mul_right_cancel₀ hpos.ne' hn).symm
  have hnonneg : (0 : ℚ) ≤ q := le_trans (by positivity) hq.le
  rw [natCast_floor_eq_intCast_floor hnonneg, hint, Int.floor_intCast]

/-- The integer part of a number that `Fits` does so too. -/
theorem Fits.floor (h : Fits q) (hq : 0 ≤ q) : Fits ⌊q⌋₊ := by
  -- up to there every integer is a number of the format, and beyond it the number is its own
  -- integer part
  rcases le_or_gt q (2 ^ 53) with hle | hgt
  · refine fits_natCast ?_
    have hfloor : (⌊q⌋₊ : ℚ) ≤ 2 ^ 53 := (Nat.floor_le hq).trans hle
    exact_mod_cast hfloor
  · rwa [h.isInt hgt]

/-! ## Values and numbers -/

variable {x y : Float}

/-- The value `x` is finite and stands for the number `q`. -/
structure Stands (x : Float) (q : ℚ) : Prop where
  isFinite : x.toModel.unpack.isFinite = true
  units_eq : (units .binary64 x.toModel.unpack : ℚ) = q * 2 ^ 1074

/-- Every `Float` unpacks to a `Settled` form. -/
theorem settled_unpack64 (x : Float) : Settled .binary64 x.toModel.unpack :=
  settled_unpack _

/-- The number 1 is `2 ^ 1074` times the smallest positive binary64 value. -/
theorem one_binary64 : one .binary64 = 2 ^ 1074 := by
  rw [one, show -Format.binary64.minExponent = ((1074 : ℕ) : ℤ) from rfl, zpow_natCast]

/-- What a value `Stands` for is a number of the format. -/
theorem Stands.fits (h : Stands x q) : Fits q :=
  ⟨_, grid_units (settled_unpack64 x), h.units_eq⟩

/-- The unpacked form of a value that `Stands` for a positive number. -/
theorem Stands.unpack_of_pos (h : Stands x q) (hq : 0 < q) :
    ∃ m e hm, x.toModel.unpack = .finite .positive m e hm := by
  obtain ⟨hfinite, hunits⟩ := h
  have hpos : (0 : ℚ) < units .binary64 x.toModel.unpack := by
    rw [hunits]
    positivity
  -- the count is positive only for a finite value with that sign
  generalize x.toModel.unpack = u at hfinite hpos ⊢
  cases u with
  | notANumber => cases hfinite
  | infinity s => cases hfinite
  | zero s => simp [units] at hpos
  | finite s m e hm =>
    cases s with
    | positive => exact ⟨m, e, hm, rfl⟩
    | negative =>
      have hsize : (0 : ℤ) < m * 2 ^ (e - Format.binary64.minExponent).toNat := by positivity
      rw [Int.cast_pos] at hpos
      simp only [units, Sign.apply] at hpos
      omega

/-- A result that is not too large stands for the exact one, taken to the format by `fit`. -/
theorem stands_of_rounds {u : UnpackedFloat} (h : Rounds .binary64 u (q * 2 ^ 1074))
    (hq : |q| ≤ 2 ^ 256) : Stands (.ofModel (.pack u)) (fit q) := by
  have hunpack : (Float.ofModel (.pack u)).toModel.unpack = settle .binary64 u :=
    unpack_pack h.canonical
  obtain ⟨hnumber, hunits⟩ := h.settle
  have hgrid : Grid .binary64 (2 ^ 1330) := grid_two_pow64 (by decide)
  have hbound : |nearest .binary64 (q * 2 ^ 1074)| ≤ 2 ^ 1330 := by
    refine abs_nearest_le hgrid ?_
    rw [abs_mul, abs_of_pos (by positivity : (0 : ℚ) < 2 ^ 1074), Int.cast_pow, Int.cast_ofNat]
    exact (mul_le_mul_of_nonneg_right hq (by positivity)).trans_eq (pow_add ..).symm
  have hceiling : (2 : ℤ) ^ 1330 < ceiling .binary64 :=
    (pow_lt_pow_right₀ (by norm_num) (by decide)).trans_le
      (two_pow_le_ceiling64 (k := 1331) (by decide))
  constructor
  · rw [hunpack]
    -- what is not finite is no number, or counts as much as the ceiling
    rw [← hunits] at hbound
    cases hu : settle .binary64 u with
    | notANumber => exact absurd hu hnumber
    | infinity s =>
      rw [hu] at hbound
      have habs : |units .binary64 (.infinity s)| = ceiling .binary64 := by
        cases s with
        | positive => exact abs_of_pos (ceiling_pos _)
        | negative => exact (abs_neg _).trans (abs_of_pos (ceiling_pos _))
      omega
    | zero s => rfl
    | finite s m e hm => rfl
  · rw [hunpack, hunits, fit, div_mul_cancel₀ _ (by positivity)]

/-- `x * y` stands for the exact product, taken to the format. -/
theorem Stands.mul (hx : Stands x a) (hy : Stands y b) (hbound : |a * b| ≤ 2 ^ 256) :
    Stands (x * y) (fit (a * b)) := by
  have h := rounds_mul (settled_unpack64 x) (settled_unpack64 y) hx.isFinite hy.isFinite
  have hexact : (units .binary64 x.toModel.unpack : ℚ) * units .binary64 y.toModel.unpack /
      one .binary64 = a * b * 2 ^ 1074 := by
    rw [hx.units_eq, hy.units_eq, one_binary64]
    field_simp
  rw [hexact] at h
  exact stands_of_rounds h hbound

/-- `x / y` stands for the exact quotient, taken to the format. -/
theorem Stands.div (hx : Stands x a) (hy : Stands y b) (hb : b ≠ 0) (hbound : |a / b| ≤ 2 ^ 256) :
    Stands (x / y) (fit (a / b)) := by
  -- the quotient is exact before it is rounded, as long as the divisor is not 0
  have hne : units .binary64 y.toModel.unpack ≠ 0 := by
    intro hzero
    have hunits := hy.units_eq
    rw [hzero, Int.cast_zero, eq_comm, mul_eq_zero] at hunits
    exact hunits.elim hb (by positivity)
  have h := rounds_div (settled_unpack64 x) (settled_unpack64 y) hx.isFinite hy.isFinite hne
  -- the two units cancel, up to the one by which results are scaled
  have hexact : (units .binary64 x.toModel.unpack : ℚ) * one .binary64 /
      units .binary64 y.toModel.unpack = a / b * 2 ^ 1074 := by
    rw [hx.units_eq, hy.units_eq, one_binary64]
    field_simp
  rw [hexact] at h
  exact stands_of_rounds h hbound

/-- `x - y` stands for the exact difference, taken to the format. -/
theorem Stands.sub (hx : Stands x a) (hy : Stands y b) (hbound : |a - b| ≤ 2 ^ 256) :
    Stands (x - y) (fit (a - b)) := by
  have h := rounds_sub (settled_unpack64 x) (settled_unpack64 y) hx.isFinite hy.isFinite
  have hexact : (units .binary64 x.toModel.unpack : ℚ) - units .binary64 y.toModel.unpack =
      (a - b) * 2 ^ 1074 := by
    rw [hx.units_eq, hy.units_eq, sub_mul]
  rw [hexact] at h
  exact stands_of_rounds h hbound

/-! ## Infinite results -/

/-- A positive number divided by the positive zero is `+inf`. -/
theorem unpack_div_zero (hx : Stands x q) (hq : 0 < q) (hy : y.toModel.unpack = .zero .positive) :
    (x / y).toModel.unpack = .infinity .positive := by
  obtain ⟨m, e, hm, hunpack⟩ := hx.unpack_of_pos hq
  have hdiv : UnpackedFloat.div .binary64 x.toModel.unpack y.toModel.unpack =
      .infinity .positive := by
    rw [hunpack, hy]
    rfl
  change (Float.ofModel (.pack (UnpackedFloat.div .binary64 _ _))).toModel.unpack = _
  rw [hdiv]
  exact unpack_pack trivial

/-- A positive number times `+inf` is `+inf`. -/
theorem unpack_mul_infinity (hx : Stands x q) (hq : 0 < q)
    (hy : y.toModel.unpack = .infinity .positive) :
    (x * y).toModel.unpack = .infinity .positive := by
  obtain ⟨m, e, hm, hunpack⟩ := hx.unpack_of_pos hq
  have hmul : UnpackedFloat.mul .binary64 x.toModel.unpack y.toModel.unpack =
      .infinity .positive := by
    rw [hunpack, hy]
    rfl
  change (Float.ofModel (.pack (UnpackedFloat.mul .binary64 _ _))).toModel.unpack = _
  rw [hmul]
  exact unpack_pack trivial

/-! ## Integers -/

/-- A natural number, unpacked by `normalize`, rounds to its place on the grid. -/
theorem rounds_ofNat (n : ℕ) :
    Rounds .binary64 (normalize .binary64 n 0 .positive) (n * 2 ^ 1074) := by
  have h := rounds_normalize (f := .binary64) n 0 .positive
  have hscale : (2 : ℚ) ^ (0 - Format.binary64.minExponent) = 2 ^ 1074 := by
    rw [zero_sub]
    exact one_binary64
  rwa [hscale] at h

/-- A number of items as a value: `toFloat` takes it to the format. -/
theorem stands_toFloat (n : UInt64) : Stands n.toFloat (fit n.toNat) := by
  have hsize : (n.toNat : ℚ) ≤ 2 ^ 64 := by exact_mod_cast n.toNat_lt.le
  refine stands_of_rounds (rounds_ofNat n.toNat) ?_
  rw [Nat.abs_cast]
  exact hsize.trans (pow_le_pow_right₀ (by norm_num) (by decide))

/-- A rate as a value: `toFloat` keeps it, since 32 bits fit in the significand. -/
theorem stands_toFloat_uInt32 (n : UInt32) : Stands n.toFloat n.toNat := by
  have hsize : n.toNat < 2 ^ 32 := n.toNat_lt
  have hfits : Fits (n.toNat : ℚ) := fits_natCast (by omega)
  have hle : (n.toNat : ℚ) ≤ 2 ^ 32 := by exact_mod_cast hsize.le
  have h := stands_of_rounds (rounds_ofNat n.toNat) (by
    rw [Nat.abs_cast]
    exact hle.trans (pow_le_pow_right₀ (by norm_num) (by decide)))
  rwa [hfits.fit_eq] at h

/-- `roundToInt` rounds towards zero, which leaves the integer part. -/
theorem roundToInt_positive (m : ℕ) (e : ℤ) :
    roundToInt .positive m e = ⌊(m * 2 ^ e : ℚ)⌋ := by
  have hvalue := decreaseExponent_value m e 0
  have hexp := decreaseExponent_exponent_le m e 0
  simp only [roundToInt, shiftToExponent, Sign.apply]
  generalize decreaseExponent m e 0 = lowered at hvalue hexp ⊢
  obtain ⟨n, k⟩ := lowered
  -- what is shifted out is the part below the unit, so shifting rounds down
  have hshift := (describes_ofMantissaAndAccuracy (show Describes n .exact n from rfl)).shiftRight
    (0 - k).toNat
  rw [← hshift.floor]
  congr 1
  rw [← hvalue, div_eq_mul_inv, ← zpow_natCast, ← zpow_neg]
  congr 2
  simp only at hexp
  omega

/-- `toUInt64` gives the integer part of a value without a sign, as far as 64 bits hold it. -/
theorem Stands.toUInt64 (h : Stands x q) (hq : 0 ≤ q) :
    x.toUInt64.toNat = min ⌊q⌋₊ (UInt64.size - 1) := by
  have hsettled := settled_unpack64 x
  obtain ⟨hfinite, hunits⟩ := h
  have hexact : q = units .binary64 x.toModel.unpack / one .binary64 := by
    rw [hunits, one_binary64, mul_div_cancel_right₀ _ (by positivity)]
  have hinteger : x.toModel.unpack.toInt 0 (UInt64.size - 1) = ⌊q⌋ := by
    rw [hexact]
    -- a finite value without a sign is positive, and what it stands for has an integer part
    generalize x.toModel.unpack = u at hsettled hfinite hexact ⊢
    cases u with
    | notANumber => cases hfinite
    | infinity s => cases hfinite
    | zero s => simp [UnpackedFloat.toInt, units]
    | finite s m e hm =>
      rw [units_finite_div_one hsettled.1.2.1] at hexact ⊢
      cases s with
      | positive =>
        rw [Sign.apply, Int.cast_one, one_mul]
        exact roundToInt_positive m e
      | negative =>
        have hpos : (0 : ℚ) < m * 2 ^ e := by positivity
        simp only [Sign.apply, Int.cast_neg, Int.cast_one, neg_mul, one_mul] at hexact
        linarith
  change (UInt64.ofNatClamp (x.toModel.unpack.toInt 0 (UInt64.size - 1)).toNat).toNat = _
  rw [hinteger, UInt64.ofNatClamp, show ⌊q⌋.toNat = ⌊q⌋₊ from rfl]
  split
  · next hsmall => exact (min_eq_left (Nat.le_pred_of_lt hsmall)).symm
  · next hlarge =>
    rw [min_eq_right (by omega)]
    rfl

/-! ## Narrowing -/

/-- `narrow` gives the binary32 value nearest to a value. -/
theorem Stands.narrow (h : Stands x q) :
    (narrow x).isNaN = false ∧ count (narrow x) = nearest .binary32 (q * 2 ^ 149) := by
  refine of_rounds ?_
  have hsettled := settled_unpack64 x
  obtain ⟨hfinite, hunits⟩ := h
  have hexact : q = units .binary64 x.toModel.unpack / one .binary64 := by
    rw [hunits, one_binary64, mul_div_cancel_right₀ _ (by positivity)]
  rw [hexact]
  generalize x.toModel.unpack = u at hsettled hfinite ⊢
  cases u with
  | notANumber => cases hfinite
  | infinity s => cases hfinite
  -- a zero keeps its sign, and its count is 0 in either format
  | zero s =>
    have hzero : (units .binary64 (.zero s) : ℚ) / one .binary64 * 2 ^ 149 = 0 := by simp [units]
    rw [hzero]
    exact rounds_zero _ s
  | finite s m e hm =>
    have hscale : (units .binary64 (.finite s m e hm) : ℚ) / one .binary64 * 2 ^ 149 =
        s.apply 1 * (m * 2 ^ (e - Format.binary32.minExponent)) := by
      rw [units_finite_div_one hsettled.1.2.1, show e - Format.binary32.minExponent = e + (149 : ℕ)
        from rfl, zpow_add₀ (by norm_num), zpow_natCast]
      ring
    rw [hscale]
    exact rounds_round s hm e

end Utterance.Binary
