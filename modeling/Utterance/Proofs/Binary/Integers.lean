import Mathlib.Data.Rat.Floor
import Utterance.Proofs.Binary.Arithmetic

/-!
# Binary32 values and integers

A finite value is a rational number.  Integers that are not too large are among these numbers, and
every one of them has a nearest integer.

## Key results

- `nearest_eq_halfEven`: the grid between a power of two and the next
- `abs_nearest_sub_le`: how far a number is from its place on the grid
- `nearestInt_unpack`: the nearest integer, halves going away from zero
- `isInteger_ofInt`: integers are taken over as they are
-/

namespace Utterance.Binary

open Float.Model (Format UnpackedFloat)
open Float.Model.UnpackedFloat

/-! ## The error of rounding -/

variable {f : Format}

/-- `halfEven` moves a number by at most one half. -/
theorem abs_halfEven_sub_le (x : ℚ) : |halfEven x - x| ≤ 1 / 2 := by
  have hparts : (⌊x⌋ : ℚ) + Int.fract x = x := Int.floor_add_fract x
  have hlow := Int.fract_nonneg x
  have hhigh := Int.fract_lt_one x
  rw [abs_le]
  -- down, up or in the middle
  unfold halfEven
  split_ifs with hdown hup
  · constructor <;> linarith
  · push_cast
    constructor <;> linarith
  · -- in the middle, either way is as far
    obtain heven | hodd := Int.emod_two_eq_zero_or_one ⌊x⌋
    · rw [heven]
      push_cast
      constructor <;> linarith
    · rw [hodd]
      push_cast
      constructor <;> linarith

/-- What is within half a step of an integer goes there by `halfEven`, if not to an even
neighbour. -/
theorem halfEven_eq {m : ℤ} {x : ℚ} (hlow : m - 1 / 2 ≤ x) (hhigh : x ≤ m + 1 / 2)
    (hodd : m % 2 = 1 → m - 1 / 2 < x ∧ x < m + 1 / 2) : halfEven x = m := by
  -- below `m` the integer part is `m - 1`, from `m` on it is `m`
  rcases lt_or_ge x m with hbelow | habove
  · have hfloor : ⌊x⌋ = m - 1 := by
      rw [Int.floor_eq_iff]
      push_cast
      constructor <;> linarith
    have hfract : Int.fract x = x - m + 1 := by
      rw [Int.fract, hfloor]
      push_cast
      ring
    rw [halfEven, hfloor, hfract]
    split_ifs with hdown hup
    · linarith
    · omega
    · -- half a step below, which only an even number may be
      have heven : m % 2 ≠ 1 := fun h => hup (by linarith [(hodd h).1])
      omega
  · have hfloor : ⌊x⌋ = m := by
      rw [Int.floor_eq_iff]
      constructor <;> linarith
    have hfract : Int.fract x = x - m := by
      rw [Int.fract, hfloor]
    rw [halfEven, hfloor, hfract]
    split_ifs with hdown hup
    · rfl
    · linarith
    · have heven : m % 2 ≠ 1 := fun h => hdown (by linarith [(hodd h).2])
      omega

/-- Up to half a step below an even number, `halfEven` goes up to it. -/
theorem halfEven_even_sub {m : ℤ} {t : ℚ} (hm : m % 2 = 0) (h0 : 0 < t) (hhalf : t ≤ 1 / 2) :
    halfEven (m - t) = m :=
  halfEven_eq (by linarith) (by linarith) (by omega)

/-- Further below, `halfEven` does not go up to it. -/
theorem halfEven_sub_lt {m : ℤ} {t : ℚ} (hhalf : 1 / 2 < t) : halfEven (m - t) < m := by
  have hround := (abs_le.mp (abs_halfEven_sub_le (m - t))).2
  have hlt : (halfEven (m - t) : ℚ) < m := by linarith
  exact_mod_cast hlt

/-- Below a power of two the `spacing` is limited. -/
theorem spacing_le {x : ℚ} {k : ℕ} (hx : x < 2 ^ (k + f.mantissaBits)) : spacing f x ≤ k := by
  by_contra hlt
  have hlow := pow_le_of_spacing_pos (f := f) (x := x) (by omega)
  have hpow : (2 : ℚ) ^ (k + f.mantissaBits) ≤ 2 ^ (spacing f x + f.mantissaBits - 1) :=
    pow_le_pow_right₀ (by norm_num) (by omega)
  linarith

/-- Between a power of two and the next there is one `spacing`. -/
theorem spacing_eq {x : ℚ} {k : ℕ} (hlow : 2 ^ (k + f.mantissaBits - 1) ≤ x)
    (hhigh : x < 2 ^ (k + f.mantissaBits)) : spacing f x = k := by
  refine le_antisymm (spacing_le hhigh) ?_
  by_contra hlt
  have hbelow := lt_pow_spacing (f := f) x
  have hpow : (2 : ℚ) ^ (spacing f x + f.mantissaBits) ≤ 2 ^ (k + f.mantissaBits - 1) :=
    pow_le_pow_right₀ (by norm_num) (by omega)
  linarith

/-- There `nearest` takes a count to the multiples of the spacing. -/
theorem nearest_eq_halfEven {x : ℚ} {k : ℕ} (hlow : 2 ^ (k + f.mantissaBits - 1) ≤ x)
    (hhigh : x < 2 ^ (k + f.mantissaBits)) (hceil : 2 ^ (k + f.mantissaBits) ≤ ceiling f) :
    nearest f x = halfEven (x / 2 ^ k) * 2 ^ k := by
  have hspacing := spacing_eq hlow hhigh
  have hpow := nearestUnbounded_le_pow (f := f) x
  rw [hspacing] at hpow
  have hbound : nearestUnbounded f x ≤ ceiling f := hpow.trans (by exact_mod_cast hceil)
  rw [nearest_of_nonneg (le_trans (by positivity) hlow), min_eq_left hbound, nearestUnbounded,
    hspacing]

/-- `nearest` moves a number that is not too large by at most half the distance between its
neighbours. -/
theorem abs_nearest_sub_le {x : ℚ} {k : ℕ} (hx : |x| < 2 ^ (k + f.mantissaBits))
    (hceil : 2 ^ (k + f.mantissaBits) ≤ ceiling f) : |nearest f x - x| ≤ 2 ^ k / 2 := by
  -- by symmetry the number has no sign
  wlog h0 : 0 ≤ x generalizing x
  · have h := this (x := -x) (by rwa [abs_neg]) (by linarith)
    rw [nearest_neg] at h
    push_cast at h
    rwa [neg_sub_neg, abs_sub_comm] at h
  rw [abs_of_nonneg h0] at hx
  have hspacing : spacing f x ≤ k := spacing_le hx
  have hround : |(nearestUnbounded f x : ℚ) - x| ≤ 2 ^ k / 2 := by
    have hhalf := abs_halfEven_sub_le (x / 2 ^ spacing f x)
    have hpow : (2 : ℚ) ^ spacing f x ≤ 2 ^ k := pow_le_pow_right₀ (by norm_num) hspacing
    have hpos : (0 : ℚ) < 2 ^ spacing f x := by positivity
    have heq : (nearestUnbounded f x : ℚ) - x =
        (halfEven (x / 2 ^ spacing f x) - x / 2 ^ spacing f x) * 2 ^ spacing f x := by
      rw [nearestUnbounded, sub_mul, div_mul_cancel₀ _ hpos.ne']
      push_cast
      rfl
    rw [heq, abs_mul, abs_of_pos hpos]
    nlinarith
  -- the limit of the format does not apply
  have hbound : nearestUnbounded f x ≤ ceiling f := by
    have hpow : nearestUnbounded f x ≤ 2 ^ (spacing f x + f.mantissaBits) :=
      nearestUnbounded_le_pow x
    have hle : (2 : ℤ) ^ (spacing f x + f.mantissaBits) ≤ 2 ^ (k + f.mantissaBits) :=
      pow_le_pow_right₀ (by norm_num) (by omega)
    have hceil : ((2 : ℤ) ^ (k + f.mantissaBits)) ≤ ceiling f := by exact_mod_cast hceil
    exact hpow.trans (hle.trans hceil)
  rwa [nearest_of_nonneg h0, min_eq_left hbound]

/-! ## Values as rational numbers -/

variable {x y : Float32}

/-- The number that the finite value `x` stands for. -/
def value (x : Float32) : ℚ :=
  count x / 2 ^ 149

/-- The `count` of a value in terms of its number. -/
theorem count_eq_value (x : Float32) : (count x : ℚ) = value x * 2 ^ 149 := by
  rw [value, div_mul_cancel₀ _ (by positivity)]

/-- A bound on the `count` is one on the `value`. -/
theorem abs_value_le {n : ℤ} (h : |count x| ≤ n * 2 ^ 149) : |value x| ≤ n := by
  have hcount : (|count x| : ℚ) ≤ n * 2 ^ 149 := by exact_mod_cast h
  rwa [value, abs_div, abs_of_pos (by positivity : (0 : ℚ) < 2 ^ 149), div_le_iff₀ (by positivity)]

/-- Powers of two up to this one are below the `ceiling`, the count that stands for infinity. -/
theorem two_pow_le_ceiling {k : ℕ} (hk : k ≤ 277) : (2 : ℤ) ^ k ≤ ceiling .binary32 := by
  have h : 2 ^ k ≤ ceiling .binary32 := Nat.pow_le_pow_right (by decide) hk
  exact_mod_cast h

/-- What has a `value` that is not too large is finite. -/
theorem isFinite_of_abs_value_le (hnan : x.isNaN = false) (h : |value x| ≤ 2 ^ 24) :
    x.isFinite = true := by
  -- such a value is far below the limit, in counts as well
  have hcount : |count x| < 2 ^ 277 := by
    have hrat : |(count x : ℚ)| ≤ 2 ^ 24 * 2 ^ 149 := by
      rw [count_eq_value, abs_mul, abs_of_pos (by positivity : (0 : ℚ) < 2 ^ 149)]
      exact mul_le_mul_of_nonneg_right h (by positivity)
    have hint : |count x| ≤ 2 ^ (24 + 149) := by
      rw [pow_add]
      exact_mod_cast hrat
    exact hint.trans_lt (pow_lt_pow_right₀ (by norm_num) (by decide))
  have hlimit : (2 : ℤ) ^ 277 ≤ limit := two_pow_le_ceiling le_rfl
  exact isFinite_iff.mpr ⟨hnan, abs_lt.mp (hcount.trans_le hlimit)⟩

/-- The integer nearest to `q`, halves going away from zero. -/
def roundAway (q : ℚ) : ℤ :=
  if q < 0 then -⌊-q + 1 / 2⌋ else ⌊q + 1 / 2⌋

/-- `roundAway` moves a number by at most one half. -/
theorem abs_roundAway_sub_le (q : ℚ) : |roundAway q - q| ≤ 1 / 2 := by
  rw [abs_le]
  -- rounding down after half a step is added, on the side of the sign
  unfold roundAway
  split_ifs
  · have hlow := Int.floor_le (-q + 1 / 2)
    have hhigh := Int.lt_floor_add_one (-q + 1 / 2)
    push_cast
    constructor <;> linarith
  · have hlow := Int.floor_le (q + 1 / 2)
    have hhigh := Int.lt_floor_add_one (q + 1 / 2)
    constructor <;> linarith

/-- `roundAway` is odd. -/
theorem roundAway_neg (q : ℚ) : roundAway (-q) = -roundAway q := by
  rcases lt_trichotomy q 0 with hq | rfl | hq
  · rw [roundAway, if_neg (by linarith), roundAway, if_pos hq, neg_neg]
  · norm_num [roundAway]
  · rw [roundAway, if_pos (by linarith), roundAway, if_neg (by linarith), neg_neg]

/-- The integer that `roundAway` finds for a number at most half below it, or less above it. -/
theorem roundAway_eq {q : ℚ} {n : ℤ} (h0 : 0 ≤ q) (hlow : n - 1 / 2 ≤ q) (hhigh : q < n + 1 / 2) :
    roundAway q = n := by
  rw [roundAway, if_neg h0.not_gt, Int.floor_eq_iff]
  constructor <;> linarith

/-- `roundAway` does not pass an integer. -/
theorem abs_roundAway_le {q : ℚ} {n : ℤ} (h : |q| ≤ n) : |roundAway q| ≤ n := by
  obtain ⟨hlow, hhigh⟩ := abs_le.mp (abs_roundAway_sub_le q)
  obtain ⟨hlow', hhigh'⟩ := abs_le.mp h
  have hle : (roundAway q : ℚ) < ((n + 1 : ℤ) : ℚ) := by push_cast; linarith
  have hge : ((-(n + 1) : ℤ) : ℚ) < (roundAway q : ℚ) := by push_cast; linarith
  rw [Int.cast_lt] at hle hge
  rw [abs_le]
  omega

/-- `roundHalfUp` computes with whole numbers what `roundAway` says of a number without a sign. -/
theorem roundHalfUp_eq (m : ℕ) (e : ℤ) : (roundHalfUp m e : ℤ) = ⌊(m * 2 ^ e + 1 / 2 : ℚ)⌋ := by
  have hzpow : (2 : ℚ) ^ e = 2 ^ e.toNat / 2 ^ (-e).toNat := by
    rw [← zpow_natCast, ← zpow_natCast, ← zpow_sub₀ (by norm_num)]
    congr 1
    omega
  have hpos : (0 : ℚ) < 2 ^ (-e).toNat := by positivity
  -- both sides of the point, as one quotient of whole numbers
  have hquot : (m * 2 ^ e + 1 / 2 : ℚ) =
      ((2 * m * 2 ^ e.toNat + 2 ^ (-e).toNat : ℕ) : ℚ) / ((2 * 2 ^ (-e).toNat : ℕ) : ℚ) := by
    rw [hzpow]
    push_cast
    field_simp
  rw [hquot, Rat.floor_natCast_div_natCast, roundHalfUp, Int.natCast_div]
  simp only [Nat.shiftLeft_eq, one_mul, mul_assoc]

/-- The number that a `finite` unpacked value stands for. -/
theorem units_finite_div_one {s : Sign} {m : ℕ} {e : ℤ} {hm : 0 < m} (he : f.minExponent ≤ e) :
    (units f (.finite s m e hm) : ℚ) / one f = s.apply 1 * (m * 2 ^ e) := by
  have hscale : (2 : ℚ) ^ (e - f.minExponent) = 2 ^ e * one f := by
    rw [one, ← zpow_add₀ (by norm_num), sub_eq_add_neg]
  rw [units_finite he, hscale, ← mul_assoc, ← mul_assoc, mul_div_cancel_right₀ _ (one_pos f).ne',
    mul_assoc]

/-- `nearestInt` of a settled finite value is the integer nearest to its number. -/
theorem nearestInt_of_settled {u : UnpackedFloat} (hu : Settled f u) (hfinite : u.isFinite = true) :
    nearestInt u = some (roundAway (units f u / one f)) := by
  cases u with
  | notANumber => cases hfinite
  | infinity s => cases hfinite
  | zero s => norm_num [nearestInt, units, roundAway]
  | finite s m e hm =>
    have hpos : (0 : ℚ) < m * 2 ^ e := by positivity
    -- the model rounds the magnitude and puts the sign on afterwards
    rw [units_finite_div_one hu.1.2.1, nearestInt, Option.some_inj]
    cases s with
    | positive =>
      rw [Sign.apply, Sign.apply, roundHalfUp_eq, roundAway, Int.cast_one, one_mul,
        if_neg hpos.not_gt]
    | negative =>
      rw [Sign.apply, Sign.apply, roundHalfUp_eq, roundAway, Int.cast_neg, Int.cast_one,
        neg_one_mul, neg_neg, if_pos (neg_lt_zero.mpr hpos)]

/-- `nearestInt` of a binary32 value is the integer nearest to its `value`. -/
theorem nearestInt_unpack (hx : x.isFinite = true) :
    nearestInt x.toModel.unpack = some (roundAway (value x)) := by
  rw [nearestInt_of_settled (settled_unpack32 x) hx, one_binary32]
  rfl

/-! ## Integers as values -/

/-- Counts with few digits are on the `Grid`. -/
theorem grid_mul_two_pow {n : ℤ} {j : ℕ} (hn : |n| ≤ 2 ^ 24) (hj : j ≤ 253) :
    Grid .binary32 (n * 2 ^ j) := by
  refine ⟨n, j, hn, rfl, ?_⟩
  calc |n * 2 ^ j| = |n| * 2 ^ j := by rw [abs_mul, abs_of_pos (by positivity : (0 : ℤ) < 2 ^ j)]
    _ ≤ 2 ^ 24 * 2 ^ j := mul_le_mul_of_nonneg_right hn (by positivity)
    _ = 2 ^ (24 + j) := (pow_add ..).symm
    _ ≤ ceiling .binary32 := two_pow_le_ceiling (by omega)

/-- The value `x` stands for the integer `n`. -/
structure IsInteger (x : Float32) (n : ℤ) : Prop where
  isNumber : x.isNaN = false
  count : count x = n * 2 ^ 149

/-- The `value` of what stands for an integer. -/
theorem IsInteger.value_eq {n : ℤ} (h : IsInteger x n) : value x = n := by
  rw [value, h.count, Int.cast_mul, Int.cast_pow, Int.cast_ofNat,
    mul_div_cancel_right₀ _ (by positivity)]

/-- What `IsInteger` of few digits is finite. -/
theorem IsInteger.isFinite {n : ℤ} (h : IsInteger x n) (hn : |n| ≤ 2 ^ 24) :
    x.isFinite = true := by
  refine isFinite_of_abs_value_le h.isNumber ?_
  rw [h.value_eq]
  exact_mod_cast hn

/-- `toFloat32` of a word with few digits stands for it. -/
theorem isInteger_toFloat32 {n : UInt64} (hn : n.toNat ≤ 2 ^ 24) :
    IsInteger n.toFloat32 n.toNat := by
  obtain ⟨hnan, hcount⟩ := toFloat32_of_uInt64 n
  refine ⟨hnan, ?_⟩
  have hgrid := grid_mul_two_pow (n := n.toNat) (j := 149) (by rw [Nat.abs_cast]; exact_mod_cast hn)
    (by decide)
  rw [hcount, ← nearest_eq_self hgrid, one_binary32]
  push_cast
  rfl

/-- A literal with few digits is the value of the integer: `ofNat` rounds nothing. -/
theorem isInteger_ofNat {n : ℕ} (hn : n < 2 ^ 23) : IsInteger (.ofNat n) n := by
  -- small numbers go through a word, and are multiplied by 1
  have hword : n.toUInt64.toNat = n := by
    rw [UInt64.toNat_ofNat']
    omega
  have hmul : Float32.ofNat n = n.toUInt64.toFloat32 * 1 := by
    change Float32.ofScientific n false 0 = _
    rw [Float32.ofScientific, dif_pos ⟨hn, by decide⟩]
    rfl
  have hword' := isInteger_toFloat32 (n := n.toUInt64) (by omega)
  have hfinite : n.toUInt64.toFloat32.isFinite = true :=
    hword'.isFinite (by rw [hword, Nat.abs_cast]; norm_cast; omega)
  obtain ⟨hnan, hcount⟩ := mul_of_isFinite hfinite isFinite_one
  rw [hmul]
  refine ⟨hnan, ?_⟩
  rw [hcount, count_one, one_binary32, Int.cast_pow, Int.cast_ofNat,
    mul_div_cancel_right₀ _ (by positivity), nearest_eq_self (grid_count _), hword'.count, hword]

/-- `neg` flips the sign of the unpacked form and nothing else. -/
theorem unpack_neg (x : Float32) : x.neg.toModel.unpack = x.toModel.unpack.neg := by
  have hsettled := settled_unpack32 x
  change (Float32.ofModel (.pack x.toModel.unpack.neg)).toModel.unpack = _
  -- negation changes the sign bit, so only a settled value can tell
  generalize x.toModel.unpack = u at *
  obtain ⟨hcanonical, hsettle⟩ := hsettled
  cases u with
  | notANumber => rfl
  | infinity s => cases s <;> rfl
  | zero s => cases s <;> rfl
  | finite s m e hm =>
    -- a value that would be packed as infinity is not settled
    rw [settle] at hsettle
    split at hsettle
    · cases hsettle
    · next he =>
      rw [UnpackedFloat.neg, unpack_ofModel_pack (u := .finite (-s) m e hm) hcanonical, settle,
        if_neg he]

/-- `neg` of what stands for an integer stands for the negative one. -/
theorem isInteger_neg {n : ℤ} (h : IsInteger x n) : IsInteger x.neg (-n) := by
  obtain ⟨hnan, hcount⟩ := h
  rw [isNaN_eq_false_iff] at hnan
  rw [count] at hcount
  constructor
  · -- the count changes its sign with the value
    rw [isNaN_eq_false_iff, unpack_neg]
    cases hu : x.toModel.unpack <;> simp_all [UnpackedFloat.neg]
  · rw [count, unpack_neg, neg_mul, ← hcount]
    cases x.toModel.unpack with
    | notANumber => rfl
    | zero s => rfl
    | infinity s => cases s <;> simp [UnpackedFloat.neg, units, Sign.apply]
    | finite s m e hm => cases s <;> simp [UnpackedFloat.neg, units, Sign.apply]

/-- `ofInt` takes integers with few digits over as they are. -/
theorem isInteger_ofInt {n : ℤ} (hn : |n| < 2 ^ 23) : IsInteger (.ofInt n) n := by
  cases n with
  | ofNat n => exact isInteger_ofNat (by simpa using hn)
  | negSucc n =>
    refine isInteger_neg (isInteger_ofNat ?_)
    rw [Int.negSucc_eq, abs_neg, abs_of_pos (by omega)] at hn
    omega

end Utterance.Binary
