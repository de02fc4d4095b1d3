import Mathlib

/-!
# The grid of a binary format

Every finite value of a format is a whole number of its smallest positive values.  We count in this
unit: `Grid f` holds the counts that the format has a value for, with the first power of two beyond
all of them standing for infinity, and `nearest f` takes an exact count to the grid, ties going to
the even neighbour.

Rounding is used through three facts: `nearest_mono`, `nearest_eq_self` (what is on the grid stays)
and `nearest_neg`.  Bounds on rounded results follow from these by comparing with a grid point.
-/

namespace Utterance.Binary

open Float.Model (Format)

/-! ## Nearest integers -/

/-- The integer nearest to `x`, the even one when two are equally near. -/
def halfEven (x : ℚ) : ℤ :=
  if Int.fract x < 1 / 2 then ⌊x⌋
  else if 1 / 2 < Int.fract x then ⌊x⌋ + 1
  else ⌊x⌋ + ⌊x⌋ % 2

/-- `halfEven` does not go below the integer part. -/
theorem floor_le_halfEven (x : ℚ) : ⌊x⌋ ≤ halfEven x := by
  unfold halfEven
  split_ifs <;> omega

/-- `halfEven` does not go beyond the next integer. -/
theorem halfEven_le_floor_add_one (x : ℚ) : halfEven x ≤ ⌊x⌋ + 1 := by
  unfold halfEven
  split_ifs <;> omega

/-- `halfEven` leaves integers alone. -/
theorem halfEven_intCast (n : ℤ) : halfEven n = n := by
  simp [halfEven]

/-- `halfEven` keeps the order. -/
theorem halfEven_mono : Monotone halfEven := by
  intro x y hxy
  rcases (Int.floor_le_floor hxy).lt_or_eq with hlt | heq
  · -- different integer parts: at worst `x` goes up and `y` goes down
    have hx := halfEven_le_floor_add_one x
    have hy := floor_le_halfEven y
    omega
  · -- equal integer parts: the fractions decide, in the same order
    have hfract : Int.fract x ≤ Int.fract y := by
      simp only [Int.fract, heq]
      linarith
    unfold halfEven
    rw [heq]
    split_ifs <;> first | omega | (exfalso; linarith)

/-! ## The spacing of a format -/

/-- The count that stands for infinity: the first power of two that is too large. -/
def ceiling (f : Format) : ℕ :=
  2 ^ (2 ^ f.exponentBits - 2 + f.mantissaBitsWithoutImplicit)

/-- The binary logarithm of the distance between neighbours on the grid at `x`, which is at
least 0. -/
def spacing (f : Format) (x : ℚ) : ℕ :=
  Nat.log 2 ⌊x⌋₊ + 1 - f.mantissaBits

/-- A count `x ≥ 0` taken to the grid without a limit on its size: `nearest` has the limit. -/
def nearestUnbounded (f : Format) (x : ℚ) : ℤ :=
  halfEven (x / 2 ^ spacing f x) * 2 ^ spacing f x

/-- The exact count `x` taken to the grid of the format `f`. -/
def nearest (f : Format) (x : ℚ) : ℤ :=
  if x < 0 then -min (nearestUnbounded f (-x)) (ceiling f)
  else min (nearestUnbounded f x) (ceiling f)

/-- The counts of the values that the format `f` has, infinities included. -/
def Grid (f : Format) (n : ℤ) : Prop :=
  ∃ (m : ℤ) (j : ℕ), |m| ≤ 2 ^ f.mantissaBits ∧ n = m * 2 ^ j ∧ |n| ≤ ceiling f

variable {f : Format}

/-- A format has at least one digit. -/
theorem one_le_mantissaBits (f : Format) : 1 ≤ f.mantissaBits := by
  simp only [Format.mantissaBits]
  omega

/-- The count that stands for infinity is positive. -/
theorem ceiling_pos (f : Format) : (0 : ℤ) < ceiling f := by
  unfold ceiling
  positivity

/-- The `spacing` grows with the count. -/
theorem spacing_mono {x y : ℚ} (hxy : x ≤ y) : spacing f x ≤ spacing f y := by
  have h : Nat.log 2 ⌊x⌋₊ ≤ Nat.log 2 ⌊y⌋₊ := Nat.log_mono_right (Nat.floor_le_floor hxy)
  unfold spacing
  omega

/-- Beyond the smallest `spacing`, the leading digit fixes the size of a count from below. -/
theorem pow_le_of_spacing_pos {x : ℚ} (h : 0 < spacing f x) :
    (2 : ℚ) ^ (spacing f x + f.mantissaBits - 1) ≤ x := by
  unfold spacing at h ⊢
  -- a count below 1 has the smallest spacing
  have hfloor : ⌊x⌋₊ ≠ 0 := by
    intro h0
    have := one_le_mantissaBits f
    rw [h0, Nat.log_zero_right] at h
    omega
  have hpow : 2 ^ Nat.log 2 ⌊x⌋₊ ≤ ⌊x⌋₊ := Nat.pow_log_le_self 2 hfloor
  have heq : Nat.log 2 ⌊x⌋₊ + 1 - f.mantissaBits + f.mantissaBits - 1 = Nat.log 2 ⌊x⌋₊ := by omega
  rw [heq]
  calc (2 : ℚ) ^ Nat.log 2 ⌊x⌋₊ ≤ (⌊x⌋₊ : ℚ) := by exact_mod_cast hpow
    _ ≤ x := Nat.floor_le (by
      by_contra hneg
      exact hfloor (Nat.floor_of_nonpos (by linarith)))

/-- A count lies below the first power of two with a larger `spacing`. -/
theorem lt_pow_spacing (x : ℚ) : x < 2 ^ (spacing f x + f.mantissaBits) := by
  have hlt : ⌊x⌋₊ < 2 ^ (Nat.log 2 ⌊x⌋₊ + 1) := Nat.lt_pow_succ_log_self (by decide) _
  have hexp : Nat.log 2 ⌊x⌋₊ + 1 ≤ spacing f x + f.mantissaBits := by
    unfold spacing
    omega
  calc x < (⌊x⌋₊ : ℚ) + 1 := Nat.lt_floor_add_one x
    _ ≤ 2 ^ (Nat.log 2 ⌊x⌋₊ + 1) := by exact_mod_cast hlt
    _ ≤ 2 ^ (spacing f x + f.mantissaBits) := pow_le_pow_right₀ (by norm_num) hexp

/-! ## Rounding to the grid -/

/-- `nearestUnbounded` does not make a count negative. -/
theorem nearestUnbounded_nonneg {x : ℚ} (hx : 0 ≤ x) : 0 ≤ nearestUnbounded f x := by
  have h : ((0 : ℤ) : ℚ) ≤ x / 2 ^ spacing f x := by
    rw [Int.cast_zero]
    positivity
  have hround := halfEven_mono h
  rw [halfEven_intCast] at hround
  exact mul_nonneg hround (by positivity)

/-- `nearestUnbounded` does not pass the power of two above a count. -/
theorem nearestUnbounded_le_pow (x : ℚ) :
    nearestUnbounded f x ≤ 2 ^ (spacing f x + f.mantissaBits) := by
  -- in multiples of the spacing, that power of two is a whole number
  have h : x / 2 ^ spacing f x ≤ ((2 ^ f.mantissaBits : ℤ) : ℚ) := by
    rw [div_le_iff₀ (by positivity)]
    push_cast
    rw [← pow_add, Nat.add_comm]
    exact (lt_pow_spacing x).le
  have hround := halfEven_mono h
  rw [halfEven_intCast] at hround
  calc nearestUnbounded f x ≤ 2 ^ f.mantissaBits * 2 ^ spacing f x :=
        mul_le_mul_of_nonneg_right hround (by positivity)
    _ = 2 ^ (spacing f x + f.mantissaBits) := by rw [← pow_add, Nat.add_comm]

/-- `nearestUnbounded` does not pass the power of two under a count. -/
theorem pow_le_nearestUnbounded {x : ℚ} (h : 0 < spacing f x) :
    2 ^ (spacing f x + f.mantissaBits - 1) ≤ nearestUnbounded f x := by
  have hp := one_le_mantissaBits f
  have hexp : spacing f x + f.mantissaBits - 1 = f.mantissaBits - 1 + spacing f x := by omega
  -- the significand of a number with this spacing has all its digits
  have hle : ((2 ^ (f.mantissaBits - 1) : ℤ) : ℚ) ≤ x / 2 ^ spacing f x := by
    rw [le_div_iff₀ (by positivity)]
    push_cast
    rw [← pow_add, ← hexp]
    exact pow_le_of_spacing_pos h
  -- rounding keeps the order, and the bound is a whole number
  have hround := halfEven_mono hle
  rw [halfEven_intCast] at hround
  rw [hexp, pow_add]
  exact mul_le_mul_of_nonneg_right hround (by positivity)

/-- `nearestUnbounded` keeps the order: the power of two between two spacings separates them. -/
theorem nearestUnbounded_mono {x y : ℚ} (hxy : x ≤ y) :
    nearestUnbounded f x ≤ nearestUnbounded f y := by
  rcases (spacing_mono (f := f) hxy).lt_or_eq with hlt | heq
  · -- the counts lie on different sides of a power of two that is on the grid
    have hexp : spacing f x + f.mantissaBits ≤ spacing f y + f.mantissaBits - 1 := by omega
    calc nearestUnbounded f x ≤ 2 ^ (spacing f x + f.mantissaBits) := nearestUnbounded_le_pow x
      _ ≤ 2 ^ (spacing f y + f.mantissaBits - 1) := pow_le_pow_right₀ (by norm_num) hexp
      _ ≤ nearestUnbounded f y := pow_le_nearestUnbounded (by omega)
  · -- with the same spacing, it is the order of the multiples
    unfold nearestUnbounded
    rw [heq]
    refine mul_le_mul_of_nonneg_right (halfEven_mono ?_) (by positivity)
    exact div_le_div_of_nonneg_right hxy (by positivity)

/-- `nearest` of a count without a sign has no case distinction. -/
theorem nearest_of_nonneg {x : ℚ} (hx : 0 ≤ x) :
    nearest f x = min (nearestUnbounded f x) (ceiling f) := by
  rw [nearest, if_neg (not_lt.mpr hx)]

/-- `nearest` does not make a count negative. -/
theorem nearest_nonneg {x : ℚ} (hx : 0 ≤ x) : 0 ≤ nearest f x := by
  rw [nearest_of_nonneg hx]
  exact le_min (nearestUnbounded_nonneg hx) (ceiling_pos f).le

/-- `nearest` leaves 0 where it is. -/
@[simp] theorem nearest_zero : nearest f 0 = 0 := by
  have h : nearestUnbounded f 0 = 0 := by
    have := halfEven_intCast 0
    simp only [Int.cast_zero] at this
    simp [nearestUnbounded, this]
  rw [nearest_of_nonneg le_rfl, h]
  exact min_eq_left (ceiling_pos f).le

/-- `nearest` is odd. -/
theorem nearest_neg (x : ℚ) : nearest f (-x) = -nearest f x := by
  rcases lt_trichotomy x 0 with hx | rfl | hx
  · rw [nearest, if_neg (by linarith), nearest, if_pos hx, neg_neg]
  · simp
  · rw [nearest, if_pos (by linarith), neg_neg, nearest_of_nonneg hx.le]

/-- `nearest` does not make a count positive. -/
theorem nearest_nonpos {x : ℚ} (hx : x ≤ 0) : nearest f x ≤ 0 := by
  have h := nearest_nonneg (f := f) (neg_nonneg.mpr hx)
  rw [nearest_neg] at h
  omega

/-- `nearest` keeps the order. -/
theorem nearest_mono : Monotone (nearest f) := by
  -- on one side of zero this is the unbounded statement; the signs settle the rest
  have hpos : ∀ {x y : ℚ}, 0 ≤ x → x ≤ y → nearest f x ≤ nearest f y := by
    intro x y hx hxy
    rw [nearest_of_nonneg hx, nearest_of_nonneg (hx.trans hxy)]
    exact min_le_min_right _ (nearestUnbounded_mono hxy)
  intro x y hxy
  rcases le_total 0 x with hx | hx
  · exact hpos hx hxy
  rcases le_total 0 y with hy | hy
  · exact (nearest_nonpos hx).trans (nearest_nonneg hy)
  · have h := hpos (neg_nonneg.mpr hy) (neg_le_neg hxy)
    rw [nearest_neg, nearest_neg] at h
    omega

/-! ## Points of the grid -/

/-- The `Grid` is symmetric. -/
theorem Grid.neg {n : ℤ} (h : Grid f n) : Grid f (-n) := by
  obtain ⟨m, j, hm, rfl, hn⟩ := h
  exact ⟨-m, j, by rwa [abs_neg], by ring, by rwa [abs_neg]⟩

/-- The `spacing` at a grid point divides it. -/
theorem Grid.spacing_dvd {n : ℤ} (h : Grid f n) (hn : 0 ≤ n) : 2 ^ spacing f n ∣ n := by
  obtain ⟨m, j, hm, rfl, -⟩ := h
  have hp := one_le_mantissaBits f
  by_cases hj : spacing f (m * 2 ^ j : ℤ) ≤ j
  · exact Dvd.dvd.mul_left (pow_dvd_pow 2 hj) m
  · -- the count is at least the power of two for its spacing, so `m` takes its largest value
    have hm0 : 0 ≤ m := nonneg_of_mul_nonneg_left hn (by positivity)
    rw [abs_of_nonneg hm0] at hm
    have hlow := pow_le_of_spacing_pos (f := f) (x := ((m * 2 ^ j : ℤ) : ℚ)) (by omega)
    have hlow' : (2 : ℤ) ^ (spacing f (m * 2 ^ j : ℤ) + f.mantissaBits - 1) ≤ m * 2 ^ j := by
      exact_mod_cast hlow
    have hhigh : m * 2 ^ j ≤ 2 ^ (f.mantissaBits + j) := by
      rw [pow_add]
      exact mul_le_mul_of_nonneg_right hm (by positivity)
    have hexp : spacing f (m * 2 ^ j : ℤ) + f.mantissaBits - 1 ≤ f.mantissaBits + j :=
      (pow_le_pow_iff_right₀ (by norm_num : (1 : ℤ) < 2)).mp (hlow'.trans hhigh)
    have hsize : m * 2 ^ j = 2 ^ (f.mantissaBits + j) := by
      refine le_antisymm hhigh (le_trans (pow_le_pow_right₀ (by norm_num) ?_) hlow')
      omega
    exact (pow_dvd_pow 2 (by omega)).trans (dvd_of_eq hsize.symm)

/-- `nearest` leaves alone what is on the grid. -/
theorem nearest_eq_self {n : ℤ} (h : Grid f n) : nearest f n = n := by
  -- a count without a sign is a whole multiple of its spacing
  have hpos : ∀ {n : ℤ}, Grid f n → 0 ≤ n → nearest f n = n := by
    intro n h hn
    have hceil : n ≤ ceiling f := by
      obtain ⟨_, _, _, _, hle⟩ := h
      exact (le_abs_self n).trans hle
    obtain ⟨k, hk⟩ := h.spacing_dvd hn
    have hdiv : (n : ℚ) / 2 ^ spacing f n = (k : ℚ) := by
      rw [div_eq_iff (by positivity)]
      conv_lhs => rw [hk]
      push_cast
      ring
    rw [nearest_of_nonneg (by exact_mod_cast hn), nearestUnbounded, hdiv, halfEven_intCast,
      mul_comm k, ← hk]
    exact min_eq_left hceil
  rcases le_total 0 n with hn | hn
  · exact hpos h hn
  · have := hpos h.neg (by omega)
    push_cast at this
    rw [nearest_neg] at this
    omega

/-- `nearest` does not pass a grid point from below. -/
theorem nearest_le {x : ℚ} {n : ℤ} (hn : Grid f n) (h : x ≤ n) : nearest f x ≤ n :=
  (nearest_mono h).trans_eq (nearest_eq_self hn)

/-- `nearest` does not pass a grid point from above. -/
theorem le_nearest {x : ℚ} {n : ℤ} (hn : Grid f n) (h : (n : ℚ) ≤ x) : n ≤ nearest f x :=
  (nearest_eq_self hn).symm.trans_le (nearest_mono h)

/-- `nearest` does not pass a grid point on its way from zero. -/
theorem abs_nearest_le {x : ℚ} {n : ℤ} (hn : Grid f n) (h : |x| ≤ n) : |nearest f x| ≤ n := by
  obtain ⟨hlow, hhigh⟩ := abs_le.mp h
  refine abs_le.mpr ⟨le_nearest hn.neg ?_, nearest_le hn hhigh⟩
  rwa [Int.cast_neg]

/-- The powers of two up to `ceiling` are on the grid. -/
theorem grid_two_pow {j : ℕ} (h : 2 ^ j ≤ ceiling f) : Grid f (2 ^ j) := by
  refine ⟨1, j, ?_, (one_mul _).symm, ?_⟩
  · rw [abs_one]
    exact one_le_pow₀ (by norm_num)
  · rw [abs_of_nonneg (by positivity)]
    exact_mod_cast h

end Utterance.Binary
