import Utterance.Proofs.Binary.Packing

/-!
# Arithmetic on unpacked values

Each operation on finite values is the exact one, taken to the grid: `rounds_add`, `rounds_sub`,
`rounds_mul` and `rounds_div`.  In counts of smallest positive values a product and a quotient carry
the count of 1 (`one`) as a factor.
-/

namespace Utterance.Binary

open Float.Model (Format UnpackedFloat totalExponent)
open Float.Model.UnpackedFloat

variable {f : Format}

/-- The value `u` is the exact count `x` taken to the grid, before what is too large becomes an
infinity. -/
structure Rounds (f : Format) (u : UnpackedFloat) (x : ℚ) : Prop where
  canonical : Canonical f u
  isNumber : u ≠ .notANumber
  units_eq : saturate f (units f u) = nearest f x

/-- A zero of either sign `Rounds` to itself. -/
theorem rounds_zero (f : Format) (s : Sign) : Rounds f (.zero s) 0 where
  canonical := trivial
  isNumber := nofun
  units_eq := by
    have hc := ceiling_pos f
    rw [nearest_zero, units, saturate]
    omega

/-- The `units` of a `finite` value as a rational number. -/
theorem units_finite {s : Sign} {m : ℕ} {e : ℤ} {hm : 0 < m} (he : f.minExponent ≤ e) :
    (units f (.finite s m e hm) : ℚ) = s.apply 1 * (m * 2 ^ (e - f.minExponent)) := by
  have hcast : (2 : ℚ) ^ (e - f.minExponent) = 2 ^ (e - f.minExponent).toNat := by
    rw [← zpow_natCast, Int.toNat_of_nonneg (by omega)]
  rw [hcast]
  cases s <;> simp [units, Sign.apply]

section Proper

variable [Proper f]

/-- The `units` of a settled value are within the limit of the format. -/
theorem saturate_units {u : UnpackedFloat} (hu : Settled f u) :
    saturate f (units f u) = units f u := by
  rw [← units_settle hu.1, hu.2]

/-- The `units` of unpacked values are on the grid. -/
theorem grid_units {u : UnpackedFloat} (hu : Settled f u) : Grid f (units f u) := by
  have hbound : |units f u| ≤ ceiling f := by
    rw [← saturate_units hu, saturate, abs_le]
    omega
  cases u with
  | notANumber => exact ⟨0, 0, by simp, by simp [units], hbound⟩
  | infinity s =>
    -- infinity counts as a power of two
    have hpow : Grid f (ceiling f) := by
      have h := grid_two_pow (f := f) (j := 2 ^ f.exponentBits - 2 + f.mantissaBitsWithoutImplicit)
        (by simp [ceiling])
      rwa [ceiling, Nat.cast_pow, Nat.cast_ofNat]
    cases s with
    | positive => exact hpow
    | negative => exact hpow.neg
  | zero s => exact ⟨0, 0, by simp, by simp [units], hbound⟩
  | finite s m e hm =>
    -- a significand that is short enough, at the distance of its exponent
    have hlt : (m : ℤ) ≤ 2 ^ f.mantissaBits := by exact_mod_cast hu.1.1.le
    cases s with
    | positive => exact ⟨m, (e - f.minExponent).toNat, by rwa [Nat.abs_cast], rfl, hbound⟩
    | negative =>
      refine ⟨-m, (e - f.minExponent).toNat, by rwa [abs_neg, Nat.abs_cast], ?_, hbound⟩
      simp only [units, Sign.apply]
      ring

/-- A `Settled` number needs no rounding. -/
theorem Settled.rounds {u : UnpackedFloat} (hu : Settled f u) (hnan : u ≠ .notANumber) :
    Rounds f u (units f u) where
  canonical := hu.1
  isNumber := hnan
  units_eq := by rw [saturate_units hu, nearest_eq_self (grid_units hu)]

/-- What a rounded value is after packing: `settle` gives a number, with the rounded count. -/
theorem Rounds.settle {u : UnpackedFloat} {x : ℚ} (h : Rounds f u x) :
    settle f u ≠ .notANumber ∧ units f (settle f u) = nearest f x := by
  rw [units_settle h.canonical]
  refine ⟨?_, h.units_eq⟩
  -- settling replaces what is too large by infinity, which is a number as well
  cases u with
  | notANumber => exact absurd rfl h.isNumber
  | infinity s | zero s =>
    intro hnan
    cases hnan
  | finite s m e hm =>
    rw [Binary.settle]
    split <;> intro hnan <;> cases hnan

end Proper

/-- `roundWithAccuracy` never gives the undefined value. -/
theorem roundWithAccuracy_ne_notANumber (s : Sign) (m : ℕ) (e : ℤ) (a : Accuracy) :
    roundWithAccuracy f s m e a ≠ .notANumber := by
  simp only [roundWithAccuracy]
  split <;> nofun

/-- `roundWithAccuracy` rounds the number that its significand and the residual bits describe. -/
theorem rounds_roundWithAccuracy (s : Sign) {m : ℕ} {e : ℤ} {a : Accuracy} {x : ℚ}
    (he : e ≤ f.targetExponent (totalExponent m e)) (hx : Describes m a x) :
    Rounds f (roundWithAccuracy f s m e a) (s.apply 1 * (x * 2 ^ (e - f.minExponent))) := by
  obtain ⟨hcanonical, hunits⟩ := roundWithAccuracy_spec s he hx
  exact ⟨hcanonical, roundWithAccuracy_ne_notANumber _ _ _ _, hunits⟩

/-- `round` rounds the number that a significand and an exponent stand for. -/
theorem rounds_round (s : Sign) {m : ℕ} (hm : 0 < m) (e : ℤ) :
    Rounds f (UnpackedFloat.round f s m e) (s.apply 1 * (m * 2 ^ (e - f.minExponent))) := by
  obtain ⟨hcanonical, hunits⟩ := round_spec (f := f) s hm e
  exact ⟨hcanonical, roundWithAccuracy_ne_notANumber _ _ _ _, hunits⟩

/-- `normalize` rounds the number that a signed significand and an exponent stand for. -/
theorem rounds_normalize (m e : ℤ) (zero : Sign) :
    Rounds f (normalize f m e zero) (m * 2 ^ (e - f.minExponent)) := by
  obtain ⟨hcanonical, hunits⟩ := normalize_spec (f := f) m e zero
  refine ⟨hcanonical, ?_, hunits⟩
  rw [UnpackedFloat.normalize]
  -- no branch is the undefined value
  split
  · exact roundWithAccuracy_ne_notANumber _ _ _ _
  · intro h
    cases h
  · exact roundWithAccuracy_ne_notANumber _ _ _ _

/-! ## Sums and differences -/

/-- `decreaseExponent` to one no larger than its own keeps the value of a significand. -/
private theorem decreaseExponent_fst {m : ℕ} {e t : ℤ} (h : t ≤ e) :
    ((decreaseExponent m e t).1 : ℚ) * 2 ^ (t - f.minExponent) = m * 2 ^ (e - f.minExponent) := by
  have hexp : (decreaseExponent m e t).2 = t := by
    simp only [decreaseExponent]
    omega
  have hvalue := decreaseExponent_value m e t
  rw [hexp] at hvalue
  rw [zpow_sub₀ (by norm_num), zpow_sub₀ (by norm_num), ← mul_div_assoc, ← mul_div_assoc, hvalue]

/-- `add` rounds the exact sum. -/
theorem rounds_add [Proper f] {u v : UnpackedFloat} (hu : Settled f u) (hv : Settled f v)
    (hfu : u.isFinite = true) (hfv : v.isFinite = true) :
    Rounds f (add f u v) (units f u + units f v) := by
  -- a zero leaves the other operand as it is, and that needs no rounding
  cases u with
  | notANumber => cases hfu
  | infinity s => cases hfu
  | zero s =>
    have hzero : (units f (.zero s) : ℚ) = 0 := by simp [units]
    cases v with
    | notANumber => cases hfv
    | infinity t => cases hfv
    | zero t =>
      have hzero' : (units f (.zero t) : ℚ) = 0 := by simp [units]
      rw [hzero, hzero', add_zero, add]
      split
      · exact rounds_zero f s
      · exact rounds_zero f .positive
    | finite t n e' hn =>
      rw [hzero, zero_add]
      exact hv.rounds fun h => by cases h
  | finite s m e hm =>
    cases v with
    | notANumber => cases hfv
    | infinity t => cases hfv
    | zero t =>
      have hzero : (units f (.zero t) : ℚ) = 0 := by simp [units]
      rw [hzero, add_zero]
      exact hu.rounds fun h => by cases h
    | finite t n e' hn =>
      -- both significands are brought to the smaller exponent
      have hsum := rounds_normalize (f := f) (s.apply (decreaseExponent m e (min e e')).1 +
        t.apply (decreaseExponent n e' (min e e')).1) (min e e') .positive
      have hleft := decreaseExponent_fst (f := f) (m := m) (min_le_left e e')
      have hright := decreaseExponent_fst (f := f) (m := n) (min_le_right e e')
      have hvalue : (units f (.finite s m e hm) : ℚ) + units f (.finite t n e' hn) =
          ((s.apply (decreaseExponent m e (min e e')).1 +
            t.apply (decreaseExponent n e' (min e e')).1 : ℤ) : ℚ) *
              2 ^ (min e e' - f.minExponent) := by
        rw [units_finite hu.1.2.1, units_finite hv.1.2.1, ← hleft, ← hright]
        cases s <;> cases t <;> simp only [Sign.apply] <;> push_cast <;> ring
      rw [hvalue]
      exact hsum

/-- The sign of a negated value goes through `Sign.apply`. -/
private theorem neg_apply (s : Sign) (n : ℤ) : (-s).apply n = -s.apply n := by
  cases s with
  | negative => exact (neg_neg n).symm
  | positive => rfl

/-- `neg` flips the sign of the count. -/
private theorem units_neg (u : UnpackedFloat) : units f u.neg = -units f u := by
  cases u with
  | notANumber => rfl
  | infinity s => exact neg_apply s _
  | zero s => rfl
  | finite s m e hm => exact neg_apply s _

/-- `neg` keeps a value settled. -/
private theorem Settled.neg {u : UnpackedFloat} (hu : Settled f u) : Settled f u.neg := by
  cases u with
  | notANumber => exact hu
  | infinity s => exact ⟨trivial, rfl⟩
  | zero s => exact ⟨trivial, rfl⟩
  | finite s m e hm => exact ⟨hu.1, if_neg (not_lt.mpr hu.le_maxExponent)⟩

/-- `sub` adds the value with the other sign. -/
private theorem sub_eq_add (u v : UnpackedFloat) : sub f u v = add f u v.neg := by
  cases u <;> cases v <;> try rfl
  case finite.finite s m e hm t n e' hn =>
    simp only [sub, add, UnpackedFloat.neg, neg_apply, sub_eq_add_neg]

/-- `sub` rounds the exact difference. -/
theorem rounds_sub [Proper f] {u v : UnpackedFloat} (hu : Settled f u) (hv : Settled f v)
    (hfu : u.isFinite = true) (hfv : v.isFinite = true) :
    Rounds f (sub f u v) (units f u - units f v) := by
  have hfv' : v.neg.isFinite = true := by
    -- flipping the sign keeps a value finite
    cases v <;> first | rfl | cases hfv
  have h := rounds_add hu hv.neg hfu hfv'
  rw [units_neg, Int.cast_neg, ← sub_eq_add, ← sub_eq_add_neg] at h
  exact h

/-! ## Products -/

/-- The count of 1 in the format `f`. -/
def one (f : Format) : ℚ :=
  2 ^ (-f.minExponent)

/-- The count `one` of 1 is positive. -/
theorem one_pos (f : Format) : 0 < one f :=
  zpow_pos (by norm_num) _

/-- A significand at an exponent, in units of which 1 has `one`. -/
private theorem mul_zpow_sub (x : ℚ) (e : ℤ) :
    x * 2 ^ (e - f.minExponent) = x * 2 ^ e * one f := by
  rw [one, mul_assoc, ← zpow_add₀ (by norm_num), sub_eq_add_neg]

/-- The sign of a product, as `Sign.apply` has it, is the product of the signs. -/
private theorem mul_apply (s t : Sign) :
    (((s * t).apply 1 : ℤ) : ℚ) = (s.apply 1 : ℤ) * (t.apply 1 : ℤ) := by
  have h : (s * t).apply 1 = s.apply 1 * t.apply 1 := by cases s <;> cases t <;> rfl
  exact_mod_cast h

/-- The exponent of a product is small enough for `roundWithAccuracy`. -/
private theorem mul_exponent_le [Proper f] {s t : Sign} {m n : ℕ} {e e' : ℤ} {hm : 0 < m}
    {hn : 0 < n} (hu : Canonical f (.finite s m e hm)) (hv : Canonical f (.finite t n e' hn)) :
    e + e' ≤ f.targetExponent (totalExponent (m * n) (e + e')) := by
  have hbits := mantissaBits_eq f
  have hpos : 0 < m * n := Nat.mul_pos hm hn
  rw [Format.targetExponent, totalExponent]
  by_cases hfull : 2 ^ f.mantissaBitsWithoutImplicit ≤ m * n
  · have hlog := (Nat.le_log2 hpos.ne').mpr hfull
    omega
  · -- two short significands come with the smallest exponent
    have hshort : m < 2 ^ f.mantissaBitsWithoutImplicit :=
      (Nat.le_mul_of_pos_right m hn).trans_lt (not_le.mp hfull)
    have hshort' : n < 2 ^ f.mantissaBitsWithoutImplicit :=
      (Nat.le_mul_of_pos_left n hm).trans_lt (not_le.mp hfull)
    have he := hu.2.2.resolve_left hshort.not_ge
    have he' := hv.2.2.resolve_left hshort'.not_ge
    have hbias := Proper.exponentBias_pos (f := f)
    have hmin := minExponent_eq f
    omega

/-- `mul` rounds the exact product. -/
theorem rounds_mul [Proper f] {u v : UnpackedFloat} (hu : Settled f u) (hv : Settled f v)
    (hfu : u.isFinite = true) (hfv : v.isFinite = true) :
    Rounds f (mul f u v) (units f u * units f v / one f) := by
  cases u with
  | notANumber => cases hfu
  | infinity s => cases hfu
  | zero s =>
    have hzero : (units f (.zero s) : ℚ) = 0 := by simp [units]
    rw [hzero, zero_mul, zero_div]
    cases v with
    | notANumber => cases hfv
    | infinity t => cases hfv
    | zero t => exact rounds_zero f _
    | finite t n e' hn => exact rounds_zero f _
  | finite s m e hm =>
    cases v with
    | notANumber => cases hfv
    | infinity t => cases hfv
    | zero t =>
      have hzero : (units f (.zero t) : ℚ) = 0 := by simp [units]
      rw [hzero, mul_zero, zero_div]
      exact rounds_zero f _
    | finite t n e' hn =>
      -- the product of the significands is exact, and each factor brings its unit
      have hprod := rounds_roundWithAccuracy (f := f) (s * t) (mul_exponent_le hu.1 hv.1)
        (show Describes (m * n) .exact ((m * n : ℕ) : ℚ) from rfl)
      have hvalue : (units f (.finite s m e hm) : ℚ) * units f (.finite t n e' hn) / one f =
          (s * t).apply 1 * ((m * n : ℕ) * 2 ^ (e + e' - f.minExponent)) := by
        have hone := (one_pos f).ne'
        rw [units_finite hu.1.2.1, units_finite hv.1.2.1, mul_apply, mul_zpow_sub, mul_zpow_sub,
          mul_zpow_sub, zpow_add₀ (by norm_num)]
        push_cast
        field_simp
      rw [hvalue]
      exact hprod

/-! ## Quotients -/

/-- The residual bits that `accuracyOfFraction` finds describe the exact quotient. -/
private theorem describes_div (m : ℕ) {n : ℕ} (hn : 0 < n) :
    Describes (m / n) (accuracyOfFraction (m % n) n) (m / n) := by
  have hn' : (0 : ℚ) < n := by exact_mod_cast hn
  have hsplit : (m : ℚ) / n = (m / n : ℕ) + (m % n : ℕ) / n := by
    rw [eq_comm, add_comm, div_add' _ _ _ hn'.ne', div_left_inj' hn'.ne']
    exact_mod_cast Nat.mod_add_div' m n
  have hlt : ((m % n : ℕ) : ℚ) / n < 1 := by
    rw [div_lt_one hn']
    exact_mod_cast Nat.mod_lt m hn
  -- the residual bits compare twice the remainder with the divisor
  rw [hsplit, accuracyOfFraction]
  split
  · next h => simp [Describes, h]
  · next h =>
    have hpos : 0 < ((m % n : ℕ) : ℚ) / n :=
      div_pos (by exact_mod_cast Nat.pos_of_ne_zero h) hn'
    rcases lt_trichotomy (2 * (m % n)) n with hc | hc | hc
    · have hhalf : ((m % n : ℕ) : ℚ) / n < 1 / 2 := by
        rw [div_lt_div_iff₀ hn' (by norm_num)]
        exact_mod_cast (by omega : m % n * 2 < 1 * n)
      rw [Nat.compare_eq_lt.mpr hc]
      exact ⟨by linarith, by linarith⟩
    · have hhalf : ((m % n : ℕ) : ℚ) / n = 1 / 2 := by
        rw [div_eq_div_iff hn'.ne' (by norm_num)]
        exact_mod_cast (by omega : m % n * 2 = 1 * n)
      rw [Nat.compare_eq_eq.mpr hc]
      simp only [Describes]
      linarith
    · have hhalf : 1 / 2 < ((m % n : ℕ) : ℚ) / n := by
        rw [div_lt_div_iff₀ (by norm_num) hn']
        exact_mod_cast (by omega : 1 * n < m % n * 2)
      rw [Nat.compare_eq_gt.mpr hc]
      exact ⟨by linarith, by linarith⟩

/-- The exponent that `divCore` finds for a quotient is small enough for `roundWithAccuracy`. -/
private theorem div_exponent_le {m n : ℕ} (hm : 0 < m) (hn : 0 < n) (e e' : ℤ) :
    (divCore f m e n e').2.1 ≤
      f.targetExponent (totalExponent (divCore f m e n e').1 (divCore f m e n e').2.1) := by
  simp only [divCore]
  set t := min (e - e') (f.targetExponent (totalExponent m e - totalExponent n e')) with ht
  set k := (e - e' - t).toNat with hk
  -- the quotient has at least as many digits as the difference of the lengths tells
  have hdigits : m.log2 + k ≤ (m <<< k / n).log2 + 1 + n.log2 := by
    have hquot : m <<< k < (m <<< k / n + 1) * n := Nat.lt_mul_of_div_lt (Nat.lt_succ_self _) hn
    have hle : m <<< k / n + 1 ≤ 2 ^ ((m <<< k / n).log2 + 1) := Nat.lt_log2_self
    have hlow : 2 ^ (m.log2 + k) ≤ m <<< k := by
      rw [Nat.shiftLeft_eq, pow_add]
      exact Nat.mul_le_mul_right _ (Nat.log2_self_le hm.ne')
    have hlt : 2 ^ (m.log2 + k) < 2 ^ ((m <<< k / n).log2 + 1 + (n.log2 + 1)) :=
      calc 2 ^ (m.log2 + k) ≤ m <<< k := hlow
        _ < (m <<< k / n + 1) * n := hquot
        _ ≤ 2 ^ ((m <<< k / n).log2 + 1) * 2 ^ (n.log2 + 1) :=
            Nat.mul_le_mul hle (Nat.le_of_lt Nat.lt_log2_self)
        _ = 2 ^ ((m <<< k / n).log2 + 1 + (n.log2 + 1)) := (pow_add _ _ _).symm
    have hexp := (Nat.pow_lt_pow_iff_right (by decide)).mp hlt
    omega
  rw [Format.targetExponent, totalExponent] at *
  simp only [totalExponent] at ht
  omega

/-- The sign of a quotient, as `Sign.apply` has it, is the quotient of the signs. -/
private theorem div_apply (s t : Sign) :
    (((s / t).apply 1 : ℤ) : ℚ) = (s.apply 1 : ℤ) / (t.apply 1 : ℤ) := by
  have h : (s / t).apply 1 * t.apply 1 = s.apply 1 := by cases s <;> cases t <;> rfl
  have hne : ((t.apply 1 : ℤ) : ℚ) ≠ 0 := by cases t <;> norm_num [Sign.apply]
  rw [eq_div_iff hne]
  exact_mod_cast h

/-- `div` rounds the exact quotient of two significands at any exponents. -/
theorem rounds_div_finite (s t : Sign) {m n : ℕ} (hm : 0 < m) (hn : 0 < n) (e e' : ℤ) :
    Rounds f (div f (.finite s m e hm) (.finite t n e' hn))
      ((s / t).apply 1 * (m * 2 ^ e / (n * 2 ^ e') * one f)) := by
  have hquot := rounds_roundWithAccuracy (f := f) (s / t) (div_exponent_le hm hn e e')
    (describes_div (m <<< (e - e' - (divCore f m e n e').2.1).toNat) hn)
  have hle : (divCore f m e n e').2.1 ≤ e - e' := min_le_left _ _
  -- shifting the dividend and lowering the exponent cancel
  have hshift : (2 : ℚ) ^ (e - e' - (divCore f m e n e').2.1).toNat *
      2 ^ (divCore f m e n e').2.1 = 2 ^ e / 2 ^ e' := by
    rw [← zpow_natCast, ← zpow_add₀ (by norm_num), ← zpow_sub₀ (by norm_num)]
    congr 1
    omega
  have hvalue : (m * 2 ^ e / (n * 2 ^ e') * one f : ℚ) =
      ((m <<< (e - e' - (divCore f m e n e').2.1).toNat : ℕ) : ℚ) / n *
        2 ^ ((divCore f m e n e').2.1 - f.minExponent) := by
    rw [mul_zpow_sub, Nat.shiftLeft_eq, mul_div_mul_comm, ← hshift]
    push_cast
    ring
  rw [hvalue]
  exact hquot

/-- `div` rounds the exact quotient, unless the divisor is a zero. -/
theorem rounds_div [Proper f] {u v : UnpackedFloat} (hu : Settled f u) (hv : Settled f v)
    (hfu : u.isFinite = true) (hfv : v.isFinite = true) (hne : units f v ≠ 0) :
    Rounds f (div f u v) (units f u * one f / units f v) := by
  -- the divisor has digits, and a dividend without any gives zero
  cases v with
  | notANumber => cases hfv
  | infinity t => cases hfv
  | zero t => exact absurd rfl hne
  | finite t n e' hn =>
    cases u with
    | notANumber => cases hfu
    | infinity s => cases hfu
    | zero s =>
      have hzero : (units f (.zero s) : ℚ) = 0 := by simp [units]
      rw [hzero, zero_mul, zero_div]
      exact rounds_zero f _
    | finite s m e hm =>
      -- the powers of two for the exponents come out of the quotient
      have hvalue : (units f (.finite s m e hm) : ℚ) * one f / units f (.finite t n e' hn) =
          (s / t).apply 1 * (m * 2 ^ e / (n * 2 ^ e') * one f) := by
        have hone := (one_pos f).ne'
        have hsign : ((t.apply 1 : ℤ) : ℚ) ≠ 0 := by cases t <;> norm_num [Sign.apply]
        rw [units_finite hu.1.2.1, units_finite hv.1.2.1, div_apply, mul_zpow_sub, mul_zpow_sub]
        field_simp
      rw [hvalue]
      exact rounds_div_finite s t hm hn e e'

end Utterance.Binary
