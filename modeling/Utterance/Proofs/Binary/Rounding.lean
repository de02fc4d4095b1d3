import Utterance.Proofs.Binary.Grid

/-!
# Rounding of unpacked values

The core arithmetic rounds a significand with two residual bits.  Here its result is read as a
count of smallest positive values (`units`), and shown to be the exact count taken to the grid
(`roundWithAccuracy_spec`) in the one form that packing accepts (`Canonical`).
-/

namespace Utterance.Binary

open Float.Model (Format UnpackedFloat totalExponent)
open Float.Model.UnpackedFloat

variable {f : Format}

/-! ## Counts of unpacked values -/

/-- How many smallest positive values of the format `f` make up a value.  An infinity counts as the
first power of two beyond the finite values. -/
def units (f : Format) : UnpackedFloat → ℤ
  | .notANumber => 0
  | .infinity s => s.apply (ceiling f)
  | .zero _ => 0
  | .finite s m e _ => s.apply (m * 2 ^ (e - f.minExponent).toNat)

/-- The form of finite values that `pack` expects: a significand of full length, except at the
smallest exponent. -/
def Canonical (f : Format) : UnpackedFloat → Prop
  | .finite _ m e _ => m < 2 ^ f.mantissaBits ∧ f.minExponent ≤ e ∧
      (2 ^ f.mantissaBitsWithoutImplicit ≤ m ∨ e = f.minExponent)
  | _ => True

/-- The implicit digit counts as one of the significand: `mantissaBits` is one more. -/
theorem mantissaBits_eq (f : Format) : f.mantissaBits = f.mantissaBitsWithoutImplicit + 1 := by
  rw [Format.mantissaBits, Nat.add_comm]

/-! ## Residual bits -/

/-- What the significand `m` and an accuracy say about the exact value `x`. -/
def Describes (m : ℕ) : Accuracy → ℚ → Prop
  | .exact, x => x = m
  | .inexact .lt, x => m < x ∧ x < m + 1 / 2
  | .inexact .eq, x => x = m + 1 / 2
  | .inexact .gt, x => m + 1 / 2 < x ∧ x < m + 1

/-- The exact value that a significand `Describes` is no less than that. -/
theorem Describes.le {m : ℕ} {a : Accuracy} {x : ℚ} (h : Describes m a x) : (m : ℚ) ≤ x := by
  rcases a with _ | (_ | _ | _) <;> simp only [Describes] at h <;> linarith

/-- The exact value that a significand `Describes` is less than one step above it. -/
theorem Describes.lt_add_one {m : ℕ} {a : Accuracy} {x : ℚ} (h : Describes m a x) :
    x < m + 1 := by
  rcases a with _ | (_ | _ | _) <;> simp only [Describes] at h <;> linarith

/-- The significand is the `floor` of the exact value that it describes. -/
theorem Describes.floor {m : ℕ} {a : Accuracy} {x : ℚ} (h : Describes m a x) : ⌊x⌋ = m := by
  rw [Int.floor_eq_iff]
  exact ⟨by exact_mod_cast h.le, by exact_mod_cast h.lt_add_one⟩

/-- `roundToNearestEven` decides by the accuracy as `halfEven` does by the exact value. -/
theorem Describes.round {m : ℕ} {a : Accuracy} {x : ℚ} (h : Describes m a x) :
    (a.roundToNearestEven m : ℤ) = halfEven x := by
  have hfloor := h.floor
  have hfract : Int.fract x = x - m := by
    rw [Int.fract, hfloor, Int.cast_natCast]
  unfold halfEven
  rw [hfract, hfloor]
  -- one case for each accuracy: the fraction is 0, below one half, one half, or above it
  rcases a with _ | (_ | _ | _) <;> simp only [Describes] at h <;>
    simp only [Accuracy.roundToNearestEven] <;> split_ifs <;>
    first | (push_cast; rfl) | (exfalso; linarith)

/-- `shiftRightOne` halves a described value: the last digit moves into the residual bits. -/
theorem Describes.shiftRightOne {em : ExtendedMantissa} {x : ℚ}
    (h : Describes em.mantissa em.accuracy x) :
    Describes em.shiftRightOne.mantissa em.shiftRightOne.accuracy (x / 2) := by
  -- one case for each last digit and each pair of residual bits
  obtain ⟨m, round, sticky⟩ := em
  have hm : (m : ℚ) = 2 * ((m / 2 : ℕ) : ℚ) + ((m % 2 : ℕ) : ℚ) := by
    exact_mod_cast (Nat.div_add_mod m 2).symm
  rcases Nat.mod_two_eq_zero_or_one m with hmod | hmod <;> rw [hmod] at hm <;>
    cases round <;> cases sticky <;>
    simp only [ExtendedMantissa.accuracy, Describes] at h <;>
    simp only [ExtendedMantissa.shiftRightOne, hmod, bne_self_eq_false, Bool.or_self,
      Bool.or_true, Bool.or_false, ExtendedMantissa.accuracy, Describes,
      show (1 != 0) = true from rfl] <;>
    push_cast at hm ⊢ <;>
    first | (constructor <;> linarith) | linarith

/-- `>>>` divides a described value by a power of two, by induction on the number of places. -/
theorem Describes.shiftRight {em : ExtendedMantissa} {x : ℚ}
    (h : Describes em.mantissa em.accuracy x) (n : ℕ) :
    Describes (em >>> n).mantissa (em >>> n).accuracy (x / 2 ^ n) := by
  induction n with
  | zero =>
    rw [pow_zero, div_one]
    exact h
  | succ n ih =>
    have hstep : em >>> (n + 1) = (em >>> n).shiftRightOne := rfl
    rw [hstep, pow_succ, ← div_div]
    exact ih.shiftRightOne

/-- `ofMantissaAndAccuracy` encodes an accuracy as residual bits without loss. -/
theorem describes_ofMantissaAndAccuracy {m : ℕ} {a : Accuracy} {x : ℚ} (h : Describes m a x) :
    Describes (ExtendedMantissa.ofMantissaAndAccuracy m a).mantissa
      (ExtendedMantissa.ofMantissaAndAccuracy m a).accuracy x := by
  rcases a with _ | (_ | _ | _) <;> exact h

/-! ## Exponents -/

/-- The exponent that `targetExponent` aims for is the `spacing` of the grid at the exact count. -/
theorem targetExponent_eq {m : ℕ} {e : ℤ} {a : Accuracy} {x : ℚ}
    (he : e ≤ f.targetExponent (totalExponent m e)) (hx : Describes m a x) :
    f.targetExponent (totalExponent m e) =
      f.minExponent + spacing f (x * 2 ^ (e - f.minExponent)) := by
  have hp := mantissaBits_eq f
  have hmb := f.hm
  simp only [Format.targetExponent, totalExponent] at he ⊢
  have hscale : (0 : ℚ) < 2 ^ (e - f.minExponent) := zpow_pos (by norm_num) _
  have hle := hx.le
  have hlt := hx.lt_add_one
  -- a count below 1 has the smallest spacing
  have hsmall : x * 2 ^ (e - f.minExponent) < 1 →
      spacing f (x * 2 ^ (e - f.minExponent)) = 0 := by
    intro h
    rw [spacing, Nat.floor_eq_zero.mpr h, Nat.log_zero_right]
    omega
  -- no significand: the count is a fraction of the first step
  rcases Nat.eq_zero_or_pos m with rfl | hm
  · rw [Nat.log2_zero] at he ⊢
    have hexp : e - f.minExponent ≤ 0 := by omega
    rw [hsmall, max_eq_right (by omega), Nat.cast_zero, add_zero]
    calc x * 2 ^ (e - f.minExponent) < 1 * 2 ^ (e - f.minExponent) :=
          mul_lt_mul_of_pos_right (by push_cast at hlt; linarith) hscale
      _ ≤ 1 := by
          rw [one_mul]
          exact zpow_le_one_of_nonpos₀ (by norm_num) hexp
  · have hlow : (2 : ℚ) ^ ((m.log2 : ℤ) + (e - f.minExponent)) ≤ x * 2 ^ (e - f.minExponent) := by
      rw [zpow_add₀ (by norm_num), zpow_natCast]
      refine mul_le_mul_of_nonneg_right (le_trans ?_ hle) hscale.le
      exact_mod_cast Nat.log2_self_le hm.ne'
    have hhigh : x * 2 ^ (e - f.minExponent) < 2 ^ ((m.log2 : ℤ) + (e - f.minExponent) + 1) := by
      have h : (m : ℚ) + 1 ≤ 2 ^ (m.log2 + 1) := by exact_mod_cast Nat.lt_log2_self (n := m)
      rw [add_right_comm, zpow_add₀ (by norm_num), show (m.log2 : ℤ) + 1 = (m.log2 + 1 : ℕ) by simp,
        zpow_natCast]
      exact mul_lt_mul_of_pos_right (hlt.trans_le h) hscale
    -- otherwise the leading digit of the significand is that of the count
    rcases lt_or_ge ((m.log2 : ℤ) + (e - f.minExponent)) 0 with hneg | hnonneg
    · rw [hsmall, max_eq_right (by omega), Nat.cast_zero, add_zero]
      exact hhigh.trans_le (zpow_le_one_of_nonpos₀ (by norm_num) (by omega))
    · obtain ⟨k, hk⟩ := Int.eq_ofNat_of_zero_le hnonneg
      rw [hk] at hlow hhigh
      have hlog : Nat.log 2 ⌊x * 2 ^ (e - f.minExponent)⌋₊ = k := by
        refine Nat.log_eq_of_pow_le_of_lt_pow (Nat.le_floor ?_) ?_
        · rw [zpow_natCast] at hlow
          exact_mod_cast hlow
        · rw [Nat.floor_lt (by linarith [zpow_pos (show (0 : ℚ) < 2 by norm_num) k])]
          rw [show (k : ℤ) + 1 = (k + 1 : ℕ) by simp, zpow_natCast] at hhigh
          exact_mod_cast hhigh
      rw [spacing, hlog]
      omega

/-! ## The result of rounding -/

/-- The significand `m` at the exponent `e`, or a zero when there is none. -/
private def assemble (s : Sign) (m : ℕ) (e : ℤ) : UnpackedFloat :=
  if h : m = 0 then .zero s else .finite s m e (Nat.pos_of_ne_zero h)

/-- The count of what `assemble` makes, a zero included. -/
private theorem units_assemble (s : Sign) (m : ℕ) (e : ℤ) :
    units f (assemble s m e) = s.apply (m * 2 ^ (e - f.minExponent).toNat) := by
  unfold assemble
  split
  · next h => cases s <;> simp [units, Sign.apply, h]
  · rfl

/-- `assemble` makes a canonical value of a significand that has a full length or the smallest
exponent. -/
private theorem canonical_assemble {s : Sign} {m : ℕ} {e : ℤ} (hm : m < 2 ^ f.mantissaBits)
    (he : f.minExponent ≤ e)
    (hfull : 2 ^ f.mantissaBitsWithoutImplicit ≤ m ∨ e = f.minExponent) :
    Canonical f (assemble s m e) := by
  unfold assemble
  split
  · trivial
  · exact ⟨hm, he, hfull⟩

/-- After the significand is rounded, `shiftToTargetExponent` only repairs its overflow into one
more digit. -/
private theorem assemble_shiftToTargetExponent (s : Sign) (r T : ℕ)
    (hr : r ≤ 2 ^ f.mantissaBits)
    (hfull : 2 ^ f.mantissaBitsWithoutImplicit ≤ r ∨ T = 0) :
    Canonical f (assemble s (shiftToTargetExponent f r (f.minExponent + T) .exact).1.mantissa
        (shiftToTargetExponent f r (f.minExponent + T) .exact).2) ∧
      units f (assemble s (shiftToTargetExponent f r (f.minExponent + T) .exact).1.mantissa
        (shiftToTargetExponent f r (f.minExponent + T) .exact).2) =
        s.apply (r * 2 ^ T) := by
  have hp := mantissaBits_eq f
  rcases hr.lt_or_eq with hlt | rfl
  · -- no overflow, no shift
    have hlog : r.log2 < f.mantissaBits := by
      rcases Nat.eq_zero_or_pos r with rfl | hpos
      · rw [Nat.log2_zero]
        omega
      · exact (Nat.log2_lt hpos.ne').mpr hlt
    have hshift : (f.targetExponent (totalExponent r (f.minExponent + T)) -
        (f.minExponent + T)).toNat = 0 := by
      simp only [Format.targetExponent, totalExponent]
      omega
    have hresult : shiftToTargetExponent f r (f.minExponent + T) .exact =
        (⟨r, false, false⟩, f.minExponent + T) := by
      simp only [shiftToTargetExponent, shiftToExponent, hshift, Nat.cast_zero, add_zero]
      rfl
    rw [hresult]
    refine ⟨canonical_assemble hlt (by simp) ?_, ?_⟩
    · exact hfull.imp_right fun h => by simp [h]
    · rw [units_assemble]
      simp
  · -- the significand is a power of two with one digit too many
    have hshift : (f.targetExponent (totalExponent (2 ^ f.mantissaBits) (f.minExponent + T)) -
        (f.minExponent + T)).toNat = 1 := by
      simp only [Format.targetExponent, totalExponent, Nat.log2_two_pow]
      omega
    have hhalf : 2 ^ f.mantissaBits / 2 = 2 ^ f.mantissaBitsWithoutImplicit := by
      rw [hp, pow_succ, Nat.mul_div_cancel _ (by decide)]
    have hresult :
        (shiftToTargetExponent f (2 ^ f.mantissaBits) (f.minExponent + T) .exact).1.mantissa =
          2 ^ f.mantissaBitsWithoutImplicit ∧
        (shiftToTargetExponent f (2 ^ f.mantissaBits) (f.minExponent + T) .exact).2 =
          f.minExponent + T + 1 := by
      simp only [shiftToTargetExponent, shiftToExponent, hshift]
      exact ⟨hhalf, rfl⟩
    rw [hresult.1, hresult.2]
    refine ⟨canonical_assemble ?_ (by omega) (.inl le_rfl), ?_⟩
    · exact Nat.pow_lt_pow_right (by decide) (by omega)
    · rw [units_assemble, show (f.minExponent + T + 1 - f.minExponent).toNat = T + 1 by omega, hp]
      congr 1
      push_cast
      ring

/-- A count limited to the range between the infinities of the format `f`. -/
def saturate (f : Format) (n : ℤ) : ℤ :=
  max (-ceiling f) (min n (ceiling f))

/-- With its sign and within the limits, what `nearestUnbounded` gives is the nearest grid point. -/
theorem saturate_nearestUnbounded (s : Sign) {x : ℚ} (hx : 0 ≤ x) :
    saturate f (s.apply (nearestUnbounded f x)) = nearest f (s.apply 1 * x) := by
  have hc := ceiling_pos f
  have h0 := nearestUnbounded_nonneg (f := f) hx
  -- both signs round in the same way, away from each other
  cases s with
  | positive =>
    simp only [Sign.apply, Int.cast_one, one_mul]
    rw [nearest_of_nonneg hx, saturate]
    omega
  | negative =>
    simp only [Sign.apply, Int.cast_neg, Int.cast_one, neg_mul, one_mul]
    rw [nearest_neg, nearest_of_nonneg hx, saturate]
    omega

/-- `roundWithAccuracy` takes the exact count to the grid, and keeps to the canonical form.  Values
too large for the format stay finite here; packing turns them into infinities. -/
theorem roundWithAccuracy_spec (s : Sign) {m : ℕ} {e : ℤ} {a : Accuracy} {x : ℚ}
    (he : e ≤ f.targetExponent (totalExponent m e)) (hx : Describes m a x) :
    Canonical f (roundWithAccuracy f s m e a) ∧
      saturate f (units f (roundWithAccuracy f s m e a)) =
        nearest f (s.apply 1 * (x * 2 ^ (e - f.minExponent))) := by
  have htarget := targetExponent_eq he hx
  set X : ℚ := x * 2 ^ (e - f.minExponent) with hX
  set k : ℕ := (f.targetExponent (totalExponent m e) - e).toNat with hk
  set r : ℕ := (ExtendedMantissa.ofMantissaAndAccuracy m a >>> k).roundedMantissa with hr
  have hexp : e + (k : ℤ) = f.minExponent + spacing f X := by omega
  -- the first shift brings the significand to the spacing of the grid
  have hround : (r : ℤ) = halfEven (X / 2 ^ spacing f X) := by
    have h := ((describes_ofMantissaAndAccuracy hx).shiftRight k).round
    have hscale : X * 2 ^ k = x * 2 ^ spacing f X := by
      calc X * 2 ^ k = x * (2 ^ (e - f.minExponent) * 2 ^ (k : ℤ)) := by
            rw [zpow_natCast, ← mul_assoc]
        _ = x * 2 ^ (spacing f X : ℤ) := by
            rw [← zpow_add₀ (by norm_num)]
            congr 2
            omega
        _ = x * 2 ^ spacing f X := by rw [zpow_natCast]
    rw [(div_eq_div_iff (by positivity) (by positivity)).mpr hscale]
    exact h
  have hvalue : (r : ℤ) * 2 ^ spacing f X = nearestUnbounded f X := by
    rw [hround, nearestUnbounded]
  -- so it has at most one digit too many, and is of full length beyond the smallest spacing
  have hle : r ≤ 2 ^ f.mantissaBits := by
    have h := nearestUnbounded_le_pow (f := f) X
    rw [← hvalue, Nat.add_comm, pow_add] at h
    exact_mod_cast le_of_mul_le_mul_right h (by positivity)
  have hfull : 2 ^ f.mantissaBitsWithoutImplicit ≤ r ∨ spacing f X = 0 := by
    rcases Nat.eq_zero_or_pos (spacing f X) with h0 | hpos
    · exact .inr h0
    · left
      have h := pow_le_nearestUnbounded (f := f) hpos
      rw [← hvalue, show spacing f X + f.mantissaBits - 1 =
        f.mantissaBitsWithoutImplicit + spacing f X by rw [mantissaBits_eq]; omega, pow_add] at h
      exact_mod_cast le_of_mul_le_mul_right h (by positivity)
  -- the second shift repairs the overflow
  have hunfold : roundWithAccuracy f s m e a =
      assemble s (shiftToTargetExponent f r (f.minExponent + spacing f X) .exact).1.mantissa
        (shiftToTargetExponent f r (f.minExponent + spacing f X) .exact).2 := by
    rw [← hexp]
    rfl
  have hX0 : 0 ≤ X := by
    exact mul_nonneg ((Nat.cast_nonneg m).trans hx.le) (zpow_pos (by norm_num) _).le
  rw [hunfold, ← saturate_nearestUnbounded s hX0, ← hvalue]
  obtain ⟨hcanonical, hunits⟩ := assemble_shiftToTargetExponent s r (spacing f X) hle hfull
  exact ⟨hcanonical, by rw [hunits]⟩

/-! ## Rounding without a bound on the exponent -/

/-- `decreaseExponent` lowers the exponent to at most `t` and keeps the value. -/
theorem decreaseExponent_value (m : ℕ) (e t : ℤ) :
    ((decreaseExponent m e t).1 : ℚ) * 2 ^ (decreaseExponent m e t).2 = m * 2 ^ e := by
  simp only [decreaseExponent, Nat.shiftLeft_eq]
  rw [zpow_sub₀ (by norm_num), zpow_natCast]
  push_cast
  field_simp

/-- `decreaseExponent` reaches the exponent it is given. -/
theorem decreaseExponent_exponent_le (m : ℕ) (e t : ℤ) : (decreaseExponent m e t).2 ≤ t := by
  simp only [decreaseExponent]
  omega

/-- Shifting left adds that many digits to `log2`, by induction on them. -/
private theorem log2_shiftLeft {m : ℕ} (hm : 0 < m) (k : ℕ) : (m <<< k).log2 = m.log2 + k := by
  induction k with
  | zero => rfl
  | succ k ih =>
    have hne : m <<< k ≠ 0 := by
      rw [Nat.shiftLeft_eq]
      positivity
    rw [Nat.shiftLeft_succ, Nat.log2_two_mul hne, ih, Nat.add_assoc]

/-- `decreaseExponent` keeps the place of the leading digit. -/
theorem totalExponent_decreaseExponent {m : ℕ} (hm : 0 < m) (e t : ℤ) :
    totalExponent (decreaseExponent m e t).1 (decreaseExponent m e t).2 = totalExponent m e := by
  simp only [decreaseExponent, totalExponent, log2_shiftLeft hm]
  omega

/-- `roundWithAccuracy_spec` for exact significands at any exponent. -/
theorem round_spec (s : Sign) {m : ℕ} (hm : 0 < m) (e : ℤ) :
    Canonical f (round f s m e) ∧
      saturate f (units f (round f s m e)) =
        nearest f (s.apply 1 * (m * 2 ^ (e - f.minExponent))) := by
  -- lowering the exponent to the target changes neither the value nor the target
  set t := f.targetExponent (totalExponent m e) with ht
  have hle : (decreaseExponent m e t).2 ≤ f.targetExponent
      (totalExponent (decreaseExponent m e t).1 (decreaseExponent m e t).2) := by
    rw [totalExponent_decreaseExponent hm]
    exact decreaseExponent_exponent_le m e t
  have hspec := roundWithAccuracy_spec s hle
    (show Describes (decreaseExponent m e t).1 .exact (decreaseExponent m e t).1 from rfl)
  have hvalue :
      ((decreaseExponent m e t).1 : ℚ) * 2 ^ ((decreaseExponent m e t).2 - f.minExponent) =
        m * 2 ^ (e - f.minExponent) := by
    rw [zpow_sub₀ (by norm_num), zpow_sub₀ (by norm_num), ← mul_div_assoc, ← mul_div_assoc,
      decreaseExponent_value]
  rw [hvalue] at hspec
  exact hspec

/-- `normalize`, the form of rounding that sums and differences use, takes a signed significand to
the grid. -/
theorem normalize_spec (m e : ℤ) (zero : Sign) :
    Canonical f (normalize f m e zero) ∧
      saturate f (units f (normalize f m e zero)) = nearest f (m * 2 ^ (e - f.minExponent)) := by
  -- the sign of the significand selects the branch, and 0 gives a zero of the sign that is asked
  -- for
  rcases lt_trichotomy m 0 with hm | rfl | hm
  · have hcast : (((-m).toNat : ℕ) : ℚ) = -m := by
      exact_mod_cast Int.toNat_of_nonneg (by omega : 0 ≤ -m)
    have h := round_spec (f := f) .negative (m := (-m).toNat) (by omega) e
    simp only [Sign.apply, hcast, Int.cast_neg, Int.cast_one] at h
    simp only [UnpackedFloat.normalize, Int.compare_eq_lt.mpr hm]
    convert h using 3
    ring
  · have hc := ceiling_pos f
    simp only [UnpackedFloat.normalize, Int.compare_eq_eq.mpr rfl, Int.cast_zero, zero_mul,
      nearest_zero, units, saturate]
    exact ⟨trivial, by omega⟩
  · have hcast : ((m.toNat : ℕ) : ℚ) = m := by
      exact_mod_cast Int.toNat_of_nonneg hm.le
    have h := round_spec (f := f) .positive (m := m.toNat) (by omega) e
    simp only [Sign.apply, hcast, Int.cast_one, one_mul] at h
    simp only [UnpackedFloat.normalize, Int.compare_eq_gt.mpr hm]
    exact h

end Utterance.Binary
