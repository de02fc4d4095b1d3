import Utterance.Decimal
import Utterance.Proofs.Binary.Scientific

/-!
# Shortest decimals round back

The decimal that is chosen for a binary value lies in the interval of reals that round to the value,
or is the value itself.  So taking it to the grid of the format gives the value again.

## Key results

- `Interval.contains_of_holds`: the test in whole numbers is one on the reals
- `nearest_of_contains`: what lies in the interval of a value rounds to it
- `nearest_shortest`: the shortest decimal rounds to the value
- `ofScientific_eq`: and so does any decimal fraction with the same value
-/

namespace Utterance.Decimal

open Float.Model (Format)
open Float.Model.UnpackedFloat (Sign)
open Binary

variable {f : Format} {m : ℕ} {e : ℤ}

/-- The number that the decimal `d` stands for. -/
def value (d : Decimal) : ℚ :=
  d.digits * 10 ^ d.exponent

/-- `strip` takes zeros off the end and keeps the number, by induction on how it recurses. -/
theorem value_strip (d : Decimal) : d.strip.value = d.value := by
  fun_induction strip d with
  | case1 d hzero => rfl
  | case2 d hne hmod ih =>
    have hdigits : (d.digits : ℚ) = (d.digits / 10 : ℕ) * 10 := by
      exact_mod_cast (Nat.div_mul_cancel (Nat.dvd_of_mod_eq_zero hmod)).symm
    rw [ih, value, value, zpow_add_one₀ (by norm_num), hdigits]
    ring
  | case3 d hne hmod => rfl

/-- `exact` writes a significand and an exponent as a decimal without loss. -/
theorem value_exact (m : ℕ) (e : ℤ) : (exact m e).value = m * 2 ^ e := by
  rw [exact]
  split
  · next h =>
    rw [value, Nat.shiftLeft_eq, zpow_zero, mul_one]
    push_cast
    rw [← zpow_natCast, Int.toNat_of_nonneg h]
  · next h =>
    -- five and two make ten
    have hpow : (5 : ℚ) ^ (-e).toNat = 5 ^ (-e) := by
      rw [← zpow_natCast, Int.toNat_of_nonneg (by omega)]
    have hten : (10 : ℚ) ^ e = 2 ^ e * 5 ^ e := by
      rw [← mul_zpow]
      norm_num
    rw [value, hten]
    push_cast [Nat.pow_eq]
    rw [hpow, zpow_neg]
    have h5 : (5 : ℚ) ^ e ≠ 0 := zpow_ne_zero _ (by norm_num)
    field_simp

/-! ## Intervals -/

namespace Interval

variable {i : Interval} {q : ℚ}

/-- The number `q` lies in the interval. -/
def Contains (i : Interval) (q : ℚ) : Prop :=
  i.low * 2 ^ i.exponent ≤ q ∧ q ≤ i.high * 2 ^ i.exponent ∧
    (i.closed = false → i.low * 2 ^ i.exponent < q ∧ q < i.high * 2 ^ i.exponent)

/-- The factors that make whole numbers of both sides of a comparison. -/
theorem up_mul_zpow (place exponent : ℤ) :
    ((Nat.pow 10 (-place).toNat <<< exponent.toNat : ℕ) : ℚ) * 10 ^ place =
      (Nat.pow 10 place.toNat <<< (-exponent).toNat : ℕ) * 2 ^ exponent := by
  have hsplit : ∀ {b : ℚ} (hb : b ≠ 0) (z : ℤ), b ^ z.toNat = b ^ (-z).toNat * b ^ z := by
    intro b hb z
    rw [← zpow_natCast, ← zpow_natCast, ← zpow_add₀ hb]
    congr 1
    omega
  rw [Nat.shiftLeft_eq, Nat.shiftLeft_eq]
  push_cast [Nat.pow_eq]
  rw [hsplit (by norm_num : (10 : ℚ) ≠ 0) place, hsplit (by norm_num : (2 : ℚ) ≠ 0) exponent]
  ring

/-- The test in `holds` compares the ends of the interval and the number, all multiplied by the same
factor. -/
theorem exists_factor (exponent place : ℤ) :
    ∃ r : ℚ, 0 < r ∧
      (∀ n : ℕ, n * 2 ^ exponent * r =
        (n * Nat.pow 10 (-place).toNat <<< exponent.toNat : ℕ)) ∧
      ∀ n : ℕ, n * 10 ^ place * r = (n * Nat.pow 10 place.toNat <<< (-exponent).toNat : ℕ) := by
  have hscale := up_mul_zpow place exponent
  have hten : (0 : ℚ) < 10 ^ place := zpow_pos (by norm_num) _
  -- the factor is the larger of the two scales over the power of ten, so it is positive
  have hdown : 0 < Nat.pow 10 place.toNat <<< (-exponent).toNat := by
    rw [Nat.shiftLeft_eq]
    exact Nat.mul_pos (Nat.pow_pos (by decide)) (Nat.pow_pos (by decide))
  refine ⟨(Nat.pow 10 place.toNat <<< (-exponent).toNat : ℕ) / 10 ^ place,
    div_pos (by exact_mod_cast hdown) hten, fun n => ?_, fun n => ?_⟩
  · rw [mul_assoc, mul_div_assoc', mul_comm (2 ^ exponent : ℚ), ← hscale,
      mul_div_cancel_right₀ _ hten.ne', Nat.cast_mul]
  · rw [mul_assoc, mul_div_cancel₀ _ hten.ne', Nat.cast_mul]

/-- `holds` is true only of numbers in the interval. -/
theorem contains_of_holds {count : ℕ} {place : ℤ} (h : i.holds count place = true) :
    i.Contains (count * 10 ^ place) := by
  obtain ⟨r, hr, hend, hcount⟩ := exists_factor i.exponent place
  have hle : ∀ {a b : ℚ}, a * r ≤ b * r → a ≤ b := fun h => le_of_mul_le_mul_right h hr
  have hlt : ∀ {a b : ℚ}, a * r < b * r → a < b := fun h => lt_of_mul_lt_mul_right h hr.le
  simp only [holds] at h
  -- whether the ends belong to the interval decides between `≤` and `<`
  cases hclosed : i.closed with
  | true =>
    rw [hclosed] at h
    simp only [if_true, Bool.and_eq_true, decide_eq_true_eq] at h
    refine ⟨hle ?_, hle ?_, by simp [hclosed]⟩
    · rw [hend, hcount]
      exact_mod_cast h.1
    · rw [hend, hcount]
      exact_mod_cast h.2
  | false =>
    rw [hclosed] at h
    simp only [Bool.false_eq_true, if_false, Bool.and_eq_true, decide_eq_true_eq] at h
    have hlow : i.low * 2 ^ i.exponent < (count : ℚ) * 10 ^ place := hlt <| by
      rw [hend, hcount]
      exact_mod_cast h.1
    have hhigh : (count : ℚ) * 10 ^ place < i.high * 2 ^ i.exponent := hlt <| by
      rw [hend, hcount]
      exact_mod_cast h.2
    exact ⟨hlow.le, hhigh.le, fun _ => ⟨hlow, hhigh⟩⟩

/-- What `nearest?` finds on a grid lies in the interval. -/
theorem contains_of_nearest? {place : ℤ} {d : Decimal} (h : i.nearest? place = some d) :
    i.Contains d.value := by
  simp only [nearest?] at h
  -- whichever side is taken, it has been tested
  split at h
  · next hbelow habove =>
    split at h
    · obtain rfl := Option.some.inj h
      exact contains_of_holds hbelow
    · obtain rfl := Option.some.inj h
      exact contains_of_holds habove
  · next hbelow _ =>
    obtain rfl := Option.some.inj h
    exact contains_of_holds hbelow
  · next _ habove =>
    obtain rfl := Option.some.inj h
    exact contains_of_holds habove
  · cases h

/-- The interval `around` a value, with a quarter of a step below it where the steps get smaller. -/
theorem contains_around_iff (hm : 0 < m) : (around f m e).Contains q ↔
    let low : ℚ :=
      if m = 2 ^ f.mantissaBitsWithoutImplicit ∧ f.minExponent < e then m - 1 / 4 else m - 1 / 2
    low * 2 ^ e ≤ q ∧ q ≤ (m + 1 / 2) * 2 ^ e ∧
      (m % 2 = 1 → low * 2 ^ e < q ∧ q < (m + 1 / 2) * 2 ^ e) := by
  -- the interval is counted in quarters of the last place
  have hexp : (2 : ℚ) ^ (e - 2) = 2 ^ e / 4 := by
    rw [zpow_sub₀ (by norm_num)]
    norm_num
  -- the lower end is nearer at a power of two, where the grid below is finer
  have hlow : ((around f m e).low : ℚ) * 2 ^ (around f m e).exponent =
      (if m = 2 ^ f.mantissaBitsWithoutImplicit ∧ f.minExponent < e then (m : ℚ) - 1 / 4
        else m - 1 / 2) * 2 ^ e := by
    simp only [around, Nat.one_shiftLeft, hexp]
    split
    · rw [Nat.cast_sub (by omega)]
      push_cast
      ring
    · rw [Nat.cast_sub (by omega)]
      push_cast
      ring
  have hhigh : ((around f m e).high : ℚ) * 2 ^ (around f m e).exponent =
      (m + 1 / 2) * 2 ^ e := by
    simp only [around, hexp]
    push_cast
    ring
  have hclosed : (around f m e).closed = false ↔ m % 2 = 1 := by
    simp [around]
  rw [Contains, hlow, hhigh, hclosed]

end Interval

/-- The `shortest` decimal lies in the interval around the value. -/
theorem contains_shortest (f : Format) (hm : 0 < m) (e : ℤ) :
    (Interval.around f m e).Contains (shortest f m e).value := by
  rw [shortest, value_strip]
  cases hfound : (List.range 17).findSome? fun (n : ℕ) =>
      (Interval.around f m e).nearest? ((Interval.around f m e).magnitude - (n + 1)) with
  | some d =>
    obtain ⟨n, -, hn⟩ := List.exists_of_findSome?_eq_some hfound
    exact Interval.contains_of_nearest? hn
  -- nothing shorter was found, and the value itself is in its interval
  | none =>
    rw [Option.getD_none, value_exact, Interval.contains_around_iff hm]
    have hpos : (0 : ℚ) < 2 ^ e := zpow_pos (by norm_num) _
    dsimp only
    split
    · refine ⟨?_, ?_, fun _ => ⟨?_, ?_⟩⟩ <;> nlinarith
    · refine ⟨?_, ?_, fun _ => ⟨?_, ?_⟩⟩ <;> nlinarith

/-! ## Rounding back -/

section Nearest

variable {x : ℚ} {j : ℕ}

/-- What is within half a step of a count is taken there by `nearest`, if there is room for all its
digits. -/
theorem nearest_eq_of_half (hlt : m < 2 ^ f.mantissaBits) (hceil : (m : ℤ) * 2 ^ j ≤ ceiling f)
    (hroom : j = 0 ∨ 2 ^ (j + f.mantissaBits - 1) ≤ x)
    (hlow : (m - 1 / 2) * 2 ^ j ≤ x) (hhigh : x ≤ (m + 1 / 2) * 2 ^ j)
    (hodd : m % 2 = 1 → (m - 1 / 2) * 2 ^ j < x ∧ x < (m + 1 / 2) * 2 ^ j) (h0 : 0 ≤ x) :
    nearest f x = m * 2 ^ j := by
  have hpos : (0 : ℚ) < 2 ^ j := by positivity
  have hm : (m : ℚ) + 1 ≤ 2 ^ f.mantissaBits := by exact_mod_cast hlt
  have hbelow : x < 2 ^ (j + f.mantissaBits) := by
    rw [pow_add, mul_comm (2 ^ j : ℚ)]
    exact hhigh.trans_lt (mul_lt_mul_of_pos_right (by linarith) hpos)
  -- the significand has all its digits, or the spacing is as small as it gets
  have hspacing : spacing f x = j := by
    obtain rfl | hfull := hroom
    · exact Nat.le_zero.mp (spacing_le hbelow)
    · exact spacing_eq hfull hbelow
  -- within half a step, ties going to the even side
  have hround : halfEven (x / 2 ^ j) = m := by
    refine halfEven_eq ((le_div_iff₀ hpos).mpr hlow) ((div_le_iff₀ hpos).mpr hhigh) fun h => ?_
    obtain ⟨hlow, hhigh⟩ := hodd (by omega)
    exact ⟨(lt_div_iff₀ hpos).mpr hlow, (div_lt_iff₀ hpos).mpr hhigh⟩
  rw [nearest_of_nonneg h0, nearestUnbounded, hspacing, hround, min_eq_left hceil]

/-- The values with a power of two as significand are where the steps change. -/
theorem power_mul_two_pow (hpow : m = 2 ^ f.mantissaBitsWithoutImplicit) (j : ℕ) :
    (m : ℚ) * 2 ^ j = 2 ^ (j + f.mantissaBits - 1) := by
  rw [hpow, mantissaBits_eq f, Nat.cast_pow, Nat.cast_ofNat, ← pow_add]
  congr 1
  omega

/-- A full significand that is no power of two leaves room for half a step. -/
theorem pow_le_sub_half (hm : 2 ^ f.mantissaBitsWithoutImplicit < m) (j : ℕ) :
    (2 : ℚ) ^ (j + f.mantissaBits - 1) ≤ (m - 1 / 2) * 2 ^ j := by
  have hroom : (2 : ℚ) ^ f.mantissaBitsWithoutImplicit + 1 ≤ m := by exact_mod_cast hm
  rw [mantissaBits_eq f, show j + (f.mantissaBitsWithoutImplicit + 1) - 1 =
    f.mantissaBitsWithoutImplicit + j by omega, pow_add]
  exact mul_le_mul_of_nonneg_right (by linarith) (by positivity)

/-- Below a power of two the steps are half as long, and `nearest` goes up to it from a quarter of a
step. -/
theorem nearest_eq_of_quarter (hpow : m = 2 ^ f.mantissaBitsWithoutImplicit)
    (hceil : (m : ℤ) * 2 ^ (j + 1) ≤ ceiling f) (hlow : (m - 1 / 4) * 2 ^ (j + 1) ≤ x)
    (hhigh : x < m * 2 ^ (j + 1)) : nearest f x = m * 2 ^ (j + 1) := by
  have hpos : (0 : ℚ) < 2 ^ j := by positivity
  have hm : (1 : ℚ) ≤ m := by
    rw [hpow]
    exact_mod_cast Nat.one_le_two_pow
  have hbits := mantissaBits_eq f
  have hsplit : (2 : ℚ) ^ (j + 1) = 2 ^ j * 2 := pow_succ ..
  have hwhole : (2 * m : ℤ) * 2 ^ j = m * 2 ^ (j + 1) := by ring
  have htop : (m : ℚ) * 2 ^ (j + 1) = 2 ^ (j + f.mantissaBits) := by
    rw [power_mul_two_pow hpow, show j + 1 + f.mantissaBits - 1 = j + f.mantissaBits by omega]
  have hbottom : (2 : ℚ) ^ (j + f.mantissaBits) = 2 * 2 ^ (j + f.mantissaBits - 1) := by
    rw [← pow_succ']
    congr 1
    omega
  -- just below the power of two the spacing is one less than at it
  have hspacing : spacing f x = j := by
    refine spacing_eq ?_ (hhigh.trans_eq htop)
    rw [hsplit] at hlow htop
    nlinarith
  have hround : halfEven (x / 2 ^ j) = (2 * m : ℤ) := by
    rw [hsplit] at hlow hhigh
    refine halfEven_eq ((le_div_iff₀ hpos).mpr ?_) ((div_le_iff₀ hpos).mpr ?_) (by omega) <;>
      push_cast <;> nlinarith
  have h0 : 0 ≤ x := le_trans (mul_nonneg (by linarith) (by positivity)) hlow
  rw [nearest_of_nonneg h0, nearestUnbounded, hspacing, hround, hwhole, min_eq_left hceil]

variable [Proper f] {s : Sign} {hm : 0 < m} {q : ℚ}

/-- What lies in the interval of a value is taken to it by `nearest`. -/
theorem nearest_of_contains (hu : Settled f (.finite s m e hm))
    (h : (Interval.around f m e).Contains q) :
    nearest f (q * one f) = m * 2 ^ (e - f.minExponent).toNat := by
  obtain ⟨hlt, hmin, hfull⟩ := hu.1
  have hceil := (significand_lt_ceiling hu.1 hu.le_maxExponent).le
  -- in units, the exponent of the value is the distance of its neighbours
  obtain ⟨j, rfl⟩ : ∃ j : ℕ, e = f.minExponent + j := ⟨(e - f.minExponent).toNat, by omega⟩
  have hscale : (2 : ℚ) ^ (f.minExponent + j) * one f = 2 ^ j := by
    rw [one, ← zpow_add₀ (by norm_num), ← zpow_natCast]
    congr 1
    omega
  rw [add_sub_cancel_left, Int.toNat_natCast] at hceil ⊢
  -- the bounds of the interval in units
  have hle : ∀ {a b : ℚ}, a ≤ b → a * one f ≤ b * one f :=
    fun h => mul_le_mul_of_nonneg_right h (one_pos f).le
  have hlt' : ∀ {a b : ℚ}, a < b → a * one f < b * one f :=
    fun h => mul_lt_mul_of_pos_right h (one_pos f)
  have hpos : (0 : ℚ) < 2 ^ j := by positivity
  have hm1 : (1 : ℚ) ≤ m := by exact_mod_cast hm
  obtain ⟨hlow, hhigh, hodd⟩ := (Interval.contains_around_iff hm).mp h
  replace hlow := hle hlow
  replace hhigh := hle hhigh
  replace hodd := fun hm => (hodd hm).imp hlt' hlt'
  simp only [mul_assoc, hscale] at hlow hhigh hodd
  -- a power of two has shorter steps below it than above it, any other significand has not
  split at hlow
  · next hpower =>
    obtain ⟨hpow, hexp⟩ := hpower
    rcases lt_or_ge (q * one f) (m * 2 ^ j) with hbelow | habove
    · obtain ⟨k, rfl⟩ : ∃ k, j = k + 1 := ⟨j - 1, by omega⟩
      exact nearest_eq_of_quarter hpow hceil hlow hbelow
    · refine nearest_eq_of_half hlt hceil
        (.inr ((power_mul_two_pow hpow j).symm.trans_le habove)) ?_ hhigh ?_ ?_
      · nlinarith
      · exact fun hm => ⟨by nlinarith, (hodd hm).2⟩
      · exact le_trans (by positivity) habove
  · next hpower =>
    rw [if_neg hpower] at hodd
    have h0 : 0 ≤ q * one f := le_trans (mul_nonneg (by linarith) hpos.le) hlow
    refine nearest_eq_of_half hlt hceil ?_ hlow hhigh hodd h0
    rcases Nat.eq_zero_or_pos j with hzero | hpositive
    · exact .inl hzero
    · have hfull := hfull.resolve_right (by omega)
      exact .inr ((pow_le_sub_half (by omega) j).trans hlow)

/-- `nearest` takes the `shortest` decimal to the value. -/
theorem nearest_shortest (hu : Settled f (.finite s m e hm)) :
    nearest f ((shortest f m e).value * one f) = m * 2 ^ (e - f.minExponent).toNat :=
  nearest_of_contains hu (contains_shortest f hm e)

end Nearest

/-- The `shortest` decimal is no more than twice as large as the value, and no less than half. -/
theorem value_shortest_bounds (f : Format) (hm : 0 < m) (e : ℤ) :
    m * 2 ^ e / 2 ≤ (shortest f m e).value ∧ (shortest f m e).value ≤ 2 * (m * 2 ^ e) := by
  obtain ⟨hlow, hhigh, -⟩ := (Interval.contains_around_iff hm).mp (contains_shortest f hm e)
  have hpos : (0 : ℚ) < 2 ^ e := zpow_pos (by norm_num) _
  have hm1 : (1 : ℚ) ≤ m := by exact_mod_cast hm
  constructor
  · refine le_trans ?_ hlow
    split <;> nlinarith
  · nlinarith

/-- The `shortest` decimal has a digit other than 0. -/
theorem digits_shortest_pos (f : Format) (hm : 0 < m) (e : ℤ) : 0 < (shortest f m e).digits := by
  refine Nat.pos_of_ne_zero fun hzero => ?_
  have hlow := (value_shortest_bounds f hm e).1
  have hpos : (0 : ℚ) < m * 2 ^ e / 2 := by positivity
  rw [value, hzero, Nat.cast_zero, zero_mul] at hlow
  linarith

/-- `ofScientific` takes a decimal fraction with the value of the `shortest` decimal to the
value. -/
theorem ofScientific_eq {x : Float} {q : ℚ} {hm : 0 < m} (hx : Stands x q) (hq : q ≤ 2 ^ 255)
    (hunpack : x.toModel.unpack = .finite .positive m e hm) {n k : ℕ} (hk : 0 < k)
    (hvalue : (n / 10 ^ k : ℚ) = (shortest .binary64 m e).value) :
    Float.ofScientific n true k = x := by
  have hsettled := settled_unpack64 x
  have hunits := hx.units_eq
  rw [hunpack] at hsettled hunits
  have hexact : q = m * 2 ^ e := by
    have h : (units .binary64 (.finite .positive m e hm) : ℚ) / one .binary64 =
        Sign.positive.apply 1 * (m * 2 ^ e) := units_finite_div_one hsettled.1.2.1
    rw [hunits, one_binary64, mul_div_cancel_right₀ _ (by positivity), Sign.apply, Int.cast_one,
      one_mul] at h
    exact h
  have hpos : 0 < q := by
    rw [hexact]
    positivity
  obtain ⟨hlow, hhigh⟩ := value_shortest_bounds .binary64 hm e
  rw [← hexact, ← hvalue] at hlow hhigh
  -- no value is smaller than the unit
  have hunit : 1 / 2 ^ 1074 ≤ q := by
    have h : 1 ≤ units .binary64 (.finite .positive m e hm) := by
      have hpos : (0 : ℚ) < units .binary64 (.finite .positive m e hm) := by
        rw [hunits]
        positivity
      exact Int.cast_pos.mp hpos
    rw [div_le_iff₀ (by positivity), ← hunits, ← Int.cast_one, Int.cast_le]
    exact h
  have hn : 0 < n := by
    rw [Nat.pos_iff_ne_zero]
    rintro rfl
    rw [Nat.cast_zero, zero_div] at hlow
    linarith
  have hlow' : 1 / 2 ^ 1075 ≤ (n / 10 ^ k : ℚ) := by
    refine le_trans ?_ hlow
    rw [pow_succ, ← div_div]
    exact div_le_div_of_nonneg_right hunit (by norm_num)
  have hhigh' : (n / 10 ^ k : ℚ) ≤ 2 ^ 256 := hhigh.trans (by linarith)
  have hfit : fit (n / 10 ^ k) = q := by
    have h := nearest_shortest hsettled
    rw [one_binary64, ← hvalue] at h
    rw [fit, h, div_eq_iff (by positivity), ← hunits, units, Sign.apply]
  have hstands := stands_ofScientific hn hk hlow' hhigh'
  rw [hfit] at hstands
  exact hstands.eq hx hpos.ne'

end Utterance.Decimal
