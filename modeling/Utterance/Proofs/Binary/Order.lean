import Utterance.Binary
import Utterance.Proofs.Binary.Packing

/-!
# The order of binary32 values

`count x` is a binary32 value in units of the smallest positive one.  Comparisons of values that are
numbers are comparisons of their counts (`le_iff`, `lt_iff`, `beq_iff`), an infinity is a count at
the ceiling, and the total order `rank` refines the order of counts.
-/

namespace Utterance.Binary

open Float.Model (Format UnpackedFloat)
open Float.Model.UnpackedFloat

/-! ## Comparing unpacked values -/

section Unpacked

/-- Negation turns a `compare` of integers around. -/
private theorem compare_neg_neg (a b : ℤ) : compare (-a) (-b) = compare b a := by
  rcases lt_trichotomy a b with h | rfl | h
  · rw [Int.compare_eq_gt.mpr h, Int.compare_eq_gt.mpr (by omega)]
  · rw [Int.compare_eq_eq.mpr rfl, Int.compare_eq_eq.mpr rfl]
  · rw [Int.compare_eq_lt.mpr h, Int.compare_eq_lt.mpr (by omega)]

variable {f : Format} [Proper f]

omit [Proper f] in
/-- At `Canonical` values, exponents and then significands decide the comparison. -/
private theorem compare_significands {m₁ m₂ : ℕ} {e₁ e₂ : ℤ} (h₁ : 0 < m₁) (h₂ : 0 < m₂)
    (hu : Canonical f (.finite .positive m₁ e₁ h₁))
    (hv : Canonical f (.finite .positive m₂ e₂ h₂)) :
    (compare e₁ e₂).then (compare m₁ m₂) =
      compare ((m₁ : ℤ) * 2 ^ (e₁ - f.minExponent).toNat)
        ((m₂ : ℤ) * 2 ^ (e₂ - f.minExponent).toNat) := by
  -- the value with the larger exponent has a full significand
  have hlt : ∀ {m₁ m₂ : ℕ} {e₁ e₂ : ℤ}, m₁ < 2 ^ f.mantissaBits → f.minExponent ≤ e₁ →
      (2 ^ f.mantissaBitsWithoutImplicit ≤ m₂ ∨ e₂ = f.minExponent) → e₁ < e₂ →
      (m₁ : ℤ) * 2 ^ (e₁ - f.minExponent).toNat < (m₂ : ℤ) * 2 ^ (e₂ - f.minExponent).toNat := by
    intro m₁ m₂ e₁ e₂ hm₁ he₁ hm₂ he
    have hfull : 2 ^ f.mantissaBitsWithoutImplicit ≤ m₂ := hm₂.resolve_right (by omega)
    have hpow : (2 : ℤ) ^ ((e₁ - f.minExponent).toNat + 1) ≤ 2 ^ (e₂ - f.minExponent).toNat :=
      pow_le_pow_right₀ (by norm_num) (by omega)
    rw [mantissaBits_eq] at hm₁
    calc (m₁ : ℤ) * 2 ^ (e₁ - f.minExponent).toNat
        < 2 ^ (f.mantissaBitsWithoutImplicit + 1) * 2 ^ (e₁ - f.minExponent).toNat :=
          mul_lt_mul_of_pos_right (by exact_mod_cast hm₁) (by positivity)
      _ = 2 ^ f.mantissaBitsWithoutImplicit * 2 ^ ((e₁ - f.minExponent).toNat + 1) := by ring
      _ ≤ 2 ^ f.mantissaBitsWithoutImplicit * 2 ^ (e₂ - f.minExponent).toNat :=
          mul_le_mul_of_nonneg_left hpow (by positivity)
      _ ≤ (m₂ : ℤ) * 2 ^ (e₂ - f.minExponent).toNat :=
          mul_le_mul_of_nonneg_right (by exact_mod_cast hfull) (by positivity)
  obtain ⟨hm₁, he₁, hf₁⟩ := hu
  obtain ⟨hm₂, he₂, hf₂⟩ := hv
  rcases lt_trichotomy e₁ e₂ with he | rfl | he
  · rw [compare_lt_iff_lt.mpr he, compare_lt_iff_lt.mpr (hlt hm₁ he₁ hf₂ he)]
    rfl
  · -- at equal exponents the significands decide
    have hpos : (0 : ℤ) < 2 ^ (e₁ - f.minExponent).toNat := by positivity
    rw [compare_eq_iff_eq.mpr rfl]
    rcases lt_trichotomy m₁ m₂ with hm | rfl | hm
    · rw [compare_lt_iff_lt.mpr hm,
        compare_lt_iff_lt.mpr (mul_lt_mul_of_pos_right (by exact_mod_cast hm) hpos)]
      rfl
    · rw [compare_eq_iff_eq.mpr rfl, compare_eq_iff_eq.mpr rfl]
      rfl
    · rw [compare_gt_iff_gt.mpr hm,
        compare_gt_iff_gt.mpr (mul_lt_mul_of_pos_right (by exact_mod_cast hm) hpos)]
      rfl
  · rw [compare_gt_iff_gt.mpr he, compare_gt_iff_gt.mpr (hlt hm₂ he₂ hf₁ he)]
    rfl

/-- A `Settled` finite value other than zero lies strictly between zero and infinity. -/
private theorem Settled.significand_bounds {s : Sign} {m : ℕ} {e : ℤ} {hm : 0 < m}
    (hu : Settled f (.finite s m e hm)) :
    0 < (m : ℤ) * 2 ^ (e - f.minExponent).toNat ∧
      (m : ℤ) * 2 ^ (e - f.minExponent).toNat < ceiling f :=
  ⟨by positivity, significand_lt_ceiling hu.1 hu.le_maxExponent⟩

/-- `compare` of two numbers is the comparison of their `units`. -/
theorem compare_eq_some {u v : UnpackedFloat} (hu : Settled f u) (hv : Settled f v)
    (hu' : u ≠ .notANumber) (hv' : v ≠ .notANumber) :
    u.compare v = some (compare (units f u) (units f v)) := by
  have hc := ceiling_pos f
  -- where signs or kinds differ, the bounds on finite counts decide
  have hlt : ∀ {a b : ℤ}, a < b → some Ordering.lt = some (compare a b) :=
    fun h => congrArg some (Int.compare_eq_lt.mpr h).symm
  have hgt : ∀ {a b : ℤ}, b < a → some Ordering.gt = some (compare a b) :=
    fun h => congrArg some (Int.compare_eq_gt.mpr h).symm
  have heq : ∀ {a b : ℤ}, a = b → some Ordering.eq = some (compare a b) :=
    fun h => congrArg some (Int.compare_eq_eq.mpr h).symm
  cases u with
  | notANumber => exact absurd rfl hu'
  | infinity s =>
    cases v with
    | notANumber => exact absurd rfl hv'
    | infinity t =>
      cases s <;> cases t <;> simp only [units, Sign.apply] <;>
        first | exact hlt (by omega) | exact hgt (by omega) | exact heq rfl
    | zero t =>
      cases s <;> simp only [units, Sign.apply] <;>
        first | exact hlt (by omega) | exact hgt (by omega)
    | finite t m e hm =>
      have hbounds := hv.significand_bounds
      cases s <;> cases t <;> simp only [units, Sign.apply] <;>
        first | exact hlt (by omega) | exact hgt (by omega)
  | zero s =>
    cases v with
    | notANumber => exact absurd rfl hv'
    | infinity t =>
      cases t <;> simp only [units, Sign.apply] <;>
        first | exact hlt (by omega) | exact hgt (by omega)
    | zero t => exact heq rfl
    | finite t m e hm =>
      have hbounds := hv.significand_bounds
      cases t <;> simp only [units, Sign.apply] <;>
        first | exact hlt (by omega) | exact hgt (by omega)
  | finite s m e hm =>
    have hbounds := hu.significand_bounds
    cases v with
    | notANumber => exact absurd rfl hv'
    | infinity t =>
      cases s <;> cases t <;> simp only [units, Sign.apply] <;>
        first | exact hlt (by omega) | exact hgt (by omega)
    | zero t =>
      cases s <;> simp only [units, Sign.apply] <;>
        first | exact hlt (by omega) | exact hgt (by omega)
    | finite t n e' hn =>
      have hbounds' := hv.significand_bounds
      cases s <;> cases t <;> simp only [units, Sign.apply]
      · -- of two negative values the one with the larger significand is smaller
        rw [UnpackedFloat.compare, compare_significands hm hn hu.1 hv.1,
          Int.compare_swap]
        exact congrArg some (compare_neg_neg _ _).symm
      · exact hlt (by omega)
      · exact hgt (by omega)
      · exact congrArg some (compare_significands hm hn hu.1 hv.1)

end Unpacked

/-- `compare` of the undefined value with anything has no answer. -/
theorem compare_of_notANumber {u v : UnpackedFloat} (h : u = .notANumber ∨ v = .notANumber) :
    u.compare v = none := by
  rcases h with rfl | rfl
  · rfl
  · cases u <;> rfl

/-! ## Counts of binary32 values -/

/-- Every `Float32` unpacks to a `Settled` form. -/
theorem settled_unpack32 (x : Float32) : Settled .binary32 x.toModel.unpack :=
  settled_unpack _

/-- A value is determined by what `unpack` makes of it. -/
theorem ext_unpack {x y : Float32} (h : x.toModel.unpack = y.toModel.unpack) : x = y := by
  obtain ⟨⟨a, ha⟩⟩ := x
  obtain ⟨⟨b, hb⟩⟩ := y
  have hbits : a.toBitVec = b.toBitVec := (unpack_inj_of_valid ha hb).mp h
  obtain rfl : a = b := UInt32.toBitVec_inj.mp hbits
  rfl

/-- A packed canonical value unpacks to itself, up to the cut to the infinities that `settle`
makes. -/
theorem unpack_ofModel_pack {u : UnpackedFloat} (hu : Canonical .binary32 u) :
    (Float32.ofModel (.pack u)).toModel.unpack = settle .binary32 u :=
  unpack_pack hu

/-- How many smallest positive values make up `x`.  The infinities are the first counts beyond the
finite ones. -/
def count (x : Float32) : ℤ :=
  units .binary32 x.toModel.unpack

/-- The `count` of infinity. -/
def limit : ℤ :=
  ceiling .binary32

/-- The `limit` of the counts is positive. -/
theorem limit_pos : 0 < limit := by
  have h := ceiling_pos .binary32
  rw [limit]
  omega

/-- `isNaN` tells whether the unpacked value is the undefined one. -/
theorem isNaN_eq_false_iff {x : Float32} :
    x.isNaN = false ↔ x.toModel.unpack ≠ .notANumber := by
  show x.toModel.unpack.isNaN = false ↔ _
  cases x.toModel.unpack <;> simp [UnpackedFloat.isNaN]

/-- `compare` of binary32 values goes by their counts where both are numbers, and has no answer
elsewhere. -/
theorem compare_unpack (x y : Float32) :
    x.toModel.unpack.compare y.toModel.unpack =
      if x.isNaN = false ∧ y.isNaN = false then some (compare (count x) (count y)) else none := by
  split
  · next h =>
    exact compare_eq_some (settled_unpack32 x) (settled_unpack32 y)
      (isNaN_eq_false_iff.mp h.1) (isNaN_eq_false_iff.mp h.2)
  · next h =>
    apply compare_of_notANumber
    by_contra hboth
    rw [not_or] at hboth
    exact h ⟨isNaN_eq_false_iff.mpr hboth.1, isNaN_eq_false_iff.mpr hboth.2⟩

/-- `x ≤ y` compares the counts of two numbers. -/
theorem le_iff {x y : Float32} :
    x ≤ y ↔ x.isNaN = false ∧ y.isNaN = false ∧ count x ≤ count y := by
  show decide (x.toModel.unpack.le y.toModel.unpack = true) = true ↔ _
  rw [decide_eq_true_iff, UnpackedFloat.le, compare_unpack]
  split
  · next h =>
    rw [and_iff_right h.1, and_iff_right h.2]
    exact Int.isLE_compare
  · next h => exact iff_of_false nofun fun hle => h ⟨hle.1, hle.2.1⟩

/-- `x < y` compares the counts of two numbers. -/
theorem lt_iff {x y : Float32} :
    x < y ↔ x.isNaN = false ∧ y.isNaN = false ∧ count x < count y := by
  show decide (x.toModel.unpack.lt y.toModel.unpack = true) = true ↔ _
  rw [decide_eq_true_iff, UnpackedFloat.lt, compare_unpack]
  split
  · next h =>
    rw [and_iff_right h.1, and_iff_right h.2, beq_iff_eq, Option.some.injEq, Int.compare_eq_lt]
  · next h => exact iff_of_false nofun fun hlt => h ⟨hlt.1, hlt.2.1⟩

/-- `x == y` compares the counts of two numbers: the two zeros are equal, NaN is equal to
nothing. -/
theorem beq_iff {x y : Float32} :
    (x == y) = true ↔ x.isNaN = false ∧ y.isNaN = false ∧ count x = count y := by
  show x.toModel.unpack.beq y.toModel.unpack = true ↔ _
  rw [UnpackedFloat.beq, compare_unpack]
  split
  · next h =>
    rw [and_iff_right h.1, and_iff_right h.2, beq_iff_eq, Option.some.injEq, Int.compare_eq_eq]
  · next h => exact iff_of_false nofun fun heq => h ⟨heq.1, heq.2.1⟩

/-- Numbers are totally ordered by `≤`. -/
theorem not_le_iff {x y : Float32} (hx : x.isNaN = false) (hy : y.isNaN = false) :
    ¬x ≤ y ↔ y < x := by
  rw [le_iff, lt_iff]
  simp only [hx, hy, true_and, not_le]

/-- Numbers are totally ordered by `<`. -/
theorem not_lt_iff {x y : Float32} (hx : x.isNaN = false) (hy : y.isNaN = false) :
    ¬x < y ↔ y ≤ x := by
  rw [le_iff, lt_iff]
  simp only [hx, hy, true_and, not_lt]

/-- No `Float32` is below itself. -/
theorem not_lt_self (x : Float32) : ¬x < x :=
  fun h => lt_irrefl _ (lt_iff.mp h).2.2

/-- `<` implies `≤`. -/
protected theorem le_of_lt {x y : Float32} (h : x < y) : x ≤ y := by
  obtain ⟨hx, hy, hcount⟩ := lt_iff.mp h
  exact le_iff.mpr ⟨hx, hy, hcount.le⟩

/-- `≤` is transitive: the value in the middle is a number, so it has a count. -/
protected theorem le_trans {x y z : Float32} (hxy : x ≤ y) (hyz : y ≤ z) : x ≤ z := by
  obtain ⟨hx, -, hcount⟩ := le_iff.mp hxy
  obtain ⟨-, hz, hcount'⟩ := le_iff.mp hyz
  exact le_iff.mpr ⟨hx, hz, hcount.trans hcount'⟩

/-- `<` and then `≤` is `<`. -/
protected theorem lt_of_lt_of_le {x y z : Float32} (hxy : x < y) (hyz : y ≤ z) : x < z := by
  obtain ⟨hx, -, hcount⟩ := lt_iff.mp hxy
  obtain ⟨-, hz, hcount'⟩ := le_iff.mp hyz
  exact lt_iff.mpr ⟨hx, hz, hcount.trans_le hcount'⟩

/-- `≤` and then `<` is `<`. -/
protected theorem lt_of_le_of_lt {x y z : Float32} (hxy : x ≤ y) (hyz : y < z) : x < z := by
  obtain ⟨hx, -, hcount⟩ := le_iff.mp hxy
  obtain ⟨-, hz, hcount'⟩ := lt_iff.mp hyz
  exact lt_iff.mpr ⟨hx, hz, hcount.trans_lt hcount'⟩

/-! ## Infinities and finite values -/

/-- `isFinite` in terms of the count: an infinity is a count at the limit, and every other count is
closer to zero. -/
theorem isFinite_iff {x : Float32} :
    x.isFinite = true ↔ x.isNaN = false ∧ -limit < count x ∧ count x < limit := by
  have hpos := limit_pos
  have hsettled := settled_unpack32 x
  rw [isNaN_eq_false_iff]
  show x.toModel.unpack.isFinite = true ↔ _
  rw [count, limit] at *
  generalize x.toModel.unpack = u at hsettled ⊢
  -- of the four kinds of values the finite ones and the zeros have smaller counts
  cases u with
  | notANumber => simp [UnpackedFloat.isFinite]
  | infinity s => cases s <;> simp [UnpackedFloat.isFinite, units, Sign.apply]
  | zero s => simpa [UnpackedFloat.isFinite, units] using hpos
  | finite s m e hm =>
    have hbounds := hsettled.significand_bounds
    cases s <;> simp only [UnpackedFloat.isFinite, units, Sign.apply] <;>
      refine iff_of_true trivial ⟨(fun h => by cases h), ?_, ?_⟩ <;> omega

/-- No `count` is beyond the `limit`. -/
theorem abs_count_le (x : Float32) : |count x| ≤ limit := by
  have hpos := limit_pos
  rw [abs_le]
  by_cases hfinite : x.isFinite = true
  · obtain ⟨-, hlow, hhigh⟩ := isFinite_iff.mp hfinite
    omega
  · -- what is not finite has a count at the limit, or none
    revert hfinite
    show ¬x.toModel.unpack.isFinite = true → _
    rw [count, limit] at *
    cases x.toModel.unpack with
    | notANumber => simp [units]
    | infinity s => cases s <;> simp only [units, Sign.apply] <;> omega
    | zero s => simp [UnpackedFloat.isFinite]
    | finite s m e hm => simp [UnpackedFloat.isFinite]

/-- The `count` of the zero. -/
@[simp] theorem count_zero : count 0 = 0 := by decide

/-- Zero is a number: `isNaN` is false of it. -/
@[simp] theorem isNaN_zero : (0 : Float32).isNaN = false := by decide

/-- A value is at least 0 when it is a number with such a `count`. -/
theorem nonneg_iff {x : Float32} : 0 ≤ x ↔ x.isNaN = false ∧ 0 ≤ count x := by
  rw [le_iff, count_zero]
  exact and_iff_right isNaN_zero

/-- A value is positive when it is a number with such a `count`. -/
theorem pos_iff {x : Float32} : 0 < x ↔ x.isNaN = false ∧ 0 < count x := by
  rw [lt_iff, count_zero]
  exact and_iff_right isNaN_zero

/-- A value without a sign is finite when its `count` is at most that of a finite one. -/
theorem isFinite_of_count_le {x y : Float32} (hx : 0 ≤ x) (hle : count x ≤ count y)
    (hy : y.isFinite = true) : x.isFinite = true := by
  obtain ⟨hnan, h0⟩ := nonneg_iff.mp hx
  obtain ⟨-, hlow, hhigh⟩ := isFinite_iff.mp hy
  have hlimit := limit_pos
  exact isFinite_iff.mpr ⟨hnan, by omega, by omega⟩

/-- The infinities are the numbers whose `count` is at the limit. -/
theorem unpack_eq_infinity_iff {x : Float32} {s : Sign} :
    x.toModel.unpack = .infinity s ↔ x.isNaN = false ∧ count x = s.apply limit := by
  have hpos := limit_pos
  have hsettled := settled_unpack32 x
  rw [isNaN_eq_false_iff, count, limit] at *
  generalize x.toModel.unpack = u at hsettled ⊢
  -- only infinity has a count of its own size
  cases u with
  | notANumber => simp
  | infinity t => cases s <;> cases t <;> simp [units, Sign.apply] <;> omega
  | zero t => cases s <;> simp [units, Sign.apply] <;> omega
  | finite t m e hm =>
    -- a finite value stays below the limit
    have hbounds := hsettled.significand_bounds
    cases s <;> cases t <;> simp only [units, Sign.apply] <;>
      refine iff_of_false (fun h => by cases h) fun h => ?_ <;> omega

/-- `+inf` is the number whose count is the limit. -/
theorem eq_infinity_iff {x : Float32} : x = infinity ↔ x.isNaN = false ∧ count x = limit :=
  have hunpack : infinity.toModel.unpack = .infinity .positive := rfl
  ⟨fun h => unpack_eq_infinity_iff.mp (h ▸ hunpack),
    fun h => ext_unpack ((unpack_eq_infinity_iff.mpr h).trans hunpack.symm)⟩

/-- `-inf` is the number whose count is the limit below zero. -/
theorem eq_negInfinity_iff {x : Float32} :
    x = negInfinity ↔ x.isNaN = false ∧ count x = -limit :=
  have hunpack : negInfinity.toModel.unpack = .infinity .negative := rfl
  ⟨fun h => unpack_eq_infinity_iff.mp (h ▸ hunpack),
    fun h => ext_unpack ((unpack_eq_infinity_iff.mpr h).trans hunpack.symm)⟩

/-- `+inf` is a number. -/
@[simp] theorem isNaN_infinity : infinity.isNaN = false :=
  (eq_infinity_iff.mp rfl).1

/-- The `count` of `+inf`. -/
@[simp] theorem count_infinity : count infinity = limit :=
  (eq_infinity_iff.mp rfl).2

/-- `-inf` is a number. -/
@[simp] theorem isNaN_negInfinity : negInfinity.isNaN = false :=
  (eq_negInfinity_iff.mp rfl).1

/-- The `count` of `-inf`. -/
@[simp] theorem count_negInfinity : count negInfinity = -limit :=
  (eq_negInfinity_iff.mp rfl).2

/-- Only `+inf` compares as equal to `+inf`. -/
@[simp] theorem beq_infinity {x : Float32} : (x == infinity) = true ↔ x = infinity := by
  rw [beq_iff, eq_infinity_iff, count_infinity, isNaN_infinity]
  simp

/-- Only `-inf` compares as equal to `-inf`. -/
@[simp] theorem beq_negInfinity {x : Float32} : (x == negInfinity) = true ↔ x = negInfinity := by
  rw [beq_iff, eq_negInfinity_iff, count_negInfinity, isNaN_negInfinity]
  simp

/-- A number is finite, `+inf` or `-inf`. -/
theorem eq_or_isFinite {x : Float32} (h : x.isNaN = false) :
    x = negInfinity ∨ x.isFinite = true ∨ x = infinity := by
  have hbounds := abs_le.mp (abs_count_le x)
  rw [eq_negInfinity_iff, isFinite_iff, eq_infinity_iff]
  simp only [h, true_and]
  omega

/-- A number is above `-inf` unless it is `-inf`. -/
theorem negInfinity_lt_iff {x : Float32} :
    negInfinity < x ↔ x.isNaN = false ∧ x ≠ negInfinity := by
  have hbounds := abs_le.mp (abs_count_le x)
  rw [lt_iff, Ne, eq_negInfinity_iff, count_negInfinity, isNaN_negInfinity]
  constructor
  · rintro ⟨-, hnan, hlt⟩
    exact ⟨hnan, fun h => by omega⟩
  · rintro ⟨hnan, hne⟩
    have hcount : count x ≠ -limit := fun h => hne ⟨hnan, h⟩
    exact ⟨rfl, hnan, by omega⟩

/-- A number is below `+inf` unless it is `+inf`. -/
theorem lt_infinity_iff {x : Float32} :
    x < infinity ↔ x.isNaN = false ∧ x ≠ infinity := by
  have hbounds := abs_le.mp (abs_count_le x)
  rw [lt_iff, Ne, eq_infinity_iff, count_infinity, isNaN_infinity]
  constructor
  · rintro ⟨hnan, -, hlt⟩
    exact ⟨hnan, fun h => by omega⟩
  · rintro ⟨hnan, hne⟩
    have hcount : count x ≠ limit := fun h => hne ⟨hnan, h⟩
    exact ⟨hnan, rfl, by omega⟩

/-- Nothing is below `-inf`. -/
theorem not_lt_negInfinity (x : Float32) : ¬x < negInfinity := by
  intro h
  have hcount := (lt_iff.mp h).2.2
  have hlow := (abs_le.mp (abs_count_le x)).1
  rw [count_negInfinity] at hcount
  omega

/-- A value that `isFinite` is a number. -/
theorem isNaN_of_isFinite {x : Float32} (h : x.isFinite = true) : x.isNaN = false :=
  (isFinite_iff.mp h).1

/-- A finite value is not `+inf`. -/
theorem ne_infinity_of_isFinite {x : Float32} (h : x.isFinite = true) : x ≠ infinity := by
  rintro rfl
  exact absurd h (by decide)

/-- A finite value is not `-inf`. -/
theorem ne_negInfinity_of_isFinite {x : Float32} (h : x.isFinite = true) : x ≠ negInfinity := by
  rintro rfl
  exact absurd h (by decide)

/-- A finite value is above `-inf`. -/
theorem negInfinity_lt_of_isFinite {x : Float32} (h : x.isFinite = true) : negInfinity < x :=
  negInfinity_lt_iff.mpr ⟨isNaN_of_isFinite h, ne_negInfinity_of_isFinite h⟩

/-- A finite value is below `+inf`. -/
theorem lt_infinity_of_isFinite {x : Float32} (h : x.isFinite = true) : x < infinity :=
  lt_infinity_iff.mpr ⟨isNaN_of_isFinite h, ne_infinity_of_isFinite h⟩

end Utterance.Binary
