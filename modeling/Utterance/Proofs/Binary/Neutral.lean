import Utterance.Proofs.Binary.Arithmetic

/-!
# Neutral operands

Multiplication and division by 1 and subtraction of 0 leave a binary32 value as it is, down to the
sign of a zero.  The infinities, NaN and the subnormal values are no exception.

A number other than a zero is determined by its count (`eq_of_count_eq`), and so by what rounding
says about it.  The two zeros, and only these, have a count of 0 (`eq_zero_of_count_eq_zero`).
-/

namespace Utterance.Binary

open Float.Model (Format UnpackedFloat)
open Float.Model.UnpackedFloat

variable {x y : Float32}

/-- Values for which `compare` has `.eq` are the same, unless they are zeros. -/
private theorem eq_of_compare_eq {u v : UnpackedFloat} (h : u.compare v = some .eq)
    (hu : ∀ s, u ≠ .zero s) : u = v := by
  -- values of different kinds never compare equal
  cases u with
  | notANumber => cases h
  | zero s => exact absurd rfl (hu s)
  | infinity s =>
    cases v with
    | notANumber => cases s <;> cases h
    | infinity t => cases s <;> cases t <;> first | rfl | cases h
    | zero t => cases s <;> cases h
    | finite t n e' hn => cases s <;> cases h
  | finite s m e hm =>
    cases v with
    | notANumber => cases s <;> cases h
    | infinity t => cases s <;> cases t <;> cases h
    | zero t => cases s <;> cases h
    | finite t n e' hn =>
      cases s <;> cases t <;> simp only [UnpackedFloat.compare, Option.some.injEq] at h <;>
        -- two of a sign are equal if exponent and significand are
        try cases h
      · rw [Ordering.swap_eq_eq, Ordering.then_eq_eq, compare_eq_iff_eq, compare_eq_iff_eq] at h
        obtain ⟨rfl, rfl⟩ := h
        rfl
      · rw [Ordering.then_eq_eq, compare_eq_iff_eq, compare_eq_iff_eq] at h
        obtain ⟨rfl, rfl⟩ := h
        rfl

/-- A number of a format other than a zero is determined by its `units`. -/
theorem eq_of_units_eq {f : Format} [Proper f] {u v : UnpackedFloat} (hu : Settled f u)
    (hv : Settled f v) (hu' : u ≠ .notANumber) (hv' : v ≠ .notANumber)
    (h : units f u = units f v) (hne : units f u ≠ 0) : u = v := by
  refine eq_of_compare_eq ?_ fun s hs => hne ?_
  · rw [compare_eq_some hu hv hu' hv', h, Int.compare_eq_eq.mpr rfl]
  · rw [hs, units]

/-- A number other than a zero is determined by its `count`. -/
theorem eq_of_count_eq (hx : x.isNaN = false) (hy : y.isNaN = false) (h : count x = count y)
    (hne : count x ≠ 0) : x = y :=
  ext_unpack (eq_of_units_eq (settled_unpack32 x) (settled_unpack32 y)
    (isNaN_eq_false_iff.mp hx) (isNaN_eq_false_iff.mp hy) h hne)

/-- A value with a significand has a `count` other than 0. -/
private theorem count_ne_zero {s : Sign} {m : ℕ} {e : ℤ} {hm : 0 < m}
    (h : x.toModel.unpack = .finite s m e hm) : count x ≠ 0 := by
  have hpos : (0 : ℤ) < m * 2 ^ (e - Format.binary32.minExponent).toNat := by positivity
  rw [count, h, units]
  cases s <;> simp only [Sign.apply] <;> omega

/-- The zero that ranks below `0`, though the two are equal. -/
def negZero : Float32 := .ofBits 0x80000000

/-- Only `0` and `negZero` have a count of 0. -/
theorem eq_zero_of_count_eq_zero (hx : x.isNaN = false) (h : count x = 0) :
    x = 0 ∨ x = negZero := by
  -- a finite value that is not zero has a significand, and so a count
  cases hu : x.toModel.unpack with
  | notANumber => exact absurd hu (isNaN_eq_false_iff.mp hx)
  | zero s =>
    cases s with
    | positive => exact .inl (ext_unpack hu)
    | negative => exact .inr (ext_unpack hu)
  | infinity s =>
    have hlimit := ceiling_pos .binary32
    rw [count, hu, units] at h
    cases s <;> simp only [Sign.apply] at h <;> omega
  | finite s m e hm => exact absurd h (count_ne_zero hu)

/-- `pack` gives back a value that `unpack` took apart. -/
theorem ofModel_pack_unpack (x : Float32) : Float32.ofModel (.pack x.toModel.unpack) = x := by
  obtain ⟨hcanonical, hsettled⟩ := settled_unpack32 x
  exact ext_unpack ((unpack_ofModel_pack hcanonical).trans hsettled)

/-- `x - 0` is `x`, also when `x` is a zero: it keeps its sign. -/
@[simp] protected theorem sub_zero (x : Float32) : x - 0 = x := by
  have hsub : sub .binary32 x.toModel.unpack (.zero .positive) = x.toModel.unpack := by
    cases x.toModel.unpack with
    | zero s => cases s <;> rfl
    | notANumber | infinity s | finite s m e hm => rfl
  show Float32.ofModel (.pack (sub .binary32 x.toModel.unpack (.zero .positive))) = x
  rw [hsub, ofModel_pack_unpack]

/-- An operation that keeps zeros, infinities and NaN, and rounds a finite value to its own `count`,
changes nothing. -/
private theorem eq_self_of_operation (operation : UnpackedFloat → UnpackedFloat)
    (hsigned : ∀ s, operation (.infinity s) = .infinity s ∧ operation (.zero s) = .zero s)
    (hundefined : operation .notANumber = .notANumber)
    (hfinite : x.isFinite = true →
      (Float32.ofModel (.pack (operation x.toModel.unpack))).isNaN = false ∧
        count (.ofModel (.pack (operation x.toModel.unpack))) = count x) :
    Float32.ofModel (.pack (operation x.toModel.unpack)) = x := by
  -- only a finite value is rounded, the others are cases of the operation itself
  cases hu : x.toModel.unpack with
  | notANumber => rw [hundefined, ← hu, ofModel_pack_unpack]
  | infinity s => rw [(hsigned s).1, ← hu, ofModel_pack_unpack]
  | zero s => rw [(hsigned s).2, ← hu, ofModel_pack_unpack]
  | finite s m e hm =>
    have hx : x.isFinite = true := by
      show x.toModel.unpack.isFinite = true
      rw [hu]
      rfl
    obtain ⟨hnan, hcount⟩ := hfinite hx
    have hne := hcount ▸ count_ne_zero hu
    rw [← hu]
    exact eq_of_count_eq hnan (isNaN_of_isFinite hx) hcount hne

/-- With 1 as the other operand, `nearest` has the exact product and quotient, which are on the
grid. -/
private theorem nearest_mul_count_one (x : Float32) :
    nearest .binary32 (count x * count 1 / one .binary32) = count x ∧
      nearest .binary32 (count x * one .binary32 / count 1) = count x := by
  have hone : (count 1 : ℚ) = one .binary32 := by
    rw [count_one, one_binary32, Int.cast_pow, Int.cast_ofNat]
  rw [hone, mul_div_cancel_right₀ _ (one_pos .binary32).ne', nearest_eq_self (grid_count x)]
  exact ⟨rfl, rfl⟩

/-- `x * 1` is `x`. -/
@[simp] protected theorem mul_one (x : Float32) : x * 1 = x := by
  refine eq_self_of_operation (fun u => mul .binary32 u (1 : Float32).toModel.unpack)
    (fun s => by cases s <;> exact ⟨rfl, rfl⟩) rfl fun hx => ?_
  obtain ⟨hnan, hcount⟩ := mul_of_isFinite hx isFinite_one
  exact ⟨hnan, hcount.trans (nearest_mul_count_one x).1⟩

/-- `x / 1` is `x`. -/
@[simp] protected theorem div_one (x : Float32) : x / 1 = x := by
  refine eq_self_of_operation (fun u => div .binary32 u (1 : Float32).toModel.unpack)
    (fun s => by cases s <;> exact ⟨rfl, rfl⟩) rfl fun hx => ?_
  obtain ⟨hnan, hcount⟩ := div_of_isFinite hx isFinite_one (by decide)
  exact ⟨hnan, hcount.trans (nearest_mul_count_one x).2⟩

/-- No value but 1 is `==` to it. -/
theorem beq_one_iff : (x == 1) = true ↔ x = 1 := by
  constructor
  · intro h
    obtain ⟨hx, hone, hcount⟩ := beq_iff.mp h
    exact (eq_of_count_eq hone hx hcount.symm (by decide)).symm
  · rintro rfl
    decide

end Utterance.Binary
