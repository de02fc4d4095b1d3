import Utterance.Proofs.Binary.Rounding

/-!
# Packing

A canonical value survives packing unless it is too large for the format, when it becomes an
infinity (`unpack_pack`).  In counts of smallest positive values, packing cuts off at the infinities
(`units_settle`).
-/

namespace Utterance.Binary

open Float.Model (Format UnpackedFloat)
open Float.Model.UnpackedFloat

variable {f : Format}

/-! ## The fields of a packed value -/

/-- The exponent field in terms of the `exponentBias`. -/
theorem two_pow_exponentBits (f : Format) : 2 ^ f.exponentBits = 2 * f.exponentBias + 2 := by
  have hpos : 1 ≤ 2 ^ (f.exponentBits - 1) := Nat.one_le_two_pow
  have hsplit : 2 ^ f.exponentBits = 2 * 2 ^ (f.exponentBits - 1) := by
    rw [← pow_succ', Nat.sub_add_cancel f.he]
  rw [hsplit, Format.exponentBias]
  omega

/-- The smallest exponent, `minExponent`, in terms of the bias. -/
theorem minExponent_eq (f : Format) :
    f.minExponent = 1 - (f.exponentBias : ℤ) - f.mantissaBitsWithoutImplicit := by
  have hpos : 1 ≤ 2 ^ (f.exponentBits - 1) := Nat.one_le_two_pow
  simp only [Format.minExponent, Format.exponentBias, Format.mantissaBits]
  push_cast [hpos]
  ring

/-- A word made of two by `++`, as a number. -/
private theorem toNat_append {v w : ℕ} (x : BitVec v) (y : BitVec w) :
    (x ++ y).toNat = x.toNat * 2 ^ w + y.toNat := by
  rw [BitVec.toNat_append, ← Nat.shiftLeft_add_eq_or_of_lt y.isLt, Nat.shiftLeft_eq]

/-- The word that `packComponents` makes, as a number: sign, exponent and significand from the
highest digit down. -/
theorem toNat_packComponents (s : Sign) (e : BitVec f.exponentBits)
    (m : BitVec f.mantissaBitsWithoutImplicit) :
    (packComponents f s e m).toNat =
      (s.toBitVec.toNat * 2 ^ f.exponentBits + e.toNat) * 2 ^ f.mantissaBitsWithoutImplicit +
        m.toNat := by
  rw [packComponents, toNat_append, toNat_append]

/-- The exponent field of an infinity is not that of a zero, `0#_`, since a format has at least one
exponent bit. -/
theorem neg_one_ne_zero_exponent (f : Format) : (-1#f.exponentBits) ≠ 0#_ := by
  intro h
  have htoNat := congrArg BitVec.toNat h
  have hpow := two_pow_exponentBits f
  simp only [BitVec.neg_one_eq_allOnes, BitVec.toNat_allOnes, BitVec.toNat_zero] at htoNat
  omega

/-- What `unpack` reads back from the fields that `packComponents` packed. -/
theorem unpack_packComponents (s : Sign) (e : BitVec f.exponentBits)
    (m : BitVec f.mantissaBitsWithoutImplicit) :
    unpack f (packComponents f s e m) =
      if e = -1#_ then
        if m = 0#_ then .infinity s else .notANumber
      else if e = 0#_ then
        if h : m = 0#_ then .zero s
        else .finite s m.toNat f.minExponent (by simpa [BitVec.toNat_pos, BitVec.pos_iff_ne_zero])
      else
        .finite s (2 ^ f.mantissaBitsWithoutImplicit + m.toNat)
          (e.toNat - (f.exponentBias + f.mantissaBitsWithoutImplicit)) (by positivity) := by
  -- the leading digit that is not stored
  have himplicit : (1#1 ++ m).toNat = 2 ^ f.mantissaBitsWithoutImplicit + m.toNat := by
    rw [toNat_append, BitVec.toNat_one (by decide), one_mul]
  simp only [unpack, unpackMantissa_packComponents, unpackExponent_packComponents,
    unpackSign_packComponents, Sign.ofBitVec_toBitVec, himplicit]
  -- an exponent of ones, of zeros, or in between
  split
  · rfl
  · split
    · -- a subnormal has the smallest exponent, like the first normal numbers
      next h =>
      have hexp : (e.toNat : ℤ) - (f.exponentBias + f.mantissaBitsWithoutImplicit) + 1 =
          f.minExponent := by
        rw [h, BitVec.toNat_zero, minExponent_eq]
        omega
      simp only [hexp]
    · rfl

/-- `pack` writes a normal value field by field, its leading digit left out. -/
private theorem pack_normal (s : Sign) {e : BitVec f.exponentBits}
    {m : BitVec f.mantissaBitsWithoutImplicit} (hinf : e ≠ -1#_)
    (hpos : 0 < 2 ^ f.mantissaBitsWithoutImplicit + m.toNat) :
    pack f (.finite s (2 ^ f.mantissaBitsWithoutImplicit + m.toNat)
      (e.toNat - (f.exponentBias + f.mantissaBitsWithoutImplicit)) hpos) =
      packComponents f s e m := by
  have hm := m.isLt
  have he := e.isLt
  have hinf' : e.toNat ≠ 2 ^ f.exponentBits - 1 := fun h => hinf <| by
    rw [BitVec.neg_one_eq_allOnes, ← BitVec.toNat_inj, BitVec.toNat_allOnes, h]
  -- the bias goes and comes, and the leading digit is dropped
  have hexp : ((e.toNat : ℤ) - (f.exponentBias + f.mantissaBitsWithoutImplicit) +
      f.exponentBias + f.mantissaBitsWithoutImplicit).toNat = e.toNat := by
    omega
  have hlog : (2 ^ f.mantissaBitsWithoutImplicit + m.toNat).log2 =
      f.mantissaBitsWithoutImplicit := by
    rw [Nat.log2_eq_iff hpos.ne']
    exact ⟨Nat.le_add_right _ _, by rw [pow_succ]; omega⟩
  have hmantissa : BitVec.ofNat f.mantissaBitsWithoutImplicit
      (2 ^ f.mantissaBitsWithoutImplicit + m.toNat) = m := by
    apply BitVec.eq_of_toNat_eq
    rw [BitVec.toNat_ofNat, Nat.add_mod_left, Nat.mod_eq_of_lt hm]
  rw [pack, if_neg (by omega), if_pos (by rw [hlog, mantissaBits_eq])]
  simp only [hexp, hmantissa, BitVec.ofNat_toNat, BitVec.setWidth_eq]

/-! ## Canonical values -/

/-- The largest exponent of a finite value of the format `f`. -/
def maxExponent (f : Format) : ℤ :=
  f.exponentBias - f.mantissaBitsWithoutImplicit

/-- A value with infinity in place of what is too large for the format `f`. -/
def settle (f : Format) : UnpackedFloat → UnpackedFloat
  | .finite s m e h => if maxExponent f < e then .infinity s else .finite s m e h
  | u => u

/-- What `unpack` can give. -/
def Settled (f : Format) (u : UnpackedFloat) : Prop :=
  Canonical f u ∧ settle f u = u

/-- The format has finite values other than zero. -/
class Proper (f : Format) : Prop where
  exponentBias_pos : 0 < f.exponentBias

/-- The format `binary32` is `Proper`. -/
instance : Proper .binary32 := ⟨by decide⟩

/-- The format `binary64` is `Proper`. -/
instance : Proper .binary64 := ⟨by decide⟩

variable [Proper f]

/-- A `Proper` format has an exponent for its finite values. -/
theorem minExponent_le_maxExponent (f : Format) [Proper f] :
    f.minExponent ≤ maxExponent f := by
  have hbias := Proper.exponentBias_pos (f := f)
  rw [minExponent_eq, maxExponent]
  omega

/-- What `unpack` gives is settled. -/
theorem settled_unpack (b : BitVec f.numBits) : Settled f (unpack f b) := by
  -- the cases are those of the exponent field: all ones, all zeros, and in between
  rw [← packComponents_unpackSign_unpackExponent_unpackMantissa b, unpack_packComponents]
  set s := Sign.ofBitVec (unpackSign b)
  set e := unpackExponent b
  set m := unpackMantissa b
  have hm := m.isLt
  have he := e.isLt
  have hpow := two_pow_exponentBits f
  have hmin := minExponent_eq f
  have hbits : 2 ^ f.mantissaBits = 2 * 2 ^ f.mantissaBitsWithoutImplicit := by
    rw [mantissaBits_eq, pow_succ']
  split
  · split <;> exact ⟨trivial, rfl⟩
  · next hinf =>
    have hfinite : e.toNat ≠ 2 ^ f.exponentBits - 1 := fun h => hinf <| by
      rw [BitVec.neg_one_eq_allOnes, ← BitVec.toNat_inj, BitVec.toNat_allOnes, h]
    split
    · split
      · exact ⟨trivial, rfl⟩
      · exact ⟨⟨by omega, le_rfl, .inr rfl⟩, if_neg (minExponent_le_maxExponent f).not_gt⟩
    · next hzero =>
      have hpos : e.toNat ≠ 0 := fun h => hzero (BitVec.eq_of_toNat_eq h)
      refine ⟨⟨by omega, by omega, .inl (by omega)⟩, if_neg ?_⟩
      rw [maxExponent]
      omega

/-! ## Packing and unpacking -/

/-- `pack` writes a subnormal value with an exponent field of zero. -/
private theorem pack_subnormal (s : Sign) {m : BitVec f.mantissaBitsWithoutImplicit}
    (hm : 0 < m.toNat) :
    pack f (.finite s m.toNat f.minExponent hm) = packComponents f s 0#_ m := by
  have hpow := two_pow_exponentBits f
  have hmin := minExponent_eq f
  have hbias := Proper.exponentBias_pos (f := f)
  have hlog : m.toNat.log2 + 1 ≠ f.mantissaBits := by
    have := (Nat.log2_lt hm.ne').mpr m.isLt
    rw [mantissaBits_eq]
    omega
  rw [pack, if_neg (by omega), if_neg hlog, BitVec.ofNat_toNat, BitVec.setWidth_eq]

/-- A canonical value survives `pack` and `unpack`, up to the cut to the infinities. -/
theorem unpack_pack {u : UnpackedFloat} (hu : Canonical f u) :
    unpack f (pack f u) = settle f u := by
  have hpow := two_pow_exponentBits f
  have hmin := minExponent_eq f
  have hne := neg_one_ne_zero_exponent f
  cases u with
  | notANumber =>
    -- the usual NaN has the leading bit of its significand set
    have hquiet :
        (1#f.mantissaBitsWithoutImplicit <<< (f.mantissaBitsWithoutImplicit - 1)) ≠ 0#_ := by
      intro h
      have htoNat := congrArg BitVec.toNat h
      have hm := f.hm
      have hone : 1 < 2 ^ f.mantissaBitsWithoutImplicit := Nat.one_lt_two_pow hm.ne'
      have hpos := Nat.two_pow_pos (f.mantissaBitsWithoutImplicit - 1)
      have hlt : 2 ^ (f.mantissaBitsWithoutImplicit - 1) < 2 ^ f.mantissaBitsWithoutImplicit :=
        Nat.pow_lt_pow_right (by decide) (by omega)
      rw [BitVec.toNat_shiftLeft, BitVec.toNat_ofNat, Nat.mod_eq_of_lt hone, Nat.shiftLeft_eq,
        one_mul, Nat.mod_eq_of_lt hlt, BitVec.toNat_zero] at htoNat
      omega
    rw [pack, packedNaN, unpack_packComponents, if_pos rfl, if_neg hquiet]
    rfl
  | infinity s =>
    rw [pack, packedInfinity, unpack_packComponents, if_pos rfl]
    exact if_pos rfl
  | zero s =>
    show unpack f (packComponents f s 0#_ 0#_) = _
    rw [unpack_packComponents, if_neg (Ne.symm hne), if_pos rfl]
    exact dif_pos rfl
  | finite s m e hm =>
    obtain ⟨hlt, hle, hfull⟩ := hu
    rw [mantissaBits_eq, pow_succ] at hlt
    rw [settle]
    split
    -- too large for the format: packed as an infinity
    · next hbig =>
      rw [maxExponent] at hbig
      rw [pack, if_pos (by omega), packedInfinity, unpack_packComponents, if_pos rfl]
      exact if_pos rfl
    · next hsmall =>
      rw [maxExponent] at hsmall
      by_cases hnormal : 2 ^ f.mantissaBitsWithoutImplicit ≤ m
      · -- a normal value is read off an exponent field `E` and the significand's last digits
        obtain ⟨m, rfl⟩ : ∃ m' : BitVec f.mantissaBitsWithoutImplicit,
            m = 2 ^ f.mantissaBitsWithoutImplicit + m'.toNat :=
          ⟨BitVec.ofNat _ (m - 2 ^ f.mantissaBitsWithoutImplicit), by
            rw [BitVec.toNat_ofNat, Nat.mod_eq_of_lt (by omega)]
            omega⟩
        obtain ⟨E, rfl⟩ : ∃ E : BitVec f.exponentBits,
            e = E.toNat - (f.exponentBias + f.mantissaBitsWithoutImplicit) :=
          ⟨BitVec.ofNat _ (e + f.exponentBias + f.mantissaBitsWithoutImplicit).toNat, by
            rw [BitVec.toNat_ofNat, Nat.mod_eq_of_lt (by omega)]
            omega⟩
        have hzero : E ≠ 0#_ := by
          rintro rfl
          rw [BitVec.toNat_zero] at hle
          omega
        have hinf : E ≠ -1#_ := by
          rintro rfl
          rw [BitVec.neg_one_eq_allOnes, BitVec.toNat_allOnes] at hsmall
          omega
        rw [pack_normal s hinf, unpack_packComponents, if_neg hinf, if_neg hzero]
      · -- a short significand is its own field, with an exponent field of zero
        obtain ⟨m, rfl⟩ : ∃ m' : BitVec f.mantissaBitsWithoutImplicit, m = m'.toNat :=
          ⟨BitVec.ofNat _ m, by rw [BitVec.toNat_ofNat, Nat.mod_eq_of_lt (by omega)]⟩
        obtain rfl : e = f.minExponent := hfull.resolve_left hnormal
        have hnonzero : m ≠ 0#_ := by
          rintro rfl
          exact absurd hm (by simp)
        rw [pack_subnormal, unpack_packComponents, if_neg (Ne.symm hne), if_pos rfl,
          dif_neg hnonzero]

/-! ## Counts of packed values -/

/-- The count of a value up to `maxExponent` stays below the one for infinity. -/
theorem significand_lt_ceiling {s : Sign} {m : ℕ} {e : ℤ} {hm : 0 < m}
    (hu : Canonical f (.finite s m e hm)) (he : e ≤ maxExponent f) :
    (m : ℤ) * 2 ^ (e - f.minExponent).toNat < ceiling f := by
  have hpow := two_pow_exponentBits f
  have hmin := minExponent_eq f
  have hbias := Proper.exponentBias_pos (f := f)
  rw [maxExponent] at he
  -- the largest exponent leaves room for all digits of a significand below the ceiling
  have hexp : (e - f.minExponent).toNat + f.mantissaBits ≤
      2 ^ f.exponentBits - 2 + f.mantissaBitsWithoutImplicit := by
    rw [mantissaBits_eq]
    omega
  have h : m * 2 ^ (e - f.minExponent).toNat < 2 ^ f.mantissaBits * 2 ^ (e - f.minExponent).toNat :=
    Nat.mul_lt_mul_of_pos_right hu.1 (Nat.two_pow_pos _)
  rw [← pow_add, Nat.add_comm] at h
  rw [ceiling]
  exact_mod_cast h.trans_le (Nat.pow_le_pow_right (by decide) hexp)

/-- The count of a value beyond `maxExponent` is no smaller than the one for infinity. -/
theorem ceiling_le_significand {s : Sign} {m : ℕ} {e : ℤ} {hm : 0 < m}
    (hu : Canonical f (.finite s m e hm)) (he : maxExponent f < e) :
    (ceiling f : ℤ) ≤ m * 2 ^ (e - f.minExponent).toNat := by
  have hpow := two_pow_exponentBits f
  have hmin := minExponent_eq f
  have hbias := Proper.exponentBias_pos (f := f)
  rw [maxExponent] at he
  have hfull : 2 ^ f.mantissaBitsWithoutImplicit ≤ m := hu.2.2.resolve_right (by omega)
  have hexp : 2 ^ f.exponentBits - 2 ≤ (e - f.minExponent).toNat := by omega
  rw [ceiling, Nat.add_comm, pow_add]
  exact_mod_cast Nat.mul_le_mul hfull (Nat.pow_le_pow_right (by decide) hexp)

/-- In counts, `settle` is a limit on the size. -/
theorem units_settle {u : UnpackedFloat} (hu : Canonical f u) :
    units f (settle f u) = saturate f (units f u) := by
  have hc := ceiling_pos f
  -- every kind stands for a count, and only what is too large is cut
  cases u with
  | notANumber =>
    simp only [settle, units, saturate]
    omega
  | infinity s =>
    cases s <;> simp only [settle, units, saturate, Sign.apply] <;> omega
  | zero s =>
    simp only [settle, units, saturate]
    omega
  | finite s m e hm =>
    rw [settle]
    split
    · next hbig =>
      -- above the largest exponent the count is past the ceiling
      have hsize := ceiling_le_significand hu hbig
      cases s <;> simp only [units, saturate, Sign.apply] <;> omega
    · next hsmall =>
      -- up to it, it is below
      have hsize := significand_lt_ceiling hu (not_lt.mp hsmall)
      have hnonneg : 0 ≤ (m : ℤ) * 2 ^ (e - f.minExponent).toNat := by positivity
      cases s <;> simp only [units, saturate, Sign.apply] <;> omega

omit [Proper f] in
/-- The exponent of a settled value is at most `maxExponent`. -/
theorem Settled.le_maxExponent {s : Sign} {m : ℕ} {e : ℤ} {hm : 0 < m}
    (hu : Settled f (.finite s m e hm)) : e ≤ maxExponent f := by
  by_contra he
  have h := hu.2
  rw [settle, if_pos (not_le.mp he)] at h
  cases h

end Utterance.Binary
