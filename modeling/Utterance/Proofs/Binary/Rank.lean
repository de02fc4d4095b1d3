import Utterance.Proofs.Binary.Order

/-!
# The order of bit patterns

Without its sign, a bit pattern read as a number grows with the value that it stands for
(`magnitude_mono`).  So `rank` refines the order of counts (`count_le_of_rank_le`), and the pattern
of a positive value bounds the patterns of all smaller ones.
-/

namespace Utterance.Binary

open Float.Model (Format UnpackedFloat)
open Float.Model.UnpackedFloat

/-! ## Magnitudes -/

section Magnitude

variable {f : Format}

/-- The count of the value without a sign whose exponent and significand, read as one number, are
`n`. -/
def magnitude (f : Format) (n : ℕ) : ℕ :=
  let exponent := n / 2 ^ f.mantissaBitsWithoutImplicit
  let significand := n % 2 ^ f.mantissaBitsWithoutImplicit
  if exponent = 0 then significand
  else (2 ^ f.mantissaBitsWithoutImplicit + significand) * 2 ^ (exponent - 1)

/-- A `magnitude` is below the power of two that its exponent field tells. -/
private theorem magnitude_lt (f : Format) (n : ℕ) :
    magnitude f n <
      2 ^ f.mantissaBitsWithoutImplicit * 2 ^ (n / 2 ^ f.mantissaBitsWithoutImplicit) := by
  have hmod := Nat.mod_lt n (Nat.two_pow_pos f.mantissaBitsWithoutImplicit)
  simp only [magnitude]
  split
  · next h => rwa [h, pow_zero, mul_one]
  · next h =>
    obtain ⟨q, hq⟩ := Nat.exists_eq_succ_of_ne_zero h
    rw [hq, Nat.succ_eq_add_one, Nat.add_sub_cancel, pow_succ', ← mul_assoc]
    exact Nat.mul_lt_mul_of_pos_right (by omega) (Nat.two_pow_pos q)

/-- Beyond the subnormal patterns, a `magnitude` is at least half of that. -/
private theorem le_magnitude {n : ℕ} (h : n / 2 ^ f.mantissaBitsWithoutImplicit ≠ 0) :
    2 ^ f.mantissaBitsWithoutImplicit * 2 ^ (n / 2 ^ f.mantissaBitsWithoutImplicit - 1) ≤
      magnitude f n := by
  simp only [magnitude]
  rw [if_neg h]
  exact Nat.mul_le_mul_right _ (Nat.le_add_right _ _)

/-- Larger patterns stand for larger values: `magnitude` keeps the order. -/
theorem magnitude_mono {m n : ℕ} (h : m ≤ n) : magnitude f m ≤ magnitude f n := by
  rcases (Nat.div_le_div_right (c := 2 ^ f.mantissaBitsWithoutImplicit) h).lt_or_eq with hlt | heq
  · -- a larger exponent beats every significand
    calc magnitude f m
        ≤ 2 ^ f.mantissaBitsWithoutImplicit * 2 ^ (m / 2 ^ f.mantissaBitsWithoutImplicit) :=
          (magnitude_lt f m).le
      _ ≤ 2 ^ f.mantissaBitsWithoutImplicit * 2 ^ (n / 2 ^ f.mantissaBitsWithoutImplicit - 1) :=
          Nat.mul_le_mul_left _ (Nat.pow_le_pow_right (by decide) (Nat.le_sub_one_of_lt hlt))
      _ ≤ magnitude f n := le_magnitude (Nat.ne_zero_of_lt hlt)
  · -- with one exponent the significands decide
    have hmod : m % 2 ^ f.mantissaBitsWithoutImplicit ≤ n % 2 ^ f.mantissaBitsWithoutImplicit := by
      have hm := Nat.div_add_mod m (2 ^ f.mantissaBitsWithoutImplicit)
      have hn := Nat.div_add_mod n (2 ^ f.mantissaBitsWithoutImplicit)
      rw [heq] at hm
      omega
    simp only [magnitude, heq]
    split
    · exact hmod
    · exact Nat.mul_le_mul_right _ (Nat.add_le_add_left hmod _)

/-- Exponent and significand of infinity in the format `f`, read as one number. -/
def infinityPattern (f : Format) : ℕ :=
  (2 ^ f.exponentBits - 1) * 2 ^ f.mantissaBitsWithoutImplicit

/-- The patterns beyond the one of infinity, and only these, unpack to the undefined value. -/
theorem unpack_eq_notANumber_iff (s : Sign) (e : BitVec f.exponentBits)
    (m : BitVec f.mantissaBitsWithoutImplicit) :
    unpack f (packComponents f s e m) = .notANumber ↔
      infinityPattern f < e.toNat * 2 ^ f.mantissaBitsWithoutImplicit + m.toNat := by
  have hm := m.isLt
  have he : e.toNat ≤ 2 ^ f.exponentBits - 1 := Nat.le_pred_of_lt e.isLt
  have hinf : e = -1#_ ↔ e.toNat = 2 ^ f.exponentBits - 1 := by
    rw [BitVec.neg_one_eq_allOnes, ← BitVec.toNat_inj, BitVec.toNat_allOnes]
  have hzero : m = 0#_ ↔ m.toNat = 0 := by rw [← BitVec.toNat_inj, BitVec.toNat_zero]
  rw [unpack_packComponents, infinityPattern]
  split
  · next h =>
    -- under the largest exponent the significand decides
    rw [hinf.mp h]
    split
    · next h => simp [hzero.mp h]
    · next h =>
      have hpos := Nat.pos_of_ne_zero (mt hzero.mpr h)
      exact iff_of_true rfl (Nat.lt_add_of_pos_right hpos)
  · next h =>
    -- any other exponent leaves the pattern below the one of infinity
    refine iff_of_false (by split_ifs <;> nofun) (not_lt.mpr ?_)
    have hle : e.toNat + 1 ≤ 2 ^ f.exponentBits - 1 := by
      have hne := mt hinf.mpr h
      omega
    calc e.toNat * 2 ^ f.mantissaBitsWithoutImplicit + m.toNat
        ≤ (e.toNat + 1) * 2 ^ f.mantissaBitsWithoutImplicit := by rw [add_mul]; omega
      _ ≤ (2 ^ f.exponentBits - 1) * 2 ^ f.mantissaBitsWithoutImplicit :=
          Nat.mul_le_mul_right _ hle

/-- The count of what `packComponents` packed, read off its fields. -/
theorem units_unpack {s : Sign} {e : BitVec f.exponentBits}
    {m : BitVec f.mantissaBitsWithoutImplicit}
    (h : unpack f (packComponents f s e m) ≠ .notANumber) :
    units f (unpack f (packComponents f s e m)) =
      s.apply (magnitude f (e.toNat * 2 ^ f.mantissaBitsWithoutImplicit + m.toNat)) := by
  have hm := m.isLt
  have hpow := two_pow_exponentBits f
  have hmin := minExponent_eq f
  have hdiv : (e.toNat * 2 ^ f.mantissaBitsWithoutImplicit + m.toNat) /
      2 ^ f.mantissaBitsWithoutImplicit = e.toNat := by
    rw [Nat.mul_comm, Nat.mul_add_div (Nat.two_pow_pos _), Nat.div_eq_of_lt hm, Nat.add_zero]
  have hmod : (e.toNat * 2 ^ f.mantissaBitsWithoutImplicit + m.toNat) %
      2 ^ f.mantissaBitsWithoutImplicit = m.toNat := by
    rw [Nat.mul_comm, Nat.mul_add_mod, Nat.mod_eq_of_lt hm]
  have hnan : e = -1#_ → m = 0#_ := by
    intro he
    by_contra hm
    exact h (by rw [unpack_packComponents, if_pos he, if_neg hm])
  rw [unpack_packComponents, magnitude, hdiv, hmod]
  by_cases hinf : e = -1#_
  · -- the infinities, which continue the pattern of the finite values
    have htoNat : e.toNat = 2 ^ f.exponentBits - 1 := by
      rw [hinf, BitVec.neg_one_eq_allOnes, BitVec.toNat_allOnes]
    rw [if_pos hinf, if_pos (hnan hinf), if_neg (by omega), hnan hinf, htoNat, units, ceiling,
      BitVec.toNat_zero, Nat.add_zero, ← pow_add]
    congr 3
    omega
  · rw [if_neg hinf]
    by_cases hsub : e = 0#_
    · -- zero and the subnormal values, without the implicit bit
      rw [if_pos hsub, if_pos (by rw [hsub, BitVec.toNat_zero])]
      split
      · next hzero => cases s <;> simp [units, Sign.apply, hzero]
      · simp [units]
    -- a normal value, whose implicit bit is the leading digit
    · have hpos : e.toNat ≠ 0 := fun h => hsub (BitVec.eq_of_toNat_eq h)
      have hexp : ((e.toNat : ℤ) - (f.exponentBias + f.mantissaBitsWithoutImplicit) -
          f.minExponent).toNat = e.toNat - 1 := by
        omega
      rw [if_neg hsub, if_neg hpos, units, hexp]
      push_cast
      rfl

end Magnitude

/-! ## Ranks -/

/-- A binary32 value is made of three fields, as `packComponents` packs them. -/
private theorem exists_fields (b : UInt32) :
    ∃ (s : Sign) (e : BitVec Format.binary32.exponentBits)
      (m : BitVec Format.binary32.mantissaBitsWithoutImplicit),
      b.toBitVec = packComponents .binary32 s e m ∧
        b.toNat = s.toBitVec.toNat * 2 ^ 31 +
          (e.toNat * 2 ^ Format.binary32.mantissaBitsWithoutImplicit + m.toNat) ∧
        e.toNat * 2 ^ Format.binary32.mantissaBitsWithoutImplicit + m.toNat < 0x80000000 := by
  have hfields := @packComponents_unpackSign_unpackExponent_unpackMantissa .binary32 b.toBitVec
  have htoNat := congrArg BitVec.toNat hfields
  have he := (@unpackExponent .binary32 b.toBitVec).isLt
  have hm := (@unpackMantissa .binary32 b.toBitVec).isLt
  rw [toNat_packComponents, UInt32.toNat_toBitVec] at htoNat
  refine ⟨_, _, _, hfields.symm, ?_, ?_⟩ <;>
    simp only [Format.binary32] at * <;> omega

/-- `ofBits` takes the word as it is. -/
theorem unpack_ofBits (b : UInt32) :
    (Float32.ofBits b).toModel.unpack = unpack .binary32 b.toBitVec := by
  have hsettled := settled_unpack (f := .binary32) b.toBitVec
  exact (unpack_ofModel_pack hsettled.1).trans hsettled.2

/-- The pattern of infinity in binary32. -/
private theorem infinityPattern_binary32 : infinityPattern .binary32 = 0x7f800000 := by decide

/-- Up to the one of infinity, what `ofBits` makes of a pattern stands for its `magnitude`. -/
theorem count_ofBits {b : UInt32} (hb : b.toNat ≤ 0x7f800000) :
    (Float32.ofBits b).isNaN = false ∧ count (.ofBits b) = magnitude .binary32 b.toNat := by
  obtain ⟨s, e, m, hfields, htoNat, hlt⟩ := exists_fields b
  -- a sign bit would take the pattern past the one of infinity
  have hs : s = .positive := by
    cases s with
    | positive => rfl
    | negative =>
      have hsign : Sign.negative.toBitVec.toNat = 1 := rfl
      rw [hsign] at htoNat
      omega
  rw [hs, show Sign.positive.toBitVec.toNat = 0 from rfl, Nat.zero_mul, Nat.zero_add] at htoNat
  have hnumber : unpack .binary32 (packComponents .binary32 s e m) ≠ .notANumber := by
    rw [Ne, unpack_eq_notANumber_iff, infinityPattern_binary32]
    omega
  rw [isNaN_eq_false_iff, count, unpack_ofBits, hfields]
  refine ⟨hnumber, ?_⟩
  rw [units_unpack hnumber, hs, htoNat]
  rfl

/-- The pattern that `toBits` gives for a positive value has no sign. -/
theorem toBits_of_pos {x : Float32} (h : 0 < x) :
    x.toBits.toNat ≤ 0x7f800000 ∧ count x = magnitude .binary32 x.toBits.toNat := by
  obtain ⟨s, e, m, hfields, htoNat, hlt⟩ := exists_fields x.toBits
  have hunpack : x.toModel.unpack = unpack .binary32 (packComponents .binary32 s e m) :=
    congrArg (unpack .binary32) hfields
  obtain ⟨hnan, hpos⟩ := pos_iff.mp h
  rw [isNaN_eq_false_iff, hunpack] at hnan
  rw [count, hunpack, units_unpack hnan] at hpos
  rw [count, hunpack, units_unpack hnan]
  rw [Ne, unpack_eq_notANumber_iff, infinityPattern_binary32] at hnan
  -- a sign would make the count negative, so the bits are the magnitude
  cases s with
  | negative => simp only [Sign.apply] at hpos; omega
  | positive =>
    rw [show Sign.positive.toBitVec.toNat = 0 from rfl, Nat.zero_mul, Nat.zero_add] at htoNat
    rw [htoNat]
    exact ⟨not_lt.mp hnan, rfl⟩

/-- The count that the rank of a number stands for. -/
def rankCount (rank : ℤ) : ℤ :=
  if 0 ≤ rank then magnitude .binary32 rank.toNat else -magnitude .binary32 (-1 - rank).toNat

/-- `rankCount` keeps the order. -/
theorem rankCount_mono {r t : ℤ} (h : r ≤ t) : rankCount r ≤ rankCount t := by
  simp only [rankCount]
  split_ifs with hr ht ht
  · exact_mod_cast magnitude_mono (Int.toNat_le_toNat h)
  · omega
  · omega
  -- below zero the patterns count downwards
  · have hmono := magnitude_mono (f := .binary32) (show (-1 - t).toNat ≤ (-1 - r).toNat by omega)
    omega

/-- The `rank` of a number determines its count. -/
theorem count_eq_rankCount {x : Float32} (hx : x.isNaN = false) : count x = rankCount (rank x) := by
  obtain ⟨s, e, m, hfields, htoNat, hlt⟩ := exists_fields x.toBits
  have hunpack : x.toModel.unpack = unpack .binary32 (packComponents .binary32 s e m) :=
    congrArg (unpack .binary32) hfields
  rw [isNaN_eq_false_iff, hunpack] at hx
  rw [count, hunpack, units_unpack hx]
  simp only [rank]
  -- the rank counts up from zero for one sign, and down for the other
  cases s with
  | positive =>
    rw [show Sign.positive.toBitVec.toNat = 0 from rfl, Nat.zero_mul, Nat.zero_add] at htoNat
    rw [htoNat, if_pos hlt, rankCount, if_pos (Int.natCast_nonneg _), Int.toNat_natCast]
    rfl
  | negative =>
    rw [show Sign.negative.toBitVec.toNat = 1 from rfl] at htoNat
    rw [htoNat, if_neg (by omega), rankCount, if_neg (by omega)]
    simp only [Sign.apply]
    congr 3
    omega

/-- Numbers of higher `rank` are at least as large. -/
theorem count_le_of_rank_le {x y : Float32} (hx : x.isNaN = false) (hy : y.isNaN = false)
    (h : rank x ≤ rank y) : count x ≤ count y := by
  rw [count_eq_rankCount hx, count_eq_rankCount hy]
  exact rankCount_mono h

/-- Larger numbers have a higher `rank`. -/
theorem rank_lt_of_lt {x y : Float32} (h : x < y) : rank x < rank y := by
  obtain ⟨hx, hy, hcount⟩ := lt_iff.mp h
  exact not_le.mp fun hle => absurd (count_le_of_rank_le hy hx hle) (not_le.mpr hcount)

/-- Values of equal `rank` are the same: it tells the two zeros apart. -/
theorem rank_injective : Function.Injective rank := by
  intro x y h
  have hx := x.toBits.toNat_lt
  have hy := y.toBits.toNat_lt
  -- the rank has as many values as there are bit patterns
  have hbits : x.toBits.toNat = y.toBits.toNat := by
    simp only [rank] at h
    generalize x.toBits.toNat = a at *
    generalize y.toBits.toNat = b at *
    omega
  have hunpack : unpack .binary32 x.toBits.toBitVec = unpack .binary32 y.toBits.toBitVec := by
    rw [UInt32.toNat_inj.mp hbits]
  exact ext_unpack hunpack

end Utterance.Binary
