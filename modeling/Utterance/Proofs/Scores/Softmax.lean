import Utterance.Proofs.Binary.Folds
import Utterance.Proofs.Scores.Support
import Utterance.Scores.Softmax

/-!
# The support of the softmax distribution

There is a distribution exactly when some score is above `-inf`.  Its probabilities are not
negative, some are positive, and a positive one belongs to a score above `-inf`, and to one of `inf`
where there are any.
-/

namespace Utterance.Scores

open Binary

/-- What is assumed of the function `exp`: values between 0 and 1 on what is not positive, and 1 at
0. -/
structure IsExp (exp : Float32 → Float32) : Prop where
  range : ∀ x : Float32, x ≤ 0 → 0 ≤ exp x ∧ exp x ≤ 1
  zero : exp 0 = 1

/-- A constant 1 has all that is assumed of an exponential, so `IsExp` can be met. -/
theorem isExp_one : IsExp fun _ => 1 where
  range _ _ := ⟨by decide, by decide⟩
  zero := rfl

/-- The probabilities belong to the scores and have their `support` among the tokens that may be
selected. -/
structure Distributes (scores : Scores) (probabilities : List Float32) : Prop where
  length_eq : probabilities.length = scores.length
  nonneg : ∀ w ∈ probabilities, 0 ≤ w
  exists_pos : ∃ w ∈ probabilities, 0 < w
  support : ∀ (i : ℕ) (w x : Float32), probabilities[i]? = some w → scores[i]? = some x → 0 < w →
    negInfinity < x ∧ (infinity ∈ scores → x = infinity)

variable {scores : Scores} {exp : Float32 → Float32}

/-- A positive probability among those that `Distributes` describes belongs to a score that may be
selected. -/
theorem Distributes.exists_score {probabilities : List Float32}
    (h : Distributes scores probabilities) {i : ℕ} {w : Float32} (hw : probabilities[i]? = some w)
    (hpos : 0 < w) :
    ∃ x, scores[i]? = some x ∧ negInfinity < x ∧ (infinity ∈ scores → x = infinity) := by
  obtain ⟨hi, -⟩ := List.getElem?_eq_some_iff.mp hw
  have hx := List.getElem?_eq_getElem (h.length_eq ▸ hi)
  exact ⟨_, hx, h.support i w _ hw hx hpos⟩

/-! ## Certain tokens -/

/-- A number of shares, by `toFloat32`, is finite, not below 1 and not too large for its inverse to
be positive. -/
private theorem shares_range {n : UInt64} (hn : n ≠ 0) : n.toFloat32.isFinite = true ∧
    count 1 ≤ count n.toFloat32 ∧ count n.toFloat32 ≤ 2 ^ 213 := by
  obtain ⟨hnan, hcount⟩ := toFloat32_of_uInt64 n
  have hpos : 1 ≤ n.toNat := Nat.one_le_iff_ne_zero.mpr fun h => hn (UInt64.toNat_inj.mp h)
  have hlt : n.toNat ≤ 2 ^ 64 := n.toNat_lt.le
  have hone : count 1 ≤ count n.toFloat32 := by
    rw [hcount]
    refine le_nearest (grid_count 1) ?_
    rw [count_one, one_binary32]
    push_cast
    exact le_mul_of_one_le_left (by positivity) (by exact_mod_cast hpos)
  -- there are at most `2 ^ 64` shares
  have hle : count n.toFloat32 ≤ count (.ofBits 0x5f800000) := by
    rw [hcount]
    refine nearest_le (grid_count _) ?_
    have hlt' : (n.toNat : ℚ) ≤ 2 ^ 64 := by exact_mod_cast hlt
    calc (n.toNat : ℚ) * one .binary32 ≤ 2 ^ 64 * 2 ^ 149 := by
          rw [one_binary32]
          exact mul_le_mul_of_nonneg_right hlt' (by positivity)
      _ = (count (.ofBits 0x5f800000) : ℚ) := by
          rw [show count (.ofBits 0x5f800000) = 2 ^ 64 * 2 ^ 149 by decide]
          norm_num
  have hbound := isFinite_iff.mp (show (Float32.ofBits 0x5f800000).isFinite = true by decide)
  have hlimit := limit_pos
  have hfinite : n.toFloat32.isFinite = true := by
    rw [count_one] at hone
    exact isFinite_iff.mpr ⟨hnan, by omega, by omega⟩
  exact ⟨hfinite, hone, hle.trans_eq (by decide)⟩

/-- Equal shares are positive, however many there are: those of `n = 0` would be infinite. -/
theorem share_pos (n : UInt64) : (0 : Float32) < 1 / n.toFloat32 := by
  by_cases hn : n = 0
  · -- no shares at all would be infinite ones
    rw [hn]
    decide
  · obtain ⟨hfinite, hone, hle⟩ := shares_range hn
    rw [count_one] at hone
    exact pos_iff.mpr (one_div_pos hfinite (by omega) hle)

/-- With certain tokens, the mass is theirs alone, and so `Distributes` holds of equal shares. -/
private theorem distributes_of_certain (hmem : infinity ∈ scores)
    {share : Float32} (hshare : 0 < share) :
    Distributes scores
      (scores.map fun score => if score == Binary.infinity then share else 0) where
  length_eq := List.length_map _
  nonneg w hw := by
    obtain ⟨x, -, rfl⟩ := List.mem_map.mp hw
    -- a share is positive, and all others are zero
    obtain ⟨hnan, hpos⟩ := pos_iff.mp hshare
    split
    · exact nonneg_iff.mpr ⟨hnan, hpos.le⟩
    · decide
  exists_pos := ⟨share, List.mem_map.mpr ⟨infinity, hmem, if_pos (by decide)⟩, hshare⟩
  support i w x hw hx hpos := by
    rw [List.getElem?_map, hx, Option.map_some] at hw
    obtain rfl := Option.some.inj hw
    -- only a score `+inf` has a positive share, and it is usable
    by_cases hcertain : (x == infinity) = true
    · obtain rfl := beq_infinity.mp hcertain
      exact ⟨by decide, fun _ => rfl⟩
    · rw [if_neg hcertain] at hpos
      exact absurd hpos (by decide)

/-! ## Finite scores -/

/-- `weight` gives a finite score something between 0 and 1, and any other nothing. -/
private theorem weight_range (hexp : IsExp exp) {top x : Float32} (htop : top.isFinite = true)
    (hle : x.isFinite = true → x ≤ top) :
    0 ≤ weight exp top x ∧ weight exp top x ≤ 1 := by
  rw [weight]
  split
  · next hx => exact hexp.range _ (Binary.sub_nonpos_of_le hx htop (hle hx))
  · exact ⟨by decide, by decide⟩

/-- Each `weight` is between 0 and 1, the largest finite score has weight 1, and no weight is above
their sum, which is not too large for its inverse. -/
theorem weights_range (hexp : IsExp exp) {top : Float32}
    (hlargest : LargestFinite scores top) :
    let weights := scores.map (weight exp top)
    (∀ w ∈ weights, 0 ≤ w ∧ w ≤ 1) ∧ 1 ∈ weights ∧ (sum weights).isFinite = true ∧
      0 < count (sum weights) ∧ 0 < 1 / sum weights ∧
      ∀ w ∈ weights, count w ≤ count (sum weights) := by
  intro weights
  have htop := hlargest.isFinite
  have hrange : ∀ w ∈ weights, 0 ≤ w ∧ w ≤ 1 := by
    intro w hw
    obtain ⟨x, hx, rfl⟩ := List.mem_map.mp hw
    exact weight_range hexp htop (hlargest.ge x hx)
  obtain ⟨hfinite, hsumle, hall⟩ := sum_spec hrange
  -- the largest finite score has weight `1`
  have hone : (1 : Float32) ∈ weights := by
    refine List.mem_map.mpr ⟨top, hlargest.mem, ?_⟩
    rw [weight, if_pos htop, sub_self_of_isFinite htop, hexp.zero]
  -- so the sum is at least `1`, and its inverse is positive
  have hpos : 0 < count (sum weights) := by
    have h := hall 1 hone
    rw [count_one] at h
    omega
  have hinv := pos_iff.mpr (one_div_pos hfinite hpos (hsumle.trans (by norm_num)))
  exact ⟨hrange, hone, hfinite, hpos, hinv, hall⟩

/-- Without certain tokens, the mass goes to the finite scores by their `weight`, and the largest
has some. -/
private theorem distributes_of_finite (hexp : IsExp exp) (hcertain : infinity ∉ scores)
    {top : Float32} (hlargest : LargestFinite scores top) :
    Distributes scores
      ((scores.map (weight exp top)).map (· / Binary.sum (scores.map (weight exp top)))) := by
  obtain ⟨hrange, hone, hfinite, hpos, hinv, -⟩ := weights_range hexp hlargest
  set weights := scores.map (weight exp top) with hweights
  -- dividing by the sum keeps signs and zeros
  have hdiv : ∀ w ∈ weights, (w / sum weights).isNaN = false ∧ 0 ≤ count (w / sum weights) ∧
      (count w = 0 → count (w / sum weights) = 0) := by
    intro w hw
    obtain ⟨h0, h1⟩ := hrange w hw
    have hw0 := (nonneg_iff.mp h0).2
    have hw1 := (le_iff.mp h1).2.2
    have hwfinite := isFinite_of_count_le h0 hw1 isFinite_one
    obtain ⟨hqnan, hqcount⟩ := div_of_isFinite hwfinite hfinite hpos.ne'
    rw [hqcount]
    have hw0' : (0 : ℚ) ≤ count w := by exact_mod_cast hw0
    have hpos' : (0 : ℚ) < count (sum weights) := by exact_mod_cast hpos
    have hone0 := one_pos .binary32
    refine ⟨hqnan, nearest_nonneg (by positivity), fun h => ?_⟩
    rw [h, Int.cast_zero, zero_mul, zero_div, nearest_zero]
  refine ⟨by simp [hweights], fun w hw => ?_, ?_,
    fun i w x hw hx hlt => ⟨?_, fun h => absurd h hcertain⟩⟩
  · obtain ⟨v, hv, rfl⟩ := List.mem_map.mp hw
    obtain ⟨hnan, h0, -⟩ := hdiv v hv
    exact nonneg_iff.mpr ⟨hnan, h0⟩
  · exact ⟨1 / sum weights, List.mem_map.mpr ⟨1, hone, rfl⟩, hinv⟩
  · rw [List.getElem?_map, hweights, List.getElem?_map, hx, Option.map_some, Option.map_some] at hw
    obtain rfl := Option.some.inj hw
    by_cases hxf : x.isFinite = true
    · exact negInfinity_lt_of_isFinite hxf
    · -- a score that is not finite has no weight
      have hmemx : weight exp top x ∈ weights :=
        List.mem_map_of_mem (List.mem_of_getElem? hx)
      have hzero : weight exp top x = 0 := by rw [weight, if_neg hxf]
      have hcount := (hdiv _ hmemx).2.2 (by rw [hzero, count_zero])
      have hgt := (pos_iff.mp hlt).2
      rw [hcount] at hgt
      exact absurd hgt (lt_irrefl 0)

/-! ## Bounds -/

/-- `softmax` gives no probability above 1, if there are fewer than `2 ^ 64` scores. -/
theorem softmax_le_one (hexp : IsExp exp) (hlength : scores.length < 2 ^ 64)
    {probabilities : List Float32} (h : softmax exp scores = some probabilities) :
    ∀ w ∈ probabilities, w ≤ 1 := by
  intro w hw
  simp only [softmax] at h
  split at h
  · next hpos =>
    obtain rfl := Option.some.inj h
    obtain ⟨x, -, rfl⟩ := List.mem_map.mp hw
    split
    · -- certain tokens are counted without overflow
      have hle := List.countP_le_length (p := (· == infinity)) (l := scores)
      have hn : (scores.countP (· == infinity)).toUInt64 ≠ 0 := by
        intro hzero
        have htoNat := UInt64.toNat_ofNat_of_lt' (hle.trans_lt hlength)
        rw [show UInt64.ofNat _ = 0 from hzero] at htoNat
        exact hpos.ne htoNat
      obtain ⟨hfinite, hone, -⟩ := shares_range hn
      exact div_le_one_of_le isFinite_one hfinite (hone.trans_lt' (by decide)) hone
    · decide
  · -- a weight is at most the sum it is divided by
    split at h
    · next htop =>
      obtain rfl := Option.some.inj h
      obtain ⟨v, hv, rfl⟩ := List.mem_map.mp hw
      obtain ⟨hrange, -, hfinite, hpos, -, hall⟩ :=
        weights_range hexp (largestFinite_of_isFinite htop)
      obtain ⟨hv0, hv1⟩ := hrange v hv
      have hvfinite := isFinite_of_count_le hv0 (le_iff.mp hv1).2.2 isFinite_one
      exact div_le_one_of_le hvfinite hfinite hpos (hall v hv)
    · cases h

/-! ## The distribution -/

/-- `softmax` has a distribution for `Usable` scores, and its support is among the tokens that may
be selected. -/
theorem softmax_of_usable (hexp : IsExp exp) (husable : Usable scores) :
    ∃ probabilities, softmax exp scores = some probabilities ∧
      Distributes scores probabilities := by
  simp only [softmax]
  split
  · -- some score is `+inf`: all mass goes there
    next hpos =>
    obtain ⟨x, hx, hinf⟩ := List.countP_pos_iff.mp hpos
    obtain rfl := beq_infinity.mp hinf
    exact ⟨_, rfl, distributes_of_certain hx (share_pos _)⟩
  · -- none is: the weights of the finite scores are divided by their sum
    next hnone =>
    have hcertain : infinity ∉ scores := fun h =>
      hnone (List.countP_pos_iff.mpr ⟨infinity, h, by decide⟩)
    obtain ⟨x, hx, hlt⟩ := husable
    obtain ⟨hxnan, hne⟩ := negInfinity_lt_iff.mp hlt
    have hxf : x.isFinite = true := by
      rcases (eq_or_isFinite hxnan).resolve_left hne with hfinite | rfl
      · exact hfinite
      · exact absurd hx hcertain
    have hlargest := largestFinite_maximum hx hxf
    rw [if_pos hlargest.isFinite]
    exact ⟨_, rfl, distributes_of_finite hexp hcertain hlargest⟩

/-- `softmax` has a distribution for `Usable` scores only. -/
theorem usable_of_softmax {probabilities : List Float32}
    (h : softmax exp scores = some probabilities) : Usable scores := by
  simp only [softmax] at h
  split at h
  · -- either some score is `+inf`, or the largest finite score is there
    next hpos =>
    obtain ⟨x, hx, hinf⟩ := List.countP_pos_iff.mp hpos
    rw [beq_infinity.mp hinf] at hx
    exact ⟨infinity, hx, by decide⟩
  · split at h
    · next htop =>
      have hlargest := largestFinite_of_isFinite htop
      exact ⟨_, hlargest.mem, negInfinity_lt_of_isFinite htop⟩
    · cases h

/-- What `softmax` gives has its support among the tokens that may be selected. -/
theorem distributes_of_softmax (hexp : IsExp exp) {probabilities : List Float32}
    (h : softmax exp scores = some probabilities) : Distributes scores probabilities := by
  obtain ⟨others, hothers, hdistributes⟩ := softmax_of_usable hexp (usable_of_softmax h)
  rwa [Option.some.inj (h.symm.trans hothers)]

/-- By `softmax` certain tokens have some of the mass, and without any the first of the largest
finite scores has. -/
theorem exists_probability_pos (hexp : IsExp exp) {probabilities : List Float32}
    (h : softmax exp scores = some probabilities) {i : ℕ} {x : Float32} (hi : scores[i]? = some x)
    (hx : x = infinity ∨ infinity ∉ scores ∧ x = maximum (scores.filter (·.isFinite))) :
    ∃ w, probabilities[i]? = some w ∧ 0 < w := by
  simp only [softmax] at h
  split at h
  · next hpos =>
    obtain rfl := Option.some.inj h
    obtain ⟨y, hy, hinf⟩ := List.countP_pos_iff.mp hpos
    rw [beq_infinity.mp hinf] at hy
    have hcertain : x = infinity := hx.resolve_right fun hnone => hnone.1 hy
    -- a score `+inf` has a share of its own
    refine ⟨_, ?_, share_pos (scores.countP (· == infinity)).toUInt64⟩
    rw [List.getElem?_map, hi, Option.map_some, hcertain]
    rfl
  · next hnone =>
    split at h
    · next htop =>
      obtain rfl := Option.some.inj h
      have hcertain : x ≠ infinity := by
        rintro rfl
        exact hnone (List.countP_pos_iff.mpr ⟨infinity, List.mem_of_getElem? hi, by decide⟩)
      -- the largest finite score has weight `1`, divided by the sum
      obtain ⟨-, hmax⟩ := hx.resolve_left hcertain
      obtain ⟨-, -, -, -, hinv, -⟩ := weights_range hexp (largestFinite_of_isFinite htop)
      refine ⟨_, ?_, hinv⟩
      rw [List.getElem?_map, List.getElem?_map, hi, Option.map_some, Option.map_some, ← hmax,
        weight, if_pos (hmax ▸ htop), sub_self_of_isFinite (hmax ▸ htop), hexp.zero]
    · cases h

/-- `softmax` has no distribution for scores that are all masked. -/
theorem softmax_of_not_usable (hscores : Numbers scores) (h : ¬Usable scores) :
    softmax exp scores = none := by
  have hall : ∀ x ∈ scores, x = negInfinity := by
    intro x hx
    by_contra hne
    exact h ⟨x, hx, negInfinity_lt_iff.mpr ⟨hscores x hx, hne⟩⟩
  -- neither a score `+inf` nor a finite one is left
  have hcount : ¬0 < scores.countP (· == infinity) := by
    intro hpos
    obtain ⟨x, hx, hinf⟩ := List.countP_pos_iff.mp hpos
    rw [hall x hx] at hinf
    exact absurd hinf (by decide)
  have hfilter : scores.filter (·.isFinite) = [] := by
    refine List.filter_eq_nil_iff.mpr fun x hx => ?_
    rw [hall x hx]
    decide
  simp only [softmax]
  rw [if_neg hcount, hfilter]
  rfl

end Utterance.Scores
