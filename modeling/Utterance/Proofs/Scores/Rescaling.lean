import Utterance.Proofs.Binary.Monotone
import Utterance.Proofs.Binary.Neutral
import Utterance.Proofs.Scores.Support
import Utterance.Scores.Penalty
import Utterance.Scores.Temperature

/-!
# Penalty and temperature

Both stages narrow the scores.  Temperature leaves usable scores usable, since a division that
overflows is preceded by a shift that takes the largest finite score to 0.  The penalty has no such
guard: it can push a negative score all the way down to `-inf`.
-/

namespace Utterance.Scores

open Binary

/-! ## Repetition penalty -/

variable {p x : Float32}

/-- A penalty in range, from `1` on, is positive. -/
theorem pos_of_one_le (hp1 : 1 ≤ p) : 0 < p := by
  obtain ⟨-, hnan, hle⟩ := le_iff.mp hp1
  rw [count_one] at hle
  exact pos_iff.mpr ⟨hnan, by omega⟩

/-- A penalty in range has no lower `count` than `1` has. -/
private theorem one_le_count (hp1 : 1 ≤ p) : one .binary32 ≤ count p := by
  have hle := (le_iff.mp hp1).2.2
  rw [count_one] at hle
  rw [one_binary32]
  exact_mod_cast hle

/-- Multiplying a finite score by the penalty takes its `count` away from 0, on its side. -/
theorem mul_penalty (hp : p.isFinite = true) (hp1 : 1 ≤ p) (hx : x.isFinite = true) :
    (x * p).isNaN = false ∧ (count x ≤ 0 → count (x * p) ≤ count x) ∧
      (0 ≤ count x → 0 ≤ count (x * p)) := by
  obtain ⟨hnan, hcount⟩ := mul_of_isFinite hx hp
  have hp0 : (0 : ℚ) ≤ count p := by exact_mod_cast (pos_iff.mp (pos_of_one_le hp1)).2.le
  have hone := one_pos .binary32
  rw [hcount]
  refine ⟨hnan, fun h => nearest_le (grid_count x) ?_, fun h => nearest_nonneg ?_⟩
  · have hx0 : (count x : ℚ) ≤ 0 := by exact_mod_cast h
    rw [div_le_iff₀ hone]
    exact mul_le_mul_of_nonpos_left (one_le_count hp1) hx0
  · have hx0 : (0 : ℚ) ≤ count x := by exact_mod_cast h
    exact div_nonneg (mul_nonneg hx0 hp0) hone.le

/-- Dividing a finite score without a sign by the penalty brings its `count` closer to 0. -/
theorem div_penalty (hp : p.isFinite = true) (hp1 : 1 ≤ p) (hx : x.isFinite = true)
    (h0 : 0 ≤ count x) :
    (x / p).isNaN = false ∧ 0 ≤ count (x / p) ∧ count (x / p) ≤ count x := by
  have hp0 := (pos_iff.mp (pos_of_one_le hp1)).2
  obtain ⟨hnan, hcount⟩ := div_of_isFinite hx hp hp0.ne'
  have hp0' : (0 : ℚ) < count p := by exact_mod_cast hp0
  have hx0 : (0 : ℚ) ≤ count x := by exact_mod_cast h0
  rw [hcount]
  refine ⟨hnan, nearest_nonneg (by have := one_pos .binary32; positivity), ?_⟩
  refine nearest_le (grid_count x) ?_
  rw [div_le_iff₀ hp0']
  exact mul_le_mul_of_nonneg_left (one_le_count hp1) hx0

/-- `penalise` leaves a certain score certain. -/
theorem penalise_infinity (hp : p.isFinite = true) (hp1 : 1 ≤ p) :
    penalise p infinity = infinity := by
  rw [penalise, if_neg (by decide), infinity_div (pos_of_one_le hp1) hp]

/-- `penalise` leaves a masked score masked. -/
theorem penalise_negInfinity (hp : p.isFinite = true) (hp1 : 1 ≤ p) :
    penalise p negInfinity = negInfinity := by
  rw [penalise, if_pos (by decide), negInfinity_mul (pos_of_one_le hp1) hp]

/-- `penalise` narrows a score, and masks it exactly when its product with the penalty is masked. -/
theorem penalise_narrowed (hp : p.isFinite = true) (hp1 : 1 ≤ p) (hx : x.isNaN = false) :
    Narrowed x (penalise p x) ∧ (penalise p x = negInfinity ↔ x * p = negInfinity) := by
  have hpos := pos_of_one_le hp1
  have hlimit := limit_pos
  -- infinities keep to themselves; a finite score is multiplied below 0 and divided from 0 on
  rcases eq_or_isFinite hx with rfl | hfinite | rfl
  · rw [penalise_negInfinity hp hp1, negInfinity_mul hpos hp]
    exact ⟨.mask _, Iff.rfl⟩
  · obtain ⟨-, hlow, hhigh⟩ := isFinite_iff.mp hfinite
    obtain ⟨hmul, hmulneg, hmulpos⟩ := mul_penalty hp hp1 hfinite
    have hne := ne_negInfinity_of_isFinite hfinite
    rw [penalise]
    split
    · next hlt =>
      obtain ⟨-, -, hneg⟩ := lt_iff.mp hlt
      rw [count_zero] at hneg
      refine ⟨⟨hmul, fun h => absurd h hne, fun h => ?_⟩, Iff.rfl⟩
      have hcount := hmulneg hneg.le
      rw [h, count_infinity] at hcount
      omega
    · next hge =>
      have h0 : 0 ≤ count x := by
        have hle := (not_lt_iff hx isNaN_zero).mp hge
        exact (nonneg_iff.mp hle).2
      obtain ⟨hdiv, hdiv0, hdivle⟩ := div_penalty hp hp1 hfinite h0
      refine ⟨⟨hdiv, fun h => absurd h hne, fun h => ?_⟩, ?_⟩
      · rw [h, count_infinity] at hdivle
        omega
      · -- without a sign, neither the quotient nor the product is masked
        have hprod := hmulpos h0
        rw [eq_negInfinity_iff, eq_negInfinity_iff]
        refine iff_of_false (fun h => ?_) (fun h => ?_) <;> omega
  · rw [penalise_infinity hp hp1, infinity_mul hpos hp]
    exact ⟨.refl isNaN_infinity, Iff.rfl⟩

/-- The set that `penaliseRepeats` looks ids up in has the ids of the history. -/
theorem contains_used (history : List Token) (id : ℕ) :
    (Std.HashSet.ofList (history.map (·.toNat))).contains id = true ↔
      ∃ token ∈ history, token.toNat = id := by
  simp

/-- `penaliseRepeats` narrows the scores. -/
theorem penaliseRepeats_narrows (hp : p.isFinite = true) (hp1 : 1 ≤ p) (history : List Token)
    {scores : Scores} (hscores : Numbers scores) :
    Narrows scores (penaliseRepeats p history scores) := by
  refine .of_mapIdx (fun i x hx => ?_) fun hmem => ?_
  · have hnan := hscores x (List.mem_of_getElem? hx)
    split
    · exact (penalise_narrowed hp hp1 hnan).1
    · exact .refl hnan
  · obtain ⟨i, hi⟩ := List.mem_iff_getElem?.mp hmem
    refine List.mem_of_getElem? (i := i) ?_
    rw [List.getElem?_mapIdx, hi, Option.map_some, penalise_infinity hp hp1, ite_self]

/-- Some score above `-inf` belongs to an unused token or survives its product with the penalty. -/
def Spared (penalty : Float32) (history : List Token) (scores : Scores) : Prop :=
  ∃ (i : ℕ) (x : Float32), scores[i]? = some x ∧ negInfinity < x ∧
    ((∃ token ∈ history, token.toNat = i) → x * penalty ≠ negInfinity)

/-- `penaliseRepeats` leaves a usable score exactly when the penalty spares one. -/
theorem penaliseRepeats_usable_iff (hp : p.isFinite = true) (hp1 : 1 ≤ p) (history : List Token)
    {scores : Scores} (hscores : Numbers scores) :
    Usable (penaliseRepeats p history scores) ↔ Spared p history scores := by
  -- what stands at each position afterwards
  have hvalue : ∀ {i : ℕ} {x : Float32}, scores[i]? = some x →
      (penaliseRepeats p history scores)[i]? =
        some (if ∃ token ∈ history, token.toNat = i then penalise p x else x) := by
    intro i x hx
    simp only [penaliseRepeats, List.getElem?_mapIdx, hx, Option.map_some, contains_used]
  have hnarrows := penaliseRepeats_narrows hp hp1 history hscores
  constructor
  · rintro ⟨y, hy, hlt⟩
    -- a usable score after the penalty was usable before and was not masked by it
    obtain ⟨i, hi⟩ := List.mem_iff_getElem?.mp hy
    obtain ⟨x, hx, hxlt⟩ := hnarrows.lt_of_lt hscores hi hlt
    refine ⟨i, x, hx, hxlt, fun hused hmask => ?_⟩
    have hnan := hscores x (List.mem_of_getElem? hx)
    rw [hvalue hx, if_pos hused, ((penalise_narrowed hp hp1 hnan).2.mpr hmask)] at hi
    obtain rfl := Option.some.inj hi
    exact (negInfinity_lt_iff.mp hlt).2 rfl
  · rintro ⟨i, x, hx, hxlt, hspared⟩
    have hnan := hscores x (List.mem_of_getElem? hx)
    -- a score that the penalty spares stays above `-inf`
    refine ⟨_, List.mem_of_getElem? (hvalue hx), ?_⟩
    split
    · next hused =>
      obtain ⟨hnarrowed, hmask⟩ := penalise_narrowed hp hp1 hnan
      exact negInfinity_lt_iff.mpr ⟨hnarrowed.isNaN_eq, mt hmask.mp (hspared hused)⟩
    · exact hxlt

/-- A penalty of 1 leaves every score `Spared`. -/
theorem spared_iff_usable (hp : (p == 1) = true) (history : List Token) {scores : Scores} :
    Spared p history scores ↔ Usable scores := by
  constructor
  · rintro ⟨i, x, hx, hlt, -⟩
    exact ⟨x, List.mem_of_getElem? hx, hlt⟩
  · rintro ⟨x, hx, hlt⟩
    obtain ⟨i, hi⟩ := List.mem_iff_getElem?.mp hx
    refine ⟨i, x, hi, hlt, fun _ => ?_⟩
    rw [beq_one_iff.mp hp, Binary.mul_one]
    exact (negInfinity_lt_iff.mp hlt).2

/-! ## Temperature -/

variable {t y : Float32} {scores : Scores}

/-- A score after the `shift` and the division by `t`. -/
def rescale (t : Float32) (scores : Scores) (x : Float32) : Float32 :=
  (x - shift t scores) / t

/-- `temper` rescales every score by the same shift and division. -/
theorem temper_eq_map (t : Float32) (scores : Scores) :
    temper t scores = scores.map (rescale t scores) :=
  rfl

/-- What is known about the `shift`: it is 0 and every quotient is in range, or it is a largest
finite score. -/
theorem shift_cases (t : Float32) (scores : Scores) :
    (shift t scores = 0 ∧ ∀ x ∈ scores, x.isFinite = true → (x / t).isFinite = true) ∨
      LargestFinite scores (shift t scores) := by
  rw [shift]
  split
  · -- the shift is the largest finite score just when some quotient overflows
    next hover =>
    rw [overflows, List.any_eq_true] at hover
    obtain ⟨x, hx, hxf⟩ := hover
    rw [Bool.and_eq_true] at hxf
    exact .inr (largestFinite_maximum hx hxf.1)
  · next hover =>
    refine .inl ⟨rfl, fun x hx hxf => ?_⟩
    rw [overflows, List.any_eq_true, not_exists] at hover
    by_contra hinf
    exact hover x ⟨hx, by simp [hxf, hinf]⟩

/-- The `shift` is a finite score or 0, and so finite. -/
theorem shift_isFinite (t : Float32) (scores : Scores) : (shift t scores).isFinite = true := by
  rcases shift_cases t scores with ⟨hzero, -⟩ | hlargest
  · rw [hzero]
    decide
  · exact hlargest.isFinite

section Temperature

variable (ht : t.isFinite = true) (ht0 : 0 < t)

include ht ht0

/-- `rescale` is monotone: subtraction of the shift is, and so is division by the temperature. -/
theorem rescale_le_rescale (scores : Scores) (hle : x ≤ y) :
    rescale t scores x ≤ rescale t scores y :=
  Binary.div_le_div_right ht ht0 (Binary.sub_le_sub_right (shift_isFinite t scores) hle)

/-- `rescale` leaves a certain score certain, since the shift is finite. -/
theorem rescale_infinity (scores : Scores) : rescale t scores infinity = infinity := by
  rw [rescale, infinity_sub (shift_isFinite t scores), infinity_div ht0 ht]

/-- `rescale` leaves a masked score masked, since the shift is finite. -/
theorem rescale_negInfinity (scores : Scores) : rescale t scores negInfinity = negInfinity := by
  rw [rescale, negInfinity_sub (shift_isFinite t scores), negInfinity_div ht0 ht]

/-- Shifted by its own value, a score goes to 0 in `rescale`. -/
theorem rescale_beq_zero (hx : x.isFinite = true) (hshift : count x = count (shift t scores)) :
    (rescale t scores x == 0) = true := by
  have hlimit := limit_pos
  obtain ⟨hnan, hdiff⟩ := sub_of_isFinite hx (shift_isFinite t scores)
  rw [hshift, sub_self, nearest_zero] at hdiff
  have hfinite : (x - shift t scores).isFinite = true :=
    isFinite_iff.mpr ⟨hnan, by omega, by omega⟩
  obtain ⟨hqnan, hquot⟩ := div_of_isFinite hfinite ht (pos_iff.mp ht0).2.ne'
  rw [hdiff, Int.cast_zero, zero_mul, zero_div, nearest_zero] at hquot
  exact beq_iff.mpr ⟨hqnan, isNaN_zero, hquot.trans count_zero.symm⟩

/-- The score that is `LargestFinite` stays finite: its quotient is in range, or the shift takes it
to 0. -/
theorem LargestFinite.isFinite_rescale (h : LargestFinite scores x) :
    (rescale t scores x).isFinite = true := by
  rcases shift_cases t scores with ⟨hzero, hall⟩ | hshift
  · rw [rescale, hzero, Binary.sub_zero]
    exact hall x h.mem h.isFinite
  · obtain ⟨hnan, -, hcount⟩ := beq_iff.mp (rescale_beq_zero ht ht0 h.isFinite (h.count_eq hshift))
    have hlimit := limit_pos
    rw [count_zero] at hcount
    exact isFinite_iff.mpr ⟨hnan, by omega, by omega⟩

/-- `rescale` masks what is masked, and makes nothing certain. -/
theorem rescale_narrowed (hscores : Numbers scores) (hx : x ∈ scores) :
    Narrowed x (rescale t scores x) := by
  rcases eq_or_isFinite (hscores x hx) with rfl | hfinite | rfl
  · rw [rescale_negInfinity ht ht0]
    exact .mask _
  · -- no finite score goes above the largest one
    have hlargest := largestFinite_maximum hx hfinite
    have hle := rescale_le_rescale ht ht0 scores (hlargest.ge x hx hfinite)
    obtain ⟨hnan, hne⟩ := lt_infinity_iff.mp
      (Binary.lt_of_le_of_lt hle (lt_infinity_of_isFinite (hlargest.isFinite_rescale ht ht0)))
    exact ⟨hnan, fun h => absurd h (ne_negInfinity_of_isFinite hfinite), fun h => absurd h hne⟩
  · rw [rescale_infinity ht ht0]
    exact .refl isNaN_infinity

/-- `temper` narrows the scores. -/
theorem temper_narrows (hscores : Numbers scores) : Narrows scores (temper t scores) := by
  rw [temper_eq_map]
  exact .of_map (fun x hx => rescale_narrowed ht ht0 hscores hx) (rescale_infinity ht ht0 scores)

/-- `temper` leaves usable scores usable. -/
theorem temper_usable (hscores : Numbers scores) (husable : Usable scores) :
    Usable (temper t scores) := by
  obtain ⟨x, hx, hlt⟩ := husable
  rcases (eq_or_isFinite (hscores x hx)).resolve_left (negInfinity_lt_iff.mp hlt).2 with
    hfinite | rfl
  · have hlargest := largestFinite_maximum hx hfinite
    exact ⟨_, List.mem_map_of_mem hlargest.mem,
      negInfinity_lt_of_isFinite (hlargest.isFinite_rescale ht ht0)⟩
  · exact ⟨infinity, (temper_narrows ht ht0 hscores).certain hx, hlt⟩

end Temperature

end Utterance.Scores
