import Utterance.Proofs.Binary.Folds
import Utterance.Token

/-!
# Usable, masked and certain scores

A score of `-inf` masks its token and a score of `inf` makes it certain.  `Narrows` says that a
change of scores keeps every mask, adds no certainty and loses not all of them.
-/

namespace Utterance.Scores

open Binary

/-- No score is undefined: each is a number, with `isNaN` false. -/
def Numbers (scores : Scores) : Prop :=
  ∀ x ∈ scores, x.isNaN = false

/-- Some score is above `-inf`. -/
def Usable (scores : Scores) : Prop :=
  ∃ x ∈ scores, negInfinity < x

/-- A largest one of the scores that are `isFinite`. -/
structure LargestFinite (scores : Scores) (x : Float32) : Prop where
  mem : x ∈ scores
  isFinite : x.isFinite = true
  ge : ∀ y ∈ scores, y.isFinite = true → y ≤ x

/-- `maximum` of the finite scores is a largest one, if there are any. -/
theorem largestFinite_maximum {scores : Scores} {x : Float32} (hx : x ∈ scores)
    (hfinite : x.isFinite = true) :
    LargestFinite scores (maximum (scores.filter (·.isFinite))) := by
  have hfilter : ∀ y, y ∈ scores.filter (·.isFinite) ↔ y ∈ scores ∧ y.isFinite = true := by
    simp
  obtain ⟨hmem, hall⟩ := maximum_spec (List.ne_nil_of_mem ((hfilter x).mpr ⟨hx, hfinite⟩))
    fun y hy => ((hfilter y).mp hy).2
  obtain ⟨htop, htopfinite⟩ := (hfilter _).mp hmem
  exact ⟨htop, htopfinite, fun y hy hyfinite => le_iff.mpr ⟨isNaN_of_isFinite hyfinite,
    isNaN_of_isFinite htopfinite, hall y ((hfilter y).mpr ⟨hy, hyfinite⟩)⟩⟩

/-- A `maximum` that is finite is not the one of no scores. -/
theorem largestFinite_of_isFinite {scores : Scores}
    (h : (maximum (scores.filter (·.isFinite))).isFinite = true) :
    LargestFinite scores (maximum (scores.filter (·.isFinite))) := by
  have hne : scores.filter (·.isFinite) ≠ [] := by
    intro hnil
    rw [hnil] at h
    exact absurd h (by decide)
  obtain ⟨x, hx⟩ := List.exists_mem_of_ne_nil _ hne
  obtain ⟨hmem, hfinite⟩ := List.mem_filter.mp hx
  exact largestFinite_maximum hmem hfinite

/-- Two scores that are both `LargestFinite` are equal, if for the sign of a zero. -/
theorem LargestFinite.count_eq {scores : Scores} {x y : Float32} (hx : LargestFinite scores x)
    (hy : LargestFinite scores y) : count x = count y :=
  le_antisymm (le_iff.mp (hy.ge x hx.mem hx.isFinite)).2.2
    (le_iff.mp (hx.ge y hy.mem hy.isFinite)).2.2

/-- What may become of one score: a number, with no mask `negInfinity` lifted and no certainty
`infinity` added. -/
structure Narrowed (x y : Float32) : Prop where
  isNaN_eq : y.isNaN = false
  masked : x = negInfinity → y = negInfinity
  certain : y = infinity → x = infinity

/-- A number may stay as it is: it is `Narrowed` to itself. -/
theorem Narrowed.refl {x : Float32} (h : x.isNaN = false) : Narrowed x x :=
  ⟨h, id, id⟩

/-- Every score may be `Narrowed` to the mask. -/
theorem Narrowed.mask (x : Float32) : Narrowed x negInfinity :=
  ⟨isNaN_negInfinity, fun _ => rfl, fun h => absurd h (by decide)⟩

/-- What is `Narrowed` in two steps may be so in one. -/
theorem Narrowed.trans {x y z : Float32} (hxy : Narrowed x y) (hyz : Narrowed y z) :
    Narrowed x z :=
  ⟨hyz.isNaN_eq, fun h => hyz.masked (hxy.masked h), fun h => hxy.certain (hyz.certain h)⟩

/-- What may become of a score vector: each score is `Narrowed`, and a certain token stays. -/
structure Narrows (before after : Scores) : Prop where
  length_eq : after.length = before.length
  narrowed : ∀ {i : ℕ} {x y : Float32}, before[i]? = some x → after[i]? = some y → Narrowed x y
  certain : infinity ∈ before → infinity ∈ after

namespace Narrows

variable {before middle after : Scores}

/-- Scores that are `Numbers` may stay as they are. -/
theorem refl (h : Numbers before) : Narrows before before where
  length_eq := rfl
  narrowed hx hy := by
    obtain rfl := Option.some.inj (hx.symm.trans hy)
    exact .refl (h _ (List.mem_of_getElem? hx))
  certain := id

/-- Every score has a counterpart in what `Narrows` the vector. -/
theorem exists_after (h : Narrows before after) {i : ℕ} {x : Float32} (hx : before[i]? = some x) :
    ∃ y, after[i]? = some y := by
  obtain ⟨hi, -⟩ := List.getElem?_eq_some_iff.mp hx
  exact ⟨_, List.getElem?_eq_getElem (h.length_eq ▸ hi)⟩

/-- Every score in what `Narrows` a vector had a counterpart before. -/
theorem exists_before (h : Narrows before after) {i : ℕ} {y : Float32} (hy : after[i]? = some y) :
    ∃ x, before[i]? = some x := by
  obtain ⟨hi, -⟩ := List.getElem?_eq_some_iff.mp hy
  exact ⟨_, List.getElem?_eq_getElem (h.length_eq ▸ hi)⟩

/-- What `Narrows` the scores twice in a row does so in one. -/
theorem trans (h : Narrows before middle) (h' : Narrows middle after) : Narrows before after where
  length_eq := h'.length_eq.trans h.length_eq
  narrowed hx hz := by
    obtain ⟨y, hy⟩ := h.exists_after hx
    exact (h.narrowed hx hy).trans (h'.narrowed hy hz)
  certain hmem := h'.certain (h.certain hmem)

/-- What `Narrows` some scores is numbers, even where the scores were not. -/
theorem numbers (h : Narrows before after) : Numbers after := by
  intro y hy
  obtain ⟨i, hi⟩ := List.mem_iff_getElem?.mp hy
  obtain ⟨x, hx⟩ := h.exists_before hi
  exact (h.narrowed hx hi).isNaN_eq

/-- A token that is above `negInfinity` afterwards was so before. -/
theorem lt_of_lt (h : Narrows before after) (hbefore : Numbers before) {i : ℕ} {y : Float32}
    (hy : after[i]? = some y) (hlt : negInfinity < y) :
    ∃ x, before[i]? = some x ∧ negInfinity < x := by
  obtain ⟨x, hx⟩ := h.exists_before hy
  refine ⟨x, hx, negInfinity_lt_iff.mpr ⟨hbefore x (List.mem_of_getElem? hx), fun hmask => ?_⟩⟩
  exact (negInfinity_lt_iff.mp hlt).2 ((h.narrowed hx hy).masked hmask)

/-- A token that has `infinity` afterwards had it before. -/
theorem eq_infinity (h : Narrows before after) {i : ℕ} (hy : after[i]? = some infinity) :
    before[i]? = some infinity := by
  obtain ⟨x, hx⟩ := h.exists_before hy
  rw [hx, (h.narrowed hx hy).certain rfl]

/-- A token that is above `negInfinity` afterwards, and has `infinity` if any has, was so before. -/
theorem exists_support (h : Narrows before after) (hbefore : Numbers before) {i : ℕ} {y : Float32}
    (hy : after[i]? = some y) (hlt : negInfinity < y) (hinf : infinity ∈ after → y = infinity) :
    ∃ x, before[i]? = some x ∧ negInfinity < x ∧ (infinity ∈ before → x = infinity) := by
  obtain ⟨x, hx, hxlt⟩ := h.lt_of_lt hbefore hy hlt
  refine ⟨x, hx, hxlt, fun hmem => ?_⟩
  -- a certain token stays, so this one is certain afterwards, and that adds no certainty
  rw [hinf (h.certain hmem)] at hy
  exact Option.some.inj (hx.symm.trans (h.eq_infinity hy))

/-- Narrowed scores are `Usable` only if the scores were. -/
theorem usable (h : Narrows before after)
    (hbefore : Numbers before) (husable : Usable after) : Usable before := by
  obtain ⟨y, hy, hlt⟩ := husable
  obtain ⟨i, hi⟩ := List.mem_iff_getElem?.mp hy
  obtain ⟨x, hx, hxlt⟩ := h.lt_of_lt hbefore hi hlt
  exact ⟨x, List.mem_of_getElem? hx, hxlt⟩

/-- A `mapIdx` narrows if it does so position by position and keeps a certain score. -/
theorem of_mapIdx {g : ℕ → Float32 → Float32}
    (hg : ∀ i x, before[i]? = some x → Narrowed x (g i x))
    (hcertain : infinity ∈ before → infinity ∈ before.mapIdx g) :
    Narrows before (before.mapIdx g) where
  length_eq := List.length_mapIdx
  narrowed {i x y} hx hy := by
    rw [List.getElem?_mapIdx, hx, Option.map_some] at hy
    obtain rfl := Option.some.inj hy
    exact hg i x hx
  certain := hcertain

/-- A `map` narrows if it does so score by score and leaves a certain score as it is. -/
theorem of_map {g : Float32 → Float32} (hg : ∀ x ∈ before, Narrowed x (g x))
    (hcertain : g infinity = infinity) : Narrows before (before.map g) where
  length_eq := List.length_map _
  narrowed {i x y} hx hy := by
    rw [List.getElem?_map, hx, Option.map_some] at hy
    obtain rfl := Option.some.inj hy
    exact hg x (List.mem_of_getElem? hx)
  certain hmem := List.mem_map.mpr ⟨infinity, hmem, hcertain⟩

end Narrows

end Utterance.Scores
