import Utterance.Proofs.Scores.Selection

/-!
# Random selection and the highest score

Random selection ends at a position of positive probability, so it never picks a masked or undefined
score.  It finds a token exactly when `argMax` does: the highest score has some of the mass
(`Leads.exists_probability_pos`), and no weight that the softmax distribution gives is refused.

## Key results

- `select_multinomial_pos`: what random selection picks
- `select_isSome_iff`: both ways to select succeed on the same scores
-/

namespace Utterance.Scores

open Binary
open Utterance.Random (Generator)

variable {scores : Scores} {exp : Float32 → Float32} {x : Float32} {i : ℕ}

/-! ## The mass of the highest score -/

/-- A finite score that `Leads` is the maximum of the finite scores, down to the sign of a zero. -/
theorem Leads.maximum_eq (h : Leads scores x i) (hx : x.isFinite = true) :
    maximum (scores.filter (·.isFinite)) = x := by
  obtain ⟨hi, rfl⟩ := List.getElem?_eq_some_iff.mp h.getElem?_eq
  -- the largest finite score is a fold, so the list is split where the leading score stands
  have hsplit : scores.take i ++ scores[i] :: scores.drop (i + 1) = scores := by
    rw [List.getElem_cons_drop, List.take_append_drop]
  have hfilter : scores.filter (·.isFinite) = (scores.take i).filter (·.isFinite) ++
      scores[i] :: (scores.drop (i + 1)).filter (·.isFinite) := by
    conv_lhs => rw [← hsplit]
    rw [List.filter_append, List.filter_cons_of_pos hx]
  rw [hfilter]
  refine maximum_append_cons h.negInfinity_lt (fun y hy => ?_) fun y hy => ?_
  · -- before the leading score all are below it
    obtain ⟨hmem, hfinite⟩ := List.mem_filter.mp hy
    obtain ⟨j, hj, rfl⟩ := List.mem_take_iff_getElem.mp hmem
    obtain ⟨hji, hlength⟩ := lt_min_iff.mp hj
    exact (not_le_iff (isNaN_of_isFinite hx) (isNaN_of_isFinite hfinite)).mp
      (h.not_le j hji _ (List.getElem?_eq_getElem hlength))
  · -- from there on none is above it
    exact h.not_lt y (List.mem_of_mem_drop (List.mem_filter.mp hy).1)

/-- The score that `Leads` has some of the mass that `softmax` gives. -/
theorem Leads.exists_probability_pos (hexp : IsExp exp) (h : Leads scores x i)
    {probabilities : List Float32} (hsoftmax : softmax exp scores = some probabilities) :
    ∃ w, probabilities[i]? = some w ∧ 0 < w := by
  refine Scores.exists_probability_pos hexp hsoftmax h.getElem?_eq ?_
  by_cases hmem : infinity ∈ scores
  · exact .inl (h.eq_infinity hmem)
  · -- without certain tokens the leading score is finite
    obtain ⟨hnan, hne⟩ := negInfinity_lt_iff.mp h.negInfinity_lt
    have hfinite := ((eq_or_isFinite hnan).resolve_left hne).resolve_right fun hinf =>
      hmem (hinf ▸ List.mem_of_getElem? h.getElem?_eq)
    exact .inr ⟨hmem, (h.maximum_eq hfinite).symm⟩

/-! ## What a draw picks -/

/-- A token that random selection picks with `select` has a positive probability.  So it has a score
that is neither undefined nor masked, and is certain where some are.  If it is the only one with a
positive probability it has the highest score. -/
theorem select_multinomial_pos (hexp : IsExp exp) (g : Generator) {token : Token}
    (h : (Sampler.select exp ⟨.multinomial, g⟩ scores).1 = some token) :
    ∃ probabilities w x, softmax exp scores = some probabilities ∧
      probabilities[token.toNat]? = some w ∧ 0 < w ∧
      scores[token.toNat]? = some x ∧ x.isNaN = false ∧ x ≠ negInfinity ∧
      (infinity ∈ scores → x = infinity) ∧
      ((∀ j v, probabilities[j]? = some v → 0 < v → j = token.toNat) →
        argMax scores = some token) := by
  rw [Sampler.select] at h
  cases hsoftmax : softmax exp scores with
  | none =>
    rw [hsoftmax] at h
    cases h
  | some probabilities =>
    have hdist := distributes_of_softmax hexp hsoftmax
    obtain ⟨i, w, hdraw, hw, hpos⟩ := Random.draw_spec hdist.nonneg hdist.exists_pos g
    obtain ⟨x, hx, hlt, hcertain⟩ := hdist.exists_score hw hpos
    simp only [hsoftmax, hdraw, Option.bind_some] at h
    obtain rfl := tokenAt?_eq_some_iff.mp h
    obtain ⟨hnan, hne⟩ := negInfinity_lt_iff.mp hlt
    refine ⟨probabilities, w, x, rfl, hw, hpos, hx, hnan, hne, hcertain, fun honly => ?_⟩
    -- the leading score has some of the mass, so it is the one
    obtain ⟨y, j, hleads⟩ := exists_leads (usable_of_softmax hsoftmax)
    obtain ⟨v, hv, hvpos⟩ := hleads.exists_probability_pos hexp hsoftmax
    rw [argMax_eq_of_leads hleads, honly j v hv hvpos, h]

/-- An undefined and a finite score stand before two certain ones, the first of which `select`
draws. -/
theorem select_multinomial_pos_certain :
    let scores : Scores := [.ofBits 0x7fc00000, 300, infinity, infinity, negInfinity]
    let g : Generator := ⟨⟨⟨0, 0, 0, 0⟩, ⟨0, 0, 0, 0⟩⟩, 0⟩
    IsExp (fun _ => 1) ∧
      (Sampler.select (fun _ => 1) ⟨.multinomial, g⟩ scores).1 = some 2 ∧
      ∃ probabilities w x, softmax (fun _ => 1) scores = some probabilities ∧
        probabilities[2]? = some w ∧ 0 < w ∧ scores[2]? = some x ∧ x = infinity := by
  intro scores g
  have hselect : (Sampler.select (fun _ => 1) ⟨.multinomial, g⟩ scores).1 = some 2 := by
    decide +kernel
  obtain ⟨probabilities, w, x, hsoftmax, hw, hpos, hx, -, -, hcertain, -⟩ :=
    select_multinomial_pos isExp_one g hselect
  have hmem : infinity ∈ scores := List.mem_of_getElem? (i := 2) rfl
  exact ⟨isExp_one, hselect, probabilities, w, x, hsoftmax, hw, hpos, hx, hcertain hmem⟩

/-! ## When a draw succeeds -/

/-- `select` finds a token exactly in `Usable` scores, whichever way it selects. -/
theorem isSome_select_iff (hexp : IsExp exp) (hlength : scores.length ≤ 2 ^ 32) (s : Sampler) :
    (s.select exp scores).1.isSome = true ↔ Usable scores := by
  by_cases husable : Usable scores
  · obtain ⟨i, x, hselect, hx, -⟩ := select_of_usable hexp s husable
    obtain ⟨hi, -⟩ := List.getElem?_eq_some_iff.mp hx
    have htoken : tokenAt? i = some i.toUInt32 := if_pos (hi.trans_le hlength)
    rw [hselect, htoken]
    exact iff_of_true rfl husable
  · rw [select_of_not_usable s husable]
    exact iff_of_false nofun husable

/-- From no more scores than there are tokens, `select` by random selection and by the highest score
both find a token exactly when some score is neither undefined nor masked.  A draw from the softmax
distribution never fails: its weights are numbers and not negative, and their total is positive and
finite. -/
theorem select_isSome_iff (hexp : IsExp exp) (hlength : scores.length ≤ 2 ^ 32) :
    (∀ g g' : Generator,
      ((Sampler.select exp ⟨.argMax, g⟩ scores).1.isSome = true ↔
        (Sampler.select exp ⟨.multinomial, g'⟩ scores).1.isSome = true) ∧
      ((Sampler.select exp ⟨.multinomial, g'⟩ scores).1.isSome = true ↔
        ∃ x ∈ scores, x.isNaN = false ∧ x ≠ negInfinity)) ∧
    ∀ probabilities, softmax exp scores = some probabilities →
      (∀ w ∈ probabilities, w.isNaN = false ∧ 0 ≤ w) ∧
      (∃ first rest, probabilities = first :: rest ∧ 0 < (Random.partialSums first rest).2 ∧
        (Random.partialSums first rest).2.isFinite = true) ∧
      ∀ g, ∃ i < scores.length, Random.draw probabilities g = (some i, g.next.2) := by
  refine ⟨fun g g' => ⟨?_, ?_⟩, fun probabilities hsoftmax => ⟨fun w hw => ?_, ?_, fun g => ?_⟩⟩
  · -- both depend on the scores only by their being usable
    rw [isSome_select_iff hexp hlength, isSome_select_iff hexp hlength]
  · simp only [isSome_select_iff hexp hlength, Usable, negInfinity_lt_iff]
  · have hnonneg := (distributes_of_softmax hexp hsoftmax).nonneg w hw
    exact ⟨(nonneg_iff.mp hnonneg).1, hnonneg⟩
  · -- the total could only overflow if some weights were above 1
    have hdist := distributes_of_softmax hexp hsoftmax
    have hle := softmax_le_one hexp (hlength.trans_lt (by norm_num)) hsoftmax
    obtain ⟨w, hw, -⟩ := hdist.exists_pos
    obtain ⟨first, rest, rfl⟩ := List.exists_cons_of_ne_nil (List.ne_nil_of_mem hw)
    exact ⟨first, rest, rfl, Random.total_pos hdist.nonneg hdist.exists_pos,
      Random.isFinite_total fun w hw => ⟨hdist.nonneg w hw, hle w hw⟩⟩
  · -- a draw answers a position of the list of probabilities, as long as that of the scores
    have hdist := distributes_of_softmax hexp hsoftmax
    obtain ⟨i, w, hdraw, hw, -⟩ := Random.draw_spec hdist.nonneg hdist.exists_pos g
    obtain ⟨hi, -⟩ := List.getElem?_eq_some_iff.mp hw
    exact ⟨i, hdist.length_eq ▸ hi, hdraw⟩

/-- A zero between an undefined and a masked score is found by `select`, and nothing is found in
those two alone. -/
theorem select_isSome_iff_undefined :
    let scores : Scores := [.ofBits 0x7fc00000, 0, negInfinity]
    let others : Scores := [.ofBits 0x7fc00000, negInfinity]
    IsExp (fun _ => 1) ∧ scores.length ≤ 2 ^ 32 ∧ others.length ≤ 2 ^ 32 ∧ ∀ g : Generator,
      (Sampler.select (fun _ => 1) ⟨.multinomial, g⟩ scores).1.isSome = true ∧
      ¬(Sampler.select (fun _ => 1) ⟨.multinomial, g⟩ others).1.isSome = true := by
  intro scores others
  have hlength : scores.length ≤ 2 ^ 32 ∧ others.length ≤ 2 ^ 32 := by decide
  refine ⟨isExp_one, hlength.1, hlength.2, fun g => ⟨?_, ?_⟩⟩
  · have hmem : 0 ∈ scores := List.mem_of_getElem? (i := 1) rfl
    exact ((select_isSome_iff isExp_one hlength.1).1 g g).2.mpr ⟨0, hmem, by decide, by decide⟩
  · rw [((select_isSome_iff isExp_one hlength.2).1 g g).2]
    decide

end Utterance.Scores
