import Utterance.Proofs.Random.Draw
import Utterance.Proofs.Scores.ArgMax
import Utterance.Proofs.Scores.Pipeline
import Utterance.Proofs.Scores.Softmax

/-!
# What selection can pick

Either way to select picks a score above `-inf`, and one of `inf` where there are any.  It fails
only when every score is masked or undefined, or when the position it picks is beyond the token ids.
Through the pipeline, the same holds of the scores before re-weighting.
-/

namespace Utterance.Scores

open Binary Sampling

variable {scores : Scores} {exp : Float32 → Float32}

/-- `tokenAt?` names a position by the token whose id it is. -/
theorem tokenAt?_eq_some_iff {i : ℕ} {token : Token} :
    tokenAt? i = some token ↔ token.toNat = i := by
  rw [tokenAt?]
  split
  · next h =>
    have htoNat : i.toUInt32.toNat = i := UInt32.toNat_ofNat_of_lt' h
    rw [Option.some.injEq, ← UInt32.toNat_inj, htoNat, eq_comm]
  · next h =>
    refine iff_of_false nofun fun heq => h ?_
    rw [← heq]
    exact token.toNat_lt

/-- Every score above `-inf` stands at a position that fits in a token id. -/
def Addressed (scores : Scores) : Prop :=
  ∀ (i : ℕ) (x : Float32), scores[i]? = some x → negInfinity < x → i < 2 ^ 32

/-! ## Selection -/

/-- From `Usable` scores, either way to `select` picks the position of a score above `-inf`, and of
`inf` where there are any.  Undefined scores do not matter. -/
theorem select_of_usable (hexp : IsExp exp) (s : Sampler) (husable : Usable scores) :
    ∃ (i : ℕ) (x : Float32), (s.select exp scores).1 = tokenAt? i ∧ scores[i]? = some x ∧
      negInfinity < x ∧ (infinity ∈ scores → x = infinity) := by
  rw [Sampler.select]
  cases s.selection with
  | argMax =>
    obtain ⟨x, i, hleads⟩ := exists_leads husable
    exact ⟨i, x, argMax_eq_of_leads hleads, hleads.getElem?_eq, hleads.negInfinity_lt,
      hleads.eq_infinity⟩
  | multinomial =>
    obtain ⟨probabilities, hsoftmax, hdist⟩ := softmax_of_usable hexp husable
    -- the draw ends at a position of positive probability
    obtain ⟨i, w, hdraw, hw, hpos⟩ := Random.draw_spec hdist.nonneg hdist.exists_pos s.generator
    obtain ⟨x, hx, hsupport⟩ := hdist.exists_score hw hpos
    refine ⟨i, x, ?_, hx, hsupport⟩
    simp only [hsoftmax, hdraw, Option.bind_some]

/-- From scores that are all masked or undefined `select` picks nothing, and takes no random
word. -/
theorem select_of_not_usable (s : Sampler) (h : ¬Usable scores) :
    s.select exp scores = (none, s) := by
  rw [Sampler.select]
  cases s.selection with
  | argMax => simp only [argMax_of_not_usable h]
  | multinomial =>
    cases hsoftmax : softmax exp scores with
    | none => rfl
    | some probabilities => exact absurd (usable_of_softmax hsoftmax) h

/-- `select` changes the generator of a sampler, not its way to select. -/
theorem selection_select (s : Sampler) (exp : Float32 → Float32) (scores : Scores) :
    (s.select exp scores).2.selection = s.selection := by
  obtain ⟨selection, g⟩ := s
  cases selection with
  | argMax => rfl
  | multinomial =>
    rw [Sampler.select]
    cases softmax exp scores <;> rfl

/-! ## Words taken -/

namespace Sampler

/-- The sampler with `n` tokens selected: random selection takes a word for each. -/
def skip (s : Sampler) (n : ℕ) : Sampler :=
  match s.selection with
  | .multinomial => { s with generator := s.generator.skip n }
  | .argMax => s

variable (s : Sampler)

/-- Without a token selected `skip` leaves a sampler the same. -/
@[simp] theorem skip_zero : s.skip 0 = s := by
  obtain ⟨selection, generator⟩ := s
  cases selection <;> rfl

/-- Tokens that are selected in two goes add up, in `skip`. -/
theorem skip_skip (m n : ℕ) : (s.skip m).skip n = s.skip (m + n) := by
  obtain ⟨selection, generator⟩ := s
  cases selection with
  | argMax => rfl
  | multinomial => simp only [skip, Random.Generator.skip_skip]

end Sampler

/-- `softmax` gives as many probabilities as there are scores. -/
theorem length_softmax {probabilities : List Float32}
    (h : softmax exp scores = some probabilities) : probabilities.length = scores.length := by
  simp only [softmax] at h
  split at h
  · obtain rfl := Option.some.inj h
    exact List.length_map _
  · split at h
    · obtain rfl := Option.some.inj h
      simp
    · cases h

/-- `select` from no more scores than there are tokens fails and takes no word, or succeeds and
takes one if it is random. -/
theorem select_cases (exp : Float32 → Float32) (s : Sampler) (hlength : scores.length ≤ 2 ^ 32) :
    s.select exp scores = (none, s) ∨ ∃ token, s.select exp scores = (some token, s.skip 1) := by
  obtain ⟨selection, g⟩ := s
  -- either mode answers a token only after one call of its own
  cases selection with
  | argMax =>
    cases htoken : argMax scores with
    | none => exact .inl (by simp only [Sampler.select, htoken])
    | some token => exact .inr ⟨token, by simp only [Sampler.select, htoken, Sampler.skip]⟩
  | multinomial =>
    cases hsoftmax : softmax exp scores with
    | none => exact .inl (by simp only [Sampler.select, hsoftmax])
    | some probabilities =>
      have hsame := length_softmax hsoftmax
      rcases Random.draw_cases probabilities g with hdraw | ⟨i, hi, hdraw⟩
      · exact .inl (by simp only [Sampler.select, hsoftmax, hdraw, Option.bind_none])
      · -- a position among so few scores has a token
        have htoken : tokenAt? i = some i.toUInt32 := if_pos (show i < 2 ^ 32 by omega)
        refine .inr ⟨i.toUInt32, ?_⟩
        simp only [Sampler.select, hsoftmax, hdraw, Option.bind_some, htoken, Sampler.skip]
        rfl

/-! ## Selection from re-weighted scores -/

section Pipeline

variable {settings : Settings} (hsettings : settings.Valid) (hexp : IsExp exp)
  (history : List Token) (s : Sampler) (hscores : Numbers scores)

include hsettings hexp hscores

/-- What is selected after re-weighting had a score above `-inf` before, and one of `inf` where
there were any. -/
theorem select_reweigh_of_some {token : Token}
    (h : (s.select exp (reweigh exp (stages settings) history scores)).1 = some token) :
    ∃ x, scores[token.toNat]? = some x ∧ negInfinity < x ∧ (infinity ∈ scores → x = infinity) := by
  have hnarrows := reweigh_narrows exp history (stages_valid hsettings) hscores
  by_cases husable : Usable (reweigh exp (stages settings) history scores)
  · obtain ⟨i, y, hselect, hy, hlt, hinf⟩ := select_of_usable hexp s husable
    rw [h] at hselect
    obtain rfl := tokenAt?_eq_some_iff.mp hselect.symm
    exact hnarrows.exists_support hscores hy hlt hinf
  · rw [select_of_not_usable s husable] at h
    cases h

/-- `select` finds a token in re-weighted scores when the penalty spares one. -/
theorem select_reweigh_of_spared (hspared : Spared settings.repetitionPenalty history scores) :
    ∃ (i : ℕ) (x : Float32),
      (s.select exp (reweigh exp (stages settings) history scores)).1 = tokenAt? i ∧
        scores[i]? = some x ∧ negInfinity < x ∧ (infinity ∈ scores → x = infinity) := by
  have hnarrows := reweigh_narrows exp history (stages_valid hsettings) hscores
  obtain ⟨i, y, hselect, hy, hlt, hinf⟩ := select_of_usable hexp s
    ((reweigh_usable_iff exp history hsettings hscores).mpr hspared)
  obtain ⟨x, hx, hsupport⟩ := hnarrows.exists_support hscores hy hlt hinf
  exact ⟨i, x, hselect, hx, hsupport⟩

omit hexp in
/-- `select` fails on re-weighted scores when the penalty spares none, and takes no random word. -/
theorem select_reweigh_of_not_spared
    (hspared : ¬Spared settings.repetitionPenalty history scores) :
    s.select exp (reweigh exp (stages settings) history scores) = (none, s) :=
  select_of_not_usable s (mt (reweigh_usable_iff exp history hsettings hscores).mp hspared)

/-- `select` succeeds on re-weighted scores that have tokens exactly when the penalty spares one. -/
theorem isSome_select_reweigh_iff (hids : Addressed scores) :
    (s.select exp (reweigh exp (stages settings) history scores)).1.isSome = true ↔
      Spared settings.repetitionPenalty history scores := by
  by_cases hspared : Spared settings.repetitionPenalty history scores
  · obtain ⟨i, x, hselect, hx, hlt, -⟩ :=
      select_reweigh_of_spared hsettings hexp history s hscores hspared
    have htoken : tokenAt? i = some i.toUInt32 := if_pos (hids i x hx hlt)
    rw [hselect, htoken]
    exact iff_of_true rfl hspared
  · rw [select_reweigh_of_not_spared hsettings history s hscores hspared]
    exact iff_of_false nofun hspared

end Pipeline

/-- A certain token is `Spared` by every penalty. -/
theorem spared_of_infinity_mem {penalty : Float32} (hp : penalty.isFinite = true)
    (hp1 : 1 ≤ penalty) (history : List Token) (hmem : infinity ∈ scores) :
    Spared penalty history scores := by
  obtain ⟨i, hi⟩ := List.mem_iff_getElem?.mp hmem
  refine ⟨i, infinity, hi, by decide, fun _ => ?_⟩
  rw [infinity_mul (pos_of_one_le hp1) hp]
  decide

end Utterance.Scores
