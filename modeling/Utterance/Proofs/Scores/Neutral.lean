import Utterance.Proofs.Binary.Neutral
import Utterance.Proofs.Scores.Pipeline

/-!
# Stages that are switched off

A penalty or a temperature of 1, a count of 0 and a mass of 1 change no score, down to the sign of a
zero.  So it makes no difference that the pipeline leaves such stages out (`reweigh_eq_chain`).
-/

namespace Utterance.Scores

open Binary Sampling

variable (exp : Float32 → Float32) (history : List Token) (scores : Scores)

/-! ## Parameters that change nothing -/

/-- A penalty of 1 leaves a score as it is, whichever side of 0 it is on. -/
@[simp] theorem penalise_one (x : Float32) : penalise 1 x = x := by
  rw [penalise, Binary.mul_one, Binary.div_one, ite_self]

/-- So `penaliseRepeats` does nothing with it, whatever tokens have been used. -/
theorem penaliseRepeats_one : penaliseRepeats 1 history scores = scores := by
  refine List.ext_getElem? fun i => ?_
  simp only [penaliseRepeats, penalise_one, ite_self, List.getElem?_mapIdx, Option.map_id']

/-- Division by 1 takes no finite score out of range, so no shift is called for. -/
theorem overflows_one : overflows 1 scores = false := by
  simp [overflows]

/-- So `temper` with a temperature of 1 changes no score, not even the sign of a zero. -/
theorem temper_one : temper 1 scores = scores := by
  have hshift : shift 1 scores = 0 := by rw [shift, overflows_one, if_neg Bool.false_ne_true]
  simp only [temper, hshift, Binary.sub_zero, Binary.div_one, List.map_id']

/-- For `keepTop` a count of 0 stands for no limit. -/
theorem keepTop_zero : keepTop 0 scores = scores := by
  rw [keepTop, threshold, if_pos (.inl rfl)]

/-- For `keepNucleus` a mass of 1 or more stands for no limit. -/
theorem keepNucleus_of_one_le {mass : Float32} (hmass : 1 ≤ mass) :
    keepNucleus exp mass scores = scores := by
  rw [keepNucleus, if_pos hmass]

/-! ## The pipeline -/

variable {exp history scores}

/-- A stage that `stages` leaves out only where it changes nothing may as well stay in. -/
theorem reweigh_unless {off : Prop} [Decidable off] {stage : Stage}
    (h : off → stage.apply exp history scores = scores) :
    reweigh exp (if off then [] else [stage]) history scores = stage.apply exp history scores := by
  by_cases hoff : off
  · rw [if_pos hoff, h hoff]
    rfl
  · rw [if_neg hoff]
    rfl

/-- Under settings in range, the stages that the settings ask for do the same as all four stages in
a row with the parameters of the settings. -/
theorem reweigh_eq_chain {s : Settings} (hs : s.Valid) (exp : Float32 → Float32)
    (history : List Token) (scores : Scores) :
    reweigh exp (stages s) history scores =
      keepNucleus exp s.topP (keepTop s.topK
        (temper s.temperature (penaliseRepeats s.repetitionPenalty history scores))) := by
  obtain ⟨-, ⟨htopP, -, -⟩, -⟩ := s.valid_iff.mp hs
  -- what each of the four stages does with the parameter at which it is left out
  have hpenalty : ∀ scores : Scores, s.repetitionPenalty == 1 →
      (Stage.penalty s.repetitionPenalty).apply exp history scores = scores := by
    intro scores h
    rw [beq_one_iff.mp h]
    exact penaliseRepeats_one history scores
  have htemperature : ∀ scores : Scores, s.temperature == 1 →
      (Stage.temperature s.temperature).apply exp history scores = scores := by
    intro scores h
    rw [beq_one_iff.mp h]
    exact temper_one scores
  have hcount : ∀ scores : Scores, s.topK = 0 →
      (Stage.topK s.topK).apply exp history scores = scores := by
    intro scores h
    rw [h]
    exact keepTop_zero scores
  have hmass : ∀ scores : Scores, ¬s.topP < 1 →
      (Stage.topP s.topP).apply exp history scores = scores := by
    intro scores h
    exact keepNucleus_of_one_le exp scores
      ((not_lt_iff (isNaN_of_isFinite htopP) (isNaN_of_isFinite isFinite_one)).mp h)
  rw [stages, ← ite_not (s.topP < 1), reweigh_append, reweigh_append, reweigh_append,
    reweigh_unless (hpenalty _), reweigh_unless (htemperature _), reweigh_unless (hcount _),
    reweigh_unless (hmass _)]
  rfl

/-- With only the penalty on, the other three stages keep the negative zero, the smallest positive
value and both infinities. -/
theorem reweigh_eq_chain_penalty :
    let scores : Scores := [.ofBits 0x80000000, 4, .ofBits 1, infinity, negInfinity]
    keepNucleus (fun _ => 1) 1 (keepTop 0 (temper 1 (penaliseRepeats 2 [1] scores))) =
      [.ofBits 0x80000000, 2, .ofBits 1, infinity, negInfinity] := by
  intro scores
  let s : Settings := { temperature := 1, topK := 0, topP := 1, repetitionPenalty := 2 }
  have hstages : stages s = [.penalty 2] := by decide +kernel
  refine (reweigh_eq_chain (s := s) (by decide) (fun _ => 1) [1] scores).symm.trans ?_
  rw [hstages]
  simp only [reweigh, List.foldl_cons, List.foldl_nil, Stage.apply, penaliseRepeats, contains_used]
  decide +kernel

end Utterance.Scores
