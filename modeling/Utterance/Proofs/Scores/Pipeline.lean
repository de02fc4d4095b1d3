import Utterance.Proofs.Sampling.Settings
import Utterance.Proofs.Scores.Rescaling
import Utterance.Proofs.Scores.Truncation
import Utterance.Scores.Pipeline

/-!
# The pipeline on the infinities

Under settings in range every stage narrows the scores, so the pipeline does (`reweigh_narrows`).
It leaves a usable score exactly when the penalty does (`reweigh_usable_iff`).
-/

namespace Utterance.Scores

open Binary Sampling

/-- A `Stage` with its parameter in range. -/
def Stage.Valid : Stage → Prop
  | .penalty value => value.isFinite = true ∧ 1 ≤ value
  | .temperature value => value.isFinite = true ∧ 0 < value
  | .topK _ => True
  | .topP mass => 0 < mass

/-- What is in a list of a single `Stage` or none is that stage. -/
private theorem eq_of_mem_ite {c : Prop} [Decidable c] {stage only : Stage} :
    (stage ∈ (if c then [] else [only]) → stage = only) ∧
      (stage ∈ (if c then [only] else []) → stage = only) := by
  by_cases hc : c
  · simp [hc]
  · simp [hc]

/-- Settings in range make `stages` ask for stages in range. -/
theorem stages_valid {s : Settings} (hs : s.Valid) : ∀ stage ∈ stages s, stage.Valid := by
  obtain ⟨htemperature, htopP, hpenalty, -⟩ := s.valid_iff.mp hs
  intro stage hstage
  simp only [stages, List.mem_append] at hstage
  -- one case for each stage, in the order of `stages`
  rcases hstage with ((h | h) | h) | h
  · rw [eq_of_mem_ite.1 h]
    exact hpenalty
  · rw [eq_of_mem_ite.1 h]
    exact htemperature
  · rw [eq_of_mem_ite.1 h]
    trivial
  · rw [eq_of_mem_ite.2 h]
    exact htopP.2.1

/-- A `Stage` in range `Narrows` the scores, whatever has been used. -/
theorem Stage.apply_narrows (exp : Float32 → Float32) (history : List Token) {stage : Stage}
    (hstage : stage.Valid) {scores : Scores} (hscores : Numbers scores) :
    Narrows scores (stage.apply exp history scores) := by
  cases stage with
  | penalty value => exact penaliseRepeats_narrows hstage.1 hstage.2 history hscores
  | temperature value => exact temper_narrows hstage.1 hstage.2 hscores
  | topK count => exact keepTop_narrows count hscores
  | topP mass => exact keepNucleus_narrows exp hstage hscores

/-- A `Stage` in range other than the penalty makes no usable scores unusable. -/
theorem Stage.apply_usable (exp : Float32 → Float32) (history : List Token) {stage : Stage}
    (hstage : stage.Valid) (hother : ∀ value, stage ≠ .penalty value) {scores : Scores}
    (hscores : Numbers scores) (husable : Usable scores) :
    Usable (stage.apply exp history scores) := by
  cases stage with
  | penalty value => exact absurd rfl (hother value)
  | temperature value => exact temper_usable hstage.1 hstage.2 hscores husable
  | topK count => exact keepTop_usable count husable
  | topP mass => exact keepNucleus_usable exp hstage hscores husable

/-- `reweigh` goes through the stages one after the other. -/
theorem reweigh_append (exp : Float32 → Float32) (first rest : List Stage) (history : List Token)
    (scores : Scores) :
    reweigh exp (first ++ rest) history scores =
      reweigh exp rest history (reweigh exp first history scores) :=
  List.foldl_append

section Run

variable (exp : Float32 → Float32) (history : List Token)

/-- A run of stages in range `Narrows` the scores, as each of them does. -/
theorem reweigh_narrows {run : List Stage} (hrun : ∀ stage ∈ run, stage.Valid) {scores : Scores}
    (hscores : Numbers scores) : Narrows scores (reweigh exp run history scores) := by
  -- `Narrows` is transitive, and what a stage leaves are numbers again
  induction run generalizing scores with
  | nil => exact .refl hscores
  | cons stage run ih =>
    have hstep := Stage.apply_narrows exp history (hrun stage List.mem_cons_self) hscores
    have hrest := ih (fun st hst => hrun st (List.mem_cons_of_mem _ hst)) hstep.numbers
    exact hstep.trans hrest

/-- A run of stages in range without the penalty leaves `Usable` scores so. -/
theorem reweigh_usable {run : List Stage} (hrun : ∀ stage ∈ run, stage.Valid)
    (hother : ∀ stage ∈ run, ∀ value, stage ≠ .penalty value) {scores : Scores}
    (hscores : Numbers scores) (husable : Usable scores) :
    Usable (reweigh exp run history scores) := by
  induction run generalizing scores with
  | nil => exact husable
  | cons stage run ih =>
    have hstage := hrun stage List.mem_cons_self
    have hstep := Stage.apply_narrows exp history hstage hscores
    refine ih (fun st hst => hrun st (List.mem_cons_of_mem _ hst))
      (fun st hst => hother st (List.mem_cons_of_mem _ hst)) hstep.numbers ?_
    exact Stage.apply_usable exp history hstage (hother stage List.mem_cons_self) hscores husable

/-- The pipeline of `stages` leaves a usable score exactly when the penalty spares one. -/
theorem reweigh_usable_iff {s : Settings} (hs : s.Valid) {scores : Scores}
    (hscores : Numbers scores) :
    Usable (reweigh exp (stages s) history scores) ↔
      Spared s.repetitionPenalty history scores := by
  obtain ⟨-, -, hpenalty, -⟩ := s.valid_iff.mp hs
  -- the penalty comes first, and no later stage masks all that is left
  obtain ⟨first, rest, hstages, hfirst, hother⟩ : ∃ first rest, stages s = first ++ rest ∧
      first = (if s.repetitionPenalty == 1 then [] else [.penalty s.repetitionPenalty]) ∧
      ∀ stage ∈ rest, ∀ value, stage ≠ .penalty value := by
    refine ⟨_, _, (List.append_assoc _ _ _).trans (List.append_assoc _ _ _), rfl, ?_⟩
    intro stage hstage value
    simp only [List.mem_append] at hstage
    rcases hstage with h | h | h
    · rw [eq_of_mem_ite.1 h]
      nofun
    · rw [eq_of_mem_ite.1 h]
      nofun
    · rw [eq_of_mem_ite.2 h]
      nofun
  have hvalid := stages_valid hs
  have hrun : ∀ middle : Scores, Numbers middle →
      (Usable (reweigh exp rest history middle) ↔ Usable middle) := by
    intro middle hmiddle
    have hrest : ∀ stage ∈ rest, stage.Valid := fun stage hstage =>
      hvalid stage (hstages ▸ List.mem_append_right _ hstage)
    exact ⟨(reweigh_narrows exp history hrest hmiddle).usable hmiddle,
      reweigh_usable exp history hrest hother hmiddle⟩
  have hsplit : reweigh exp (stages s) history scores =
      reweigh exp rest history (reweigh exp first history scores) := by
    rw [hstages, reweigh_append]
  rw [hsplit]
  by_cases hone : (s.repetitionPenalty == 1) = true
  · rw [hfirst, if_pos hone, spared_iff_usable hone]
    exact hrun scores hscores
  · rw [hfirst, if_neg hone]
    have hnarrows := penaliseRepeats_narrows hpenalty.1 hpenalty.2 history hscores
    exact (hrun _ hnarrows.numbers).trans
      (penaliseRepeats_usable_iff hpenalty.1 hpenalty.2 history hscores)

end Run

end Utterance.Scores
