import Utterance.Sampling.Settings
import Utterance.Scores.Penalty
import Utterance.Scores.Temperature
import Utterance.Scores.TopK
import Utterance.Scores.TopP

/-!
# The re-weighting pipeline

Penalty, temperature, top-k and nucleus truncation, in this order, with the stages that the
settings switch off left out.
-/

namespace Utterance.Scores

open Sampling (Settings)

/-- One stage of re-weighting. -/
inductive Stage where
  | penalty (value : Float32)
  | temperature (value : Float32)
  | topK (count : Nat)
  | topP (mass : Float32)
deriving DecidableEq

/-- The scores after one stage, given the tokens used so far. -/
def Stage.apply (exp : Float32 → Float32) (history : List Token) : Stage → Scores → Scores
  | .penalty value => penaliseRepeats value history
  | .temperature value => temper value
  | .topK count => keepTop count
  | .topP mass => keepNucleus exp mass

/-- The stages that the settings ask for, in the order in which they run. -/
def stages (s : Settings) : List Stage :=
  -- a stage is left out where its parameter switches it off
  (if s.repetitionPenalty == 1 then [] else [.penalty s.repetitionPenalty]) ++
  (if s.temperature == 1 then [] else [.temperature s.temperature]) ++
  (if s.topK = 0 then [] else [.topK s.topK]) ++
  (if s.topP < 1 then [.topP s.topP] else [])

/-- The scores after all of the stages. -/
def reweigh (exp : Float32 → Float32) (stages : List Stage) (history : List Token)
    (scores : Scores) : Scores :=
  stages.foldl (fun scores stage => stage.apply exp history scores) scores

end Utterance.Scores
