import Std.Data.HashSet.Basic
import Utterance.Token

/-!
# Repetition penalty

A token that has been used has its score moved away from selection once, however often it was used.
-/

namespace Utterance.Scores

/-- A score weighed down: a negative score is multiplied, any other is divided. -/
def penalise (penalty score : Float32) : Float32 :=
  if score < 0 then score * penalty else score / penalty

/-- Weighs down the score of each token in `history`.  Ids without a score are ignored. -/
def penaliseRepeats (penalty : Float32) (history : List Token) (scores : Scores) : Scores :=
  let used := Std.HashSet.ofList (history.map (·.toNat))
  scores.mapIdx fun id score => if used.contains id then penalise penalty score else score

end Utterance.Scores
