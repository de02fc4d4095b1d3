import Utterance.Scores.Ranking

/-!
# Top-k truncation

Every score strictly below the `k`-th largest is masked.  Scores equal to it survive, so more than
`k` may remain.
-/

namespace Utterance.Scores

/-- The `k`-th largest score, when `k` is a proper truncation. -/
def threshold (k : Nat) (scores : Scores) : Option Float32 :=
  if k = 0 ∨ scores.length ≤ k then none
  else (ranked scores)[k - 1]?.map (·.1)

/-- Masks every score strictly below the `k`-th largest.  Nothing changes when `k` is 0 or no
smaller than the number of scores. -/
def keepTop (k : Nat) (scores : Scores) : Scores :=
  match threshold k scores with
  | none => scores
  | some threshold =>
    scores.map fun score => if score < threshold then Binary.negInfinity else score

end Utterance.Scores
