import Utterance.Binary
import Utterance.Token

/-!
# Softmax

Probabilities of tokens from their scores.  The exponential is a parameter, since all that matters
about it is that it is monotone and maps `(-∞, 0]` into `[0, 1]` with `exp 0 = 1`.
-/

namespace Utterance.Scores

/-- The weight of a score below the largest finite one; masked and undefined scores weigh 0. -/
def weight (exp : Float32 → Float32) (top score : Float32) : Float32 :=
  if score.isFinite then exp (score - top) else 0

/-- The probability of each token.  Scores of `inf` share all of the mass equally.  There is no
distribution when no score is finite or `inf`. -/
def softmax (exp : Float32 → Float32) (scores : Scores) : Option (List Float32) :=
  let certain := scores.countP (· == Binary.infinity)
  -- an exponential of `inf` would leave no distribution
  if 0 < certain then
    let share := 1 / certain.toUInt64.toFloat32
    some (scores.map fun score => if score == Binary.infinity then share else 0)
  else
    -- the largest score has weight 1, so the sum is positive
    let top := Binary.maximum (scores.filter (·.isFinite))
    if top.isFinite then
      let weights := scores.map (weight exp top)
      let total := Binary.sum weights
      some (weights.map (· / total))
    else
      none

end Utterance.Scores
