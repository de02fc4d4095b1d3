import Utterance.Binary
import Utterance.Token

/-!
# Temperature

Scores are divided by the temperature.  When that would take a finite score out of range, all are
first shifted down by the largest finite one, which keeps their order and puts that one at 0.
-/

namespace Utterance.Scores

/-- Whether division takes some finite score out of range. -/
def overflows (temperature : Float32) (scores : Scores) : Bool :=
  scores.any fun score => score.isFinite && !(score / temperature).isFinite

/-- What is subtracted from every score before division. -/
def shift (temperature : Float32) (scores : Scores) : Float32 :=
  -- the shift leaves the largest finite score at 0
  if overflows temperature scores then
    Binary.maximum (scores.filter (·.isFinite))
  else
    0

/-- Divides every score by `temperature`, keeping the finite ones from overflowing upwards. -/
def temper (temperature : Float32) (scores : Scores) : Scores :=
  let shift := shift temperature scores
  scores.map fun score => (score - shift) / temperature

end Utterance.Scores
