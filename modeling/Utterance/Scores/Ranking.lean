import Utterance.Binary
import Utterance.Token

/-!
# Ranking

Positions in the order of their scores, highest first.  Identical scores keep the order of their
positions.  That is an assumption: the ranking is by total order, and a sort that is not stable
may leave identical scores in another one.  `ranked` takes the stable order for it, so that the
lower position comes first.
-/

namespace Utterance.Scores

/-- The scores with their positions, highest first. -/
def ranked (scores : Scores) : List (Float32 × Nat) :=
  scores.zipIdx.mergeSort fun a b => Binary.rank b.1 ≤ Binary.rank a.1

end Utterance.Scores
