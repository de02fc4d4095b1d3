import Std.Data.HashSet.Basic
import Utterance.Scores.Ranking
import Utterance.Scores.Softmax

/-!
# Nucleus truncation

Tokens are taken in the order of their scores until their probabilities reach the wanted mass; all
others are masked.  Where the mass is reached among identical scores, `keepNucleus` keeps those at
the lower positions, by the assumption that `ranked` makes about them.
-/

namespace Utterance.Scores

/-- The positions that stay: each one for which the mass of those ranked above it is below
`mass`. -/
def nucleus (mass : Float32) (probability : Nat → Float32) :
    Float32 → List Nat → List Nat
  | _, [] => []
  | total, position :: rest =>
    -- the first position stays in any case, as the total starts at 0
    if mass ≤ total then nucleus mass probability total rest
    else position :: nucleus mass probability (total + probability position) rest

/-- Masks every score outside of the smallest set of highest scores whose probabilities reach
`mass`.  Nothing changes when `mass` is 1 or more, or when there is no distribution. -/
def keepNucleus (exp : Float32 → Float32) (mass : Float32) (scores : Scores) : Scores :=
  if 1 ≤ mass then scores
  else
    match softmax exp scores with
    | none => scores
    | some probabilities =>
      -- tables for lookup by position, as scores may be many
      let table := probabilities.toArray
      let order := (ranked scores).map (·.2)
      let kept := Std.HashSet.ofList (nucleus mass (fun i => table[i]?.getD 0) 0 order)
      scores.mapIdx fun id score => if kept.contains id then score else Binary.negInfinity

end Utterance.Scores
