import Utterance.Random.Draw
import Utterance.Scores.Softmax

/-!
# Token selection

The next token is drawn from the softmax distribution or is the one with the highest score.
-/

namespace Utterance.Scores

open Utterance.Random (Generator)

/-- The token at a position of the score vector. -/
def tokenAt? (position : Nat) : Option Token :=
  if position < UInt32.size then some position.toUInt32 else none

/-- The better of the best token so far and the next one; masked and undefined scores are never
better, and the first of two equal scores stays. -/
def better (best : Option (Float32 × Nat)) (next : Float32 × Nat) : Option (Float32 × Nat) :=
  if next.1 == Binary.negInfinity || next.1.isNaN then best
  else
    match best with
    | none => some next
    -- the two zeros are equal here, so the first of them stays
    | some top => if next.1 ≤ top.1 then best else some next

/-- The token with the highest score, the lowest id of equal ones.  There is none when every score
is masked or undefined. -/
def argMax (scores : Scores) : Option Token :=
  (scores.zipIdx.foldl better none).bind fun best => tokenAt? best.2

/-- How tokens are picked from the re-weighted scores. -/
inductive Selection where
  /-- A draw from the softmax distribution. -/
  | multinomial
  /-- The highest score. -/
  | argMax
deriving DecidableEq, Repr

/-- A way to select and the random words left for it. -/
structure Sampler where
  selection : Selection
  generator : Generator
deriving DecidableEq

namespace Sampler

/-- A sampler whose draws repeat when there is a seed, and start from `unseeded` otherwise. -/
def new (selection : Selection) (seed : Option UInt64) (unseeded : Generator) : Sampler where
  selection := selection
  generator := (seed.map Generator.ofSeed).getD unseeded

/-- Picks a token, or none when the scores admit no distribution.  A random word is taken exactly
when a multinomial draw takes place. -/
def select (exp : Float32 → Float32) (s : Sampler) (scores : Scores) : Option Token × Sampler :=
  match s.selection with
  | .argMax => (Scores.argMax scores, s)
  | .multinomial =>
    match softmax exp scores with
    -- no word is taken where there is nothing to draw from
    | none => (none, s)
    | some probabilities =>
      let (position, generator) := Random.draw probabilities s.generator
      (position.bind tokenAt?, { s with generator })

end Sampler

end Utterance.Scores
