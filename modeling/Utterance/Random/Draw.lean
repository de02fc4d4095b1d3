import Utterance.Random.Generator

/-!
# Weighted draws

A draw picks a position in proportion to its weight.  One word gives a number below the total of
the weights, and the position is the number of partial sums that do not exceed it.
-/

namespace Utterance.Random

/-- The number in `[0, 1)` that a word stands for: its upper 23 bits as a fraction. -/
def unit (word : UInt32) : Float32 :=
  -- with this exponent a number lies in `[1, 2)`
  .ofBits ((word >>> 9) ||| 0x3f800000) - 1

/-- The largest value of `unit`. -/
def unitMax : Float32 :=
  .ofBits 0x3f7ffffe

/-- The largest value with no more than the given bits whose product with `unitMax` stays below
`total`. -/
def scaleBelow (total : Float32) : Nat → Float32
  | 0 => .ofBits 0
  | bits + 1 =>
    -- the factor steps down through all patterns until it is small enough
    let scale := Float32.ofBits (bits + 1).toUInt32
    if total ≤ scale * unitMax then scaleBelow total bits else scale

/-- The factor that takes `[0, 1)` into the numbers below `total`. -/
def scale (total : Float32) : Float32 :=
  scaleBelow total total.toBits.toNat

/-- The sums of the weights up to each position but the last, and the sum of all of them. -/
def partialSums (sum : Float32) : List Float32 → List Float32 × Float32
  | [] => ([], sum)
  | weight :: rest =>
    let (sums, total) := partialSums (sum + weight) rest
    (sum :: sums, total)

/-- Draws a position in proportion to `weights`.  Nothing is drawn, and no word is taken, when
there is no weight, one is negative or undefined, or all are zero. -/
def draw (weights : List Float32) (g : Generator) : Option Nat × Generator :=
  match weights with
  | [] => (none, g)
  | first :: rest =>
    let (sums, total) := partialSums first rest
    -- weights are checked before a word is taken
    if weights.all (0 ≤ ·) && !(total == 0) then
      let (word, g) := g.next
      let chosen := unit word * scale total
      -- the position is the number of sums that the chosen number has passed
      (some (sums.countP (· ≤ chosen)), g)
    else
      (none, g)

end Utterance.Random
