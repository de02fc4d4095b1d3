import Utterance.Binary

/-!
# Resampling

Linear interpolation between neighbouring samples.  Positions are computed in binary64, samples in
binary32.  A signal that would be longer than a buffer can be has no resampled form: so it is with
every signal at rate 0.
-/

namespace Utterance.Audio

open Float.Model (UnpackedFloat)

/-- The most samples of four bytes that a buffer of less than `2 ^ 63` bytes holds. -/
def capacity : Nat :=
  0x7fffffffffffffff / 4

/-- The nearest count, a half going up, at most the largest 64-bit number; 0 for what is no
number or negative. -/
def nearestCount (x : Float) : Nat :=
  match x.toModel.unpack with
  | .infinity .positive => UInt64.size - 1
  | value => min ((Binary.nearestInt value).getD 0).toNat (UInt64.size - 1)

/-- The sample of `input` at a position between two of its indices, each at most `last`. -/
def interpolate (input : Array Float32) (last : Nat) (position : Float) : Float32 :=
  -- beyond the end both neighbours are the last sample
  let left := min position.toUInt64.toNat last
  let right := min (left + 1) last
  let fraction := Binary.narrow (position - left.toUInt64.toFloat)
  input.getD left 0 * (1 - fraction) + input.getD right 0 * fraction

/-- The factor from counts at rate `source` to counts at rate `target`. -/
def ratio (source target : UInt32) : Float :=
  target.toFloat / source.toFloat

/-- How many samples at rate `target` a signal of `length` samples at rate `source` takes. -/
def resampledLength (length : Nat) (source target : UInt32) : Nat :=
  nearestCount (length.toUInt64.toFloat * ratio source target)

/-- The samples of a signal at rate `source`, taken at rate `target`, unless they are more than a
buffer holds. -/
def resample (input : List Float32) (source target : UInt32) : Option (List Float32) :=
  if input.isEmpty || source == target then some input
  else
    -- an array for the samples, since each is looked up by its index
    let table := input.toArray
    let length := resampledLength table.size source target
    -- a vector of so many samples cannot be made
    if capacity < length then none
    else
      some <| (List.range length).map fun i =>
        interpolate table (table.size - 1) (i.toUInt64.toFloat / ratio source target)

end Utterance.Audio
