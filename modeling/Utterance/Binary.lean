/-!
# Binary floating-point values

Scores and samples are binary32 values; rates and configuration numbers pass through binary64.
Arithmetic and comparison are the core operations on `Float32` and `Float`, which have a logical
model.  This module adds what those leave out, in terms of the same model:

* `widen` and `narrow` convert between the two formats (exactly, and to nearest with ties to even);
* `nearestInt` rounds to an integer with halves going away from zero;
* `rank` is the order in which every value has a place: `-0` below `0`, the infinities outside the
  finite values, and NaN above `inf`.
-/

namespace Utterance.Binary

open Float.Model (Format UnpackedFloat)

/-- The value that outranks every finite one. -/
def infinity : Float32 := .ofBits 0x7f800000

/-- The score of a masked token. -/
def negInfinity : Float32 := .ofBits 0xff800000

/-- A value fitted to `format`: rounded to nearest, ties to even. -/
def refit (format : Format) : UnpackedFloat → UnpackedFloat
  | .finite sign significand exponent _ => .round format sign significand exponent
  | value => value

/-- The binary64 value equal to a binary32 value. -/
def widen (x : Float32) : Float :=
  .ofModel (.pack (refit .binary64 x.toModel.unpack))

/-- The binary32 value nearest to a binary64 value. -/
def narrow (x : Float) : Float32 :=
  .ofModel (.pack (refit .binary32 x.toModel.unpack))

/-- `significand * 2 ^ exponent` rounded to a natural number, a half going up. -/
def roundHalfUp (significand : Nat) (exponent : Int) : Nat :=
  let scale := 1 <<< (-exponent).toNat
  (2 * significand <<< exponent.toNat + scale) / (2 * scale)

/-- The integer nearest to a finite value, halves going away from zero. -/
def nearestInt : UnpackedFloat → Option Int
  | .finite sign significand exponent _ => some (sign.apply (roundHalfUp significand exponent))
  | .zero _ => some 0
  | .infinity _ => none
  | .notANumber => none

/-- The place of a value among all values: larger values rank higher, `0` outranks `-0`, and NaN
outranks `inf`. -/
def rank (x : Float32) : Int :=
  let bits := x.toBits.toNat
  if bits < 0x80000000 then bits else 0x7fffffff - (bits : Int)

/-- The largest of some values, or `-inf` when there is none.  Of equal ones the earlier counts. -/
def maximum (xs : List Float32) : Float32 :=
  xs.foldl (fun top x => if top < x then x else top) negInfinity

/-- The sum of some values, added from left to right to the neutral value `-0`. -/
def sum (xs : List Float32) : Float32 :=
  xs.foldl (· + ·) (.ofBits 0x80000000)

end Utterance.Binary
