import Utterance.Audio.Wav.Reader

/-!
# Bytes read back

The bytes of a word give its number back, and what stands behind them is left alone.
-/

namespace Utterance.Audio

/-- `bytes16` makes two bytes of a word. -/
@[simp] theorem length_bytes16 (x : UInt16) : (bytes16 x).length = 2 :=
  rfl

/-- `bytes32` makes four. -/
@[simp] theorem length_bytes32 (x : UInt32) : (bytes32 x).length = 4 :=
  rfl

/-- `ofBytes` reads the number that `bytes16` has written. -/
theorem ofBytes_bytes16 (x : UInt16) : ofBytes (bytes16 x) = x.toNat := by
  have hx := x.toNat_lt
  simp only [bytes16, ofBytes, UInt16.toNat_toUInt8, UInt16.toNat_shiftRight, UInt16.reduceToNat,
    Nat.shiftRight_eq_div_pow, Nat.reduceMod, Nat.reducePow]
  omega

/-- `ofBytes` reads the number that `bytes32` has written. -/
theorem ofBytes_bytes32 (x : UInt32) : ofBytes (bytes32 x) = x.toNat := by
  have hx := x.toNat_lt
  simp only [bytes32, ofBytes, UInt32.toNat_toUInt8, UInt32.toNat_shiftRight, UInt32.reduceToNat,
    Nat.shiftRight_eq_div_pow, Nat.reduceMod, Nat.reducePow]
  omega

/-- `take?` takes a front of the wanted length off a text of bytes. -/
theorem take?_append {front : List UInt8} {n : Nat} (hn : front.length = n) (rest : List UInt8) :
    take? n (front ++ rest) = some (front, rest) := by
  rw [take?, List.take_left' hn, List.drop_left' hn]
  exact if_pos hn

/-- `number?` reads a word of two bytes and leaves the rest. -/
theorem Wav.number?_bytes16 (x : UInt16) (rest : List UInt8) :
    number? 2 (bytes16 x ++ rest) = some (x.toNat, rest) := by
  rw [number?, take?_append (length_bytes16 x), ← ofBytes_bytes16]
  rfl

/-- `number?` reads a word of four bytes and leaves the rest. -/
theorem Wav.number?_bytes32 (x : UInt32) (rest : List UInt8) :
    number? 4 (bytes32 x ++ rest) = some (x.toNat, rest) := by
  rw [number?, take?_append (length_bytes32 x), ← ofBytes_bytes32]
  rfl

end Utterance.Audio
