/-!
# The ChaCha block function

Sixteen words in four rows of four.  A double round mixes the columns and then the diagonals; the
block is the state after all rounds, added to the state before them.
-/

namespace Utterance.Random

/-- Four words, one in each column. -/
structure Row where
  w0 : UInt32
  w1 : UInt32
  w2 : UInt32
  w3 : UInt32
deriving DecidableEq

namespace Row

/-- Applies a function in each column. -/
def zip (f : UInt32 → UInt32 → UInt32) (x y : Row) : Row :=
  ⟨f x.w0 y.w0, f x.w1 y.w1, f x.w2 y.w2, f x.w3 y.w3⟩

/-- The row turned left by one column. -/
def turn (x : Row) : Row :=
  ⟨x.w1, x.w2, x.w3, x.w0⟩

/-- The words of a row. -/
def toList (x : Row) : List UInt32 :=
  [x.w0, x.w1, x.w2, x.w3]

end Row

/-- A word with its bits turned left by `n`. -/
def rotateLeft (n x : UInt32) : UInt32 :=
  (x <<< n) ||| (x >>> (32 - n))

/-- Sixteen words. -/
structure Square where
  a : Row
  b : Row
  c : Row
  d : Row
deriving DecidableEq

namespace Square

/-- The quarter round in every column at once. -/
def quarter (s : Square) : Square :=
  -- each word is added to, crossed with and turned, in four steps
  let a := s.a.zip (· + ·) s.b
  let d := s.d.zip (fun x y => rotateLeft 16 (x ^^^ y)) a
  let c := s.c.zip (· + ·) d
  let b := s.b.zip (fun x y => rotateLeft 12 (x ^^^ y)) c
  let a := a.zip (· + ·) b
  let d := d.zip (fun x y => rotateLeft 8 (x ^^^ y)) a
  let c := c.zip (· + ·) d
  let b := b.zip (fun x y => rotateLeft 7 (x ^^^ y)) c
  ⟨a, b, c, d⟩

/-- Moves the diagonals into the columns. -/
def skew (s : Square) : Square :=
  ⟨s.a, s.b.turn, s.c.turn.turn, s.d.turn.turn.turn⟩

/-- Moves the columns back into the diagonals. -/
def unskew (s : Square) : Square :=
  ⟨s.a, s.b.turn.turn.turn, s.c.turn.turn, s.d.turn⟩

/-- Mixes the columns, then the diagonals. -/
def doubleRound (s : Square) : Square :=
  s.quarter.skew.quarter.unskew

/-- The block of a state after `n` double rounds. -/
def block (n : Nat) (s : Square) : Square :=
  -- the start is added to the outcome, so that no round can be undone
  let mixed := n.repeat doubleRound s
  ⟨s.a.zip (· + ·) mixed.a, s.b.zip (· + ·) mixed.b, s.c.zip (· + ·) mixed.c,
    s.d.zip (· + ·) mixed.d⟩

/-- The words of a block, row by row. -/
def toList (s : Square) : List UInt32 :=
  s.a.toList ++ s.b.toList ++ s.c.toList ++ s.d.toList

end Square

end Utterance.Random
