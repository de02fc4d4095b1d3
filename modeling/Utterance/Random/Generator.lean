import Utterance.Random.Block

/-!
# The random generator

A generator is a key and a position in the stream of words that the key determines.  Taking a word
moves the position by one and changes nothing else, so the state after `n` words is the start moved
by `n`.
-/

namespace Utterance.Random

/-- A 256-bit key in two rows. -/
structure Key where
  low : Row
  high : Row
deriving DecidableEq

/-- The word of the stream of `key` at `position`: blocks of twelve rounds under a 64-bit block
counter, in order. -/
def Key.word (key : Key) (position : Nat) : UInt32 :=
  let counter := (position / 16).toUInt64
  -- the constants of the cipher, the key, and the counter with an empty nonce
  let start : Square :=
    ⟨⟨0x61707865, 0x3320646e, 0x79622d32, 0x6b206574⟩, key.low, key.high,
      ⟨counter.toUInt32, (counter >>> 32).toUInt32, 0, 0⟩⟩
  (start.block 6).toList.getD (position % 16) 0

/-- One step of the congruential generator that expands seeds. -/
def expansionStep (state : UInt64) : UInt64 :=
  state * 6364136223846793005 + 11634580027462260723

/-- The word that a state of the expansion gives. -/
def expansionWord (state : UInt64) : UInt32 :=
  -- the state is mixed, and turned by its own upper bits
  let mixed := (((state >>> 18) ^^^ state) >>> 27).toUInt32
  let turn := (state >>> 59).toUInt32
  (mixed >>> turn) ||| (mixed <<< ((32 - turn) &&& 31))

/-- The word of the expansion of `seed` after `n + 1` steps. -/
def seedWord (seed : UInt64) (n : Nat) : UInt32 :=
  expansionWord ((n + 1).repeat expansionStep seed)

/-- The key that a seed expands to. -/
def Key.ofSeed (seed : UInt64) : Key where
  low := ⟨seedWord seed 0, seedWord seed 1, seedWord seed 2, seedWord seed 3⟩
  high := ⟨seedWord seed 4, seedWord seed 5, seedWord seed 6, seedWord seed 7⟩

/-- A place in the stream of a key. -/
structure Generator where
  key : Key
  position : Nat := 0
deriving DecidableEq

namespace Generator

/-- The generator at the start of the stream that a seed determines. -/
def ofSeed (seed : UInt64) : Generator where
  key := .ofSeed seed

/-- The next word, and the generator after it. -/
def next (g : Generator) : UInt32 × Generator :=
  (g.key.word g.position, { g with position := g.position + 1 })

end Generator

end Utterance.Random
