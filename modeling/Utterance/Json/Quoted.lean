import Utterance.Json.Fault
import Utterance.Text.Hexadecimal

/-!
# Quoted text

A quoted text is read in two steps: `readPieces` takes the characters and code units between the
quotes, and `joinPieces` puts surrogate pairs together.  `quote` writes a text: quotes, backslashes
and control characters are escaped, everything else stands for itself.
-/

namespace Utterance.Json

/-- What stands at one place of a quoted text. -/
inductive Piece where
  | char (c : Char)
  /-- A code unit written in hexadecimal. -/
  | unit (n : Nat)
deriving DecidableEq, Repr

/-- The character that a letter after a backslash stands for. -/
def escape? : Char → Option Char
  | '"' => some '"'
  | '\\' => some '\\'
  | '/' => some '/'
  | 'b' => some '\x08'
  | 'f' => some '\x0c'
  | 'n' => some '\n'
  | 'r' => some '\r'
  | 't' => some '\t'
  | _ => none

/-- The reading with a piece in front. -/
def withPiece (piece : Piece) (reading : Except Fault (Rest (List Piece))) :
    Except Fault (Rest (List Piece)) :=
  reading.map fun (pieces, rest) => (piece :: pieces, rest)

/-- Reads up to the closing quote. -/
def readPieces : List Char → Except Fault (Rest (List Piece))
  | [] => .error .malformed
  | '"' :: rest => .ok ([], rest)
  | '\\' :: 'u' :: a :: b :: c :: d :: rest =>
    match Text.hexValue? [a, b, c, d] with
    | none => .error .malformed
    | some n => withPiece (.unit n) (readPieces rest)
  | '\\' :: c :: rest =>
    match escape? c with
    | none => .error .malformed
    | some c => withPiece (.char c) (readPieces rest)
  | c :: rest =>
    -- control characters have to be escaped, and a backslash needs a letter
    if c.toNat < 0x20 ∨ c = '\\' then .error .malformed
    else withPiece (.char c) (readPieces rest)

/-- Whether a code unit is the first of a pair. -/
def isHigh (n : Nat) : Bool :=
  0xd800 ≤ n && n < 0xdc00

/-- Whether a code unit is the second of a pair. -/
def isLow (n : Nat) : Bool :=
  0xdc00 ≤ n && n < 0xe000

/-- The text that some pieces make, if no half of a pair stands alone. -/
def joinPieces : List Piece → Option (List Char)
  | [] => some []
  | .char c :: rest => (joinPieces rest).map (c :: ·)
  | .unit n :: .unit m :: rest =>
    -- two units for a character beyond 16 bits
    if isHigh n then
      if isLow m then
        (joinPieces rest).map (Char.ofNat (0x10000 + (n - 0xd800) * 0x400 + (m - 0xdc00)) :: ·)
      else none
    else if isLow n then none
    else (joinPieces (.unit m :: rest)).map (Char.ofNat n :: ·)
  | .unit n :: rest =>
    if isHigh n || isLow n then none else (joinPieces rest).map (Char.ofNat n :: ·)

/-- How a character is written between quotes. -/
def quoteChar (c : Char) : List Char :=
  match c with
  | '"' => ['\\', '"']
  | '\\' => ['\\', '\\']
  | '\x08' => ['\\', 'b']
  | '\x0c' => ['\\', 'f']
  | '\n' => ['\\', 'n']
  | '\r' => ['\\', 'r']
  | '\t' => ['\\', 't']
  | c =>
    -- the number of a control character has two digits
    if c.toNat < 0x20 then
      ['\\', 'u', '0', '0', Text.hexDigit (c.toNat / 16), Text.hexDigit (c.toNat % 16)]
    else [c]

/-- A text in quotes. -/
def quote (text : String) : List Char :=
  '"' :: (text.toList.flatMap quoteChar ++ ['"'])

end Utterance.Json
