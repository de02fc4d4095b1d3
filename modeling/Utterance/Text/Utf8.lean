/-!
# UTF-8

Decoding byte by byte.  Where the bytes stop being UTF-8, the fault says at which index the broken
sequence starts and how many of its bytes were in order, or that the end came too soon.
-/

namespace Utterance.Text

/-- Bytes that are not UTF-8. -/
structure Utf8Fault where
  /-- Where the sequence starts that is not a character. -/
  index : Nat
  /-- How many bytes belong to it, if the bytes do not end within it. -/
  length : Option Nat
deriving DecidableEq, Repr

/-- The wording of a decoding fault. -/
def Utf8Fault.message (fault : Utf8Fault) : String :=
  match fault.length with
  | some n => "invalid utf-8 sequence of " ++ toString n ++ " bytes from index " ++
      toString fault.index
  | none => "incomplete utf-8 byte sequence from index " ++ toString fault.index

/-- A character of which some bytes have been read. -/
structure Partial where
  /-- The bits read so far. -/
  value : Nat
  /-- How many bytes have been read. -/
  taken : Nat
  /-- How many bytes are missing. -/
  missing : Nat
  /-- The least next byte. -/
  low : Nat := 0x80
  /-- The greatest next byte. -/
  high : Nat := 0xbf

/-- A character that the first byte leaves incomplete. -/
def Partial.ofLead (b : Nat) : Option Partial :=
  -- bytes that only follow others, and 0xc0 and 0xc1, for which one byte would do
  if b < 0xc2 then none
  else if b < 0xe0 then some { value := b - 0xc0, taken := 1, missing := 1 }
  -- fewer bytes would do for what comes below 0xa0
  else if b = 0xe0 then some { value := 0, taken := 1, missing := 2, low := 0xa0 }
  -- from 0xa0 on these would be surrogates
  else if b = 0xed then some { value := 0xd, taken := 1, missing := 2, high := 0x9f }
  else if b < 0xf0 then some { value := b - 0xe0, taken := 1, missing := 2 }
  else if b = 0xf0 then some { value := 0, taken := 1, missing := 3, low := 0x90 }
  else if b < 0xf4 then some { value := b - 0xf0, taken := 1, missing := 3 }
  -- from 0x90 on these would be beyond the last character
  else if b = 0xf4 then some { value := 4, taken := 1, missing := 3, high := 0x8f }
  else none

/-- Decodes bytes after the character that is open, if one is; `index` is where it starts. -/
def decodeFrom (index : Nat) (opened : Option Partial) : List UInt8 → Except Utf8Fault (List Char)
  | [] =>
    -- the bytes end inside of a character
    match opened with
    | none => .ok []
    | some _ => .error ⟨index, none⟩
  | byte :: rest =>
    let b := byte.toNat
    match opened with
    | none =>
      if b < 0x80 then
        (decodeFrom (index + 1) none rest).map (Char.ofNat b :: ·)
      else
        match Partial.ofLead b with
        | none => .error ⟨index, some 1⟩
        | some character => decodeFrom index (some character) rest
    | some character =>
      -- the byte belongs to no character, and the fault covers those before it
      if b < character.low || character.high < b then
        .error ⟨index, some character.taken⟩
      else
        let value := character.value * 64 + (b - 0x80)
        if character.missing = 1 then
          (decodeFrom (index + character.taken + 1) none rest).map (Char.ofNat value :: ·)
        else
          decodeFrom index
            (some { value, taken := character.taken + 1, missing := character.missing - 1 }) rest

/-- The text that some bytes encode. -/
def decodeUtf8 (bytes : List UInt8) : Except Utf8Fault String :=
  (decodeFrom 0 none bytes).map String.ofList

/-- The bytes of a text. -/
def encodeUtf8 (text : String) : List UInt8 :=
  text.toUTF8.toList

end Utterance.Text
