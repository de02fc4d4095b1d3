import Utterance.Fault
import Utterance.Text.Hexadecimal

/-!
# Addresses

A server listens on a literal address or on `localhost`; no other names are looked up.  Which
addresses can be listened on is a matter of the machine.
-/

namespace Utterance.Http

/-- Where a server listens. -/
structure Settings where
  host : String := "0.0.0.0"
  /-- The port, or 0 for any that is free. -/
  port : UInt16 := 8001
deriving DecidableEq

/-- An address of a machine. -/
inductive Address where
  /-- A number of 32 bits. -/
  | four (n : Nat)
  /-- Eight groups of 16 bits. -/
  | six (groups : List Nat)
deriving DecidableEq, Repr

/-- The number that digits in a base stand for. -/
def readBased (base : Nat) (digits : List Char) : Option Nat :=
  -- no digits are no number
  if digits.isEmpty then none
  else digits.foldlM (fun n c =>
    ((Text.hexDigit? c).filter (· < base)).map (n * base + ·)) 0

/-- A part of an address in the short form: hexadecimal after `0x`, octal after `0`, and decimal
otherwise. -/
def readPart (text : String) : Option Nat :=
  match text.toList with
  | '0' :: c :: rest => if c = 'x' ∨ c = 'X' then readBased 16 rest else readBased 8 (c :: rest)
  | digits => readBased 10 digits

/-- The number that parts stand for when there is room for so many bytes.  Every part is a byte
but the last, which takes all the room that is left. -/
def joinParts : (room : Nat) → List Nat → Option Nat
  | room + 1, [part] => if part < Nat.pow 256 (room + 1) then some part else none
  | room + 1, part :: rest =>
    if part < 256 then (joinParts room rest).map (part * Nat.pow 256 room + ·) else none
  | _, _ => none

/-- Reads an address of one to four parts with points between them. -/
def readFour (text : String) : Option Nat := do
  joinParts 4 (← (text.splitOn ".").mapM readPart)

/-- A decimal number from 0 to 255 without superfluous zeros. -/
def readOctet (text : String) : Option Nat :=
  match readBased 10 text.toList with
  | some n => if n < 256 && toString n == text then some n else none
  | none => none

/-- The two groups of four octets with points between them. -/
def readQuad (text : String) : Option (List Nat) := do
  match ← (text.splitOn ".").mapM readOctet with
  | [a, b, c, d] => some [a * 256 + b, c * 256 + d]
  | _ => none

/-- A group of up to four hexadecimal digits. -/
def readGroup (text : String) : Option Nat :=
  if text.length ≤ 4 then readBased 16 text.toList else none

/-- The groups of some parts.  The last part of an address may be a quad. -/
def readGroups (isEnd : Bool) : List String → Option (List Nat)
  | [] => some []
  | [part] => if isEnd && part.contains '.' then readQuad part else (readGroup part).map ([·])
  | part :: rest => do return (← readGroup part) :: (← readGroups isEnd rest)

/-- The parts between colons. -/
def partsOf (text : String) : List String :=
  if text.isEmpty then [] else text.splitOn ":"

/-- Reads an address of eight groups, of which a run of zeros may be left out between two
colons. -/
def readSix (text : String) : Option (List Nat) := do
  match text.splitOn "::" with
  | [whole] =>
    let groups ← readGroups true (partsOf whole)
    if groups.length = 8 then some groups else none
  | [front, back] =>
    let front ← readGroups false (partsOf front)
    let back ← readGroups true (partsOf back)
    -- the colons stand for one group at least
    if front.length + back.length < 8 then
      some (front ++ List.replicate (8 - front.length - back.length) 0 ++ back)
    else none
  | _ => none

/-- Reads an address of eight groups, after which the number of a zone may stand. -/
def readZoned (text : String) : Option (List Nat) :=
  match text.splitOn "%" with
  | [address] => readSix address
  | [address, zone] =>
    match readBased 10 zone.toList with
    | some n => if n < UInt32.size then readSix address else none
    | none => none
  | _ => none

/-- The address of a host.  The name `localhost` is that of the machine itself. -/
def addressOf (host : String) : Option Address :=
  -- the name is looked for before any number
  if host.map Char.toLower = "localhost" then some (.four 0x7f000001)
  else if host.startsWith "[" && host.endsWith "]" then
    (readZoned ((host.drop 1).dropEnd 1).toString).map .six
  else (readFour host).map .four <|> (readZoned host).map .six

/-- Starts to listen on a host and port of a machine, or tells why that fails. -/
def listen (machine : Address → Bool) (host : String) (port : UInt16) : Except SpeechFault Unit :=
  if (addressOf host).any machine then .ok ()
  else .error (.server ("bind " ++ host ++ ":" ++ toString port.toNat ++ " failed"))

end Utterance.Http
