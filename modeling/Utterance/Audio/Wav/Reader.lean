import Utterance.Audio.Wav

/-!
# Reading WAV

A file is a list of chunks.  Those before `data` are read for the sample format or skipped; what
follows the sample data is ignored.  Several channels are averaged into one.
-/

namespace Utterance.Audio.Wav

/-- What is wrong with a file. -/
inductive ReadFault where
  /-- There is no file, or its header is broken or of an unknown kind. -/
  | header
  /-- A sample is missing or of an unknown width. -/
  | sample
deriving DecidableEq, Repr

/-- How samples are written. -/
structure SampleFormat where
  channels : Nat
  rate : UInt32
  bits : Nat
  /-- How many bytes a sample takes. -/
  width : Nat
  isFloat : Bool
deriving DecidableEq, Repr

/-- The sub-format identifiers of the extensible format end in these bytes. -/
def subformatTail : List UInt8 :=
  [0x00, 0x00, 0x10, 0x00, 0x80, 0x00, 0x00, 0xaa, 0x00, 0x38, 0x9b, 0x71]

/-- The next `n` bytes as a number. -/
def number? (n : Nat) (bytes : List UInt8) : Option (Nat × List UInt8) :=
  (take? n bytes).map fun (front, rest) => (ofBytes front, rest)

/-- What follows the common fields of a PCM format chunk. -/
def readPcm (length : Nat) (format : SampleFormat) (bytes : List UInt8) :
    Option (SampleFormat × List UInt8) := do
  if length = 16 then
    return (format, bytes)
  -- the longer forms have bytes that mean nothing here
  guard (length = 18 ∨ length = 40)
  let (_, bytes) ← take? (length - 16) bytes
  guard (format.bits = 8 ∨ format.bits = 16 ∨ format.bits = 24)
  return (format, bytes)

/-- What follows the common fields of a floating-point format chunk. -/
def readFloat (length : Nat) (format : SampleFormat) (bytes : List UInt8) :
    Option (SampleFormat × List UInt8) := do
  guard (length = 16 ∨ length = 18)
  -- a floating-point chunk may say how many bytes follow, and it is none
  let (extra, bytes) ← number? (length - 16) bytes
  guard (extra = 0 ∧ format.bits = 32)
  return ({ format with isFloat := true }, bytes)

/-- What follows the common fields of an extensible format chunk. -/
def readExtensible (length : Nat) (format : SampleFormat) (bytes : List UInt8) :
    Option (SampleFormat × List UInt8) := do
  guard (40 ≤ length)
  let (extra, bytes) ← number? 2 bytes
  -- the extension has to have the one known length
  guard (extra = 22)
  let (validBits, bytes) ← number? 2 bytes
  let (_, bytes) ← take? 4 bytes
  let (kind, bytes) ← number? 4 bytes
  let (tail, bytes) ← take? 12 bytes
  guard (tail = subformatTail ∧ (kind = 1 ∨ kind = 3))
  -- no valid bits means that all are valid
  let bits := if validBits = 0 then format.bits else validBits
  return ({ format with bits, isFloat := kind = 3 }, bytes)

/-- Reads a format chunk of the given length. -/
def readFormat (length : Nat) (bytes : List UInt8) : Option (SampleFormat × List UInt8) := do
  guard (16 ≤ length)
  let (kind, bytes) ← number? 2 bytes
  let (channels, bytes) ← number? 2 bytes
  let (rate, bytes) ← number? 4 bytes
  let (byteRate, bytes) ← number? 4 bytes
  let (block, bytes) ← number? 2 bytes
  let (bits, bytes) ← number? 2 bytes
  -- without a channel a frame would have no width
  guard (0 < channels)
  let width := block / channels
  -- the container holds the bits, and is no wider than a word of 16 bits can say
  guard (bits ≤ 8 * width ∧ 8 * width < UInt16.size)
  guard (byteRate = block * rate)
  guard (bits % 8 = 0 ∧ bits ≠ 0)
  let format : SampleFormat := { channels, rate := rate.toUInt32, bits, width, isFloat := false }
  match kind with
  | 1 => readPcm length format bytes
  | 3 => readFloat length format bytes
  | 0xfffe => readExtensible length format bytes
  | _ => none

/-- Reads up to the sample data: its format, its length and the bytes from there on.  Every chunk
takes at least eight bytes, so `fuel` need not exceed the number of bytes. -/
def readChunks : (fuel : Nat) → Option SampleFormat → List UInt8 →
    Option (SampleFormat × Nat × List UInt8)
  | 0, _, _ => none
  | fuel + 1, format, bytes => do
    -- by the name of the chunk; what is unknown is skipped
    let (name, bytes) ← take? 4 bytes
    let (length, bytes) ← number? 4 bytes
    if name = tag "fmt " then
      let (format, bytes) ← readFormat length bytes
      readChunks fuel (some format) bytes
    else if name = tag "fact" then
      let (_, bytes) ← take? 4 bytes
      readChunks fuel format bytes
    else if name = tag "data" then
      -- data without a format in front of them cannot be read
      return (← format, length, bytes)
    else
      let (_, bytes) ← take? length bytes
      readChunks fuel format bytes

/-- Reads the header of a file: format, number of samples, and the bytes of the samples. -/
def readHeader (bytes : List UInt8) : Option (SampleFormat × Nat × List UInt8) := do
  let (riff, bytes) ← take? 4 bytes
  guard (riff = tag "RIFF")
  let (_, bytes) ← take? 4 bytes
  let (wave, bytes) ← take? 4 bytes
  guard (wave = tag "WAVE")
  let (format, size, bytes) ← readChunks (bytes.length + 1) none bytes
  -- only whole samples and whole frames are taken
  let count := size / format.width
  guard (count * format.width = size ∧ count % format.channels = 0)
  return (format, count, bytes)

/-- A number of `bits` bits read as two's complement. -/
def signed (bits n : Nat) : Int :=
  if n < 1 <<< (bits - 1) then n else n - (1 <<< bits : Nat)

/-- The sample that some bytes stand for, if their number suits the format.  Full scale is 1, and
words of eight bits are centred at 128. -/
def sample (format : SampleFormat) (bytes : List UInt8) : Option Float32 :=
  let n := ofBytes bytes
  let scaled (v : Int) : Float32 :=
    Float32.ofInt v / (1 <<< (format.bits - 1) : Nat).toUInt64.toFloat32
  if format.isFloat then
    -- four bytes with all bits in use are the only floating-point width
    if format.width = 4 ∧ format.bits = 32 then some (.ofBits n.toUInt32) else none
  else
    match format.width, format.bits with
    | 1, 8 => some (scaled (n - 128))
    | 2, 16 => some (scaled (signed 16 n))
    | 3, 24 => some (scaled (signed 24 n))
    -- three bytes in a container of four
    | 4, 24 => some (scaled (signed 24 (n % 0x1000000)))
    | 4, 32 => some (scaled (signed 32 n))
    | _, _ => none

/-- Reads the given number of samples. -/
def readSamples (format : SampleFormat) : Nat → List UInt8 → Option (List Float32)
  | 0, _ => some []
  | count + 1, bytes => do
    let (front, rest) ← take? format.width bytes
    let first ← sample format front
    return first :: (← readSamples format count rest)

/-- The means of the given number of frames of `channels` samples. -/
def mix (channels : Nat) : Nat → List Float32 → List Float32
  | 0, _ => []
  | frames + 1, samples =>
    Binary.sum (samples.take channels) / channels.toUInt64.toFloat32 ::
      mix channels frames (samples.drop channels)

/-- Reads a file into one channel. -/
def decode (bytes : List UInt8) : Except ReadFault Clip :=
  match readHeader bytes with
  | none => .error .header
  | some (format, count, bytes) =>
    match readSamples format count bytes with
    | none => .error .sample
    | some samples =>
      -- several channels are mixed down to one
      let samples :=
        if 1 < format.channels then mix format.channels (count / format.channels) samples
        else samples
      .ok ⟨samples, format.rate⟩

end Utterance.Audio.Wav
