import Utterance.Audio.Base64
import Utterance.Audio.Bytes
import Utterance.Binary
import Utterance.Fault

/-!
# Writing WAV

Samples become 16-bit PCM words behind a header of 44 bytes, in one channel.  The rates for which
there is a header are a parameter.
-/

namespace Utterance.Audio

/-- Some samples in one channel. -/
structure Clip where
  samples : List Float32
  rate : UInt32

namespace Wav

/-- A sample limited to `[-1, 1]`. -/
def clamp (x : Float32) : Float32 :=
  if x < -1 then -1 else if 1 < x then 1 else x

/-- The PCM word of a sample: full scale is 32767, halves round away from zero, and what is no
number becomes silence. -/
def word (x : Float32) : Int16 :=
  .ofInt ((Binary.nearestInt (clamp x * 32767).toModel.unpack).getD 0)

/-- The bytes of a four-character tag. -/
def tag (name : String) : List UInt8 :=
  name.toList.map fun c => c.toNat.toUInt8

/-- The header in front of `size` bytes of PCM words. -/
def header (size : Nat) (rate : UInt32) : List UInt8 :=
  -- mono, 16 bits: two bytes for each sample
  tag "RIFF" ++ bytes32 (36 + size).toUInt32 ++ tag "WAVE" ++
  tag "fmt " ++ bytes32 16 ++ bytes16 1 ++ bytes16 1 ++ bytes32 rate ++ bytes32 (rate * 2) ++
    bytes16 2 ++ bytes16 16 ++
  tag "data" ++ bytes32 size.toUInt32

/-- Whether a header can be written for the rate: its bits per second are a positive 32-bit
number. -/
def writable (rate : UInt32) : Bool :=
  0 < rate.toNat && rate.toNat * 16 < UInt32.size

/-- What is wrong with a rate for which there is no header.  It is no fault that a caller gets to
see: the writer breaks off at such a rate, and what becomes of its caller is for the caller to
say. -/
def noHeader (rate : UInt32) : SpeechFault :=
  .audio ("no WAV header for sample rate " ++ toString rate.toNat)

/-- The file for a clip, if its rate can be written. -/
def encode (clip : Clip) (accepts : UInt32 → Bool := writable) :
    Except SpeechFault (List UInt8) :=
  -- at any other rate the writer breaks off
  if accepts clip.rate then
    .ok (header (2 * clip.samples.length) clip.rate ++
      clip.samples.flatMap fun x => bytes16 (word x).toUInt16)
  else
    .error (noHeader clip.rate)

/-- The file for a clip as text. -/
def encodeBase64 (clip : Clip) : Except SpeechFault String :=
  (encode clip).map base64

end Wav

end Utterance.Audio
