import Utterance.Audio.Wav.Reader
import Utterance.Disk

/-!
# WAV files
-/

namespace Utterance.Audio.Wav

/-- The fault of a file that cannot be created. -/
def uncreated (path : String) (fault : Disk.Fault) : SpeechFault :=
  .audio ("cannot create WAV " ++ path ++ ": " ++ fault.message)

/-- Writes a clip.  The file is created before its content is made. -/
def save (clip : Clip) (path : String) (disk : Disk) (accepts : UInt32 → Bool := writable) :
    Except SpeechFault Unit × Disk :=
  match disk.write path [] with
  | .error fault => (.error (uncreated path fault), disk)
  | .ok created =>
    match encode clip accepts with
    | .error fault => (.error fault, created)
    | .ok bytes =>
      match disk.write path bytes with
      | .error fault => (.error (uncreated path fault), disk)
      | .ok written => (.ok (), written)

/-- Reads a clip. -/
def load (path : String) (disk : Disk) : Except SpeechFault Clip :=
  match (disk.read path).toOption.map decode with
  | some (.ok clip) => .ok clip
  | some (.error .sample) => .error (.audio "WAV read error")
  | _ => .error (.audio ("cannot open WAV " ++ path))

end Utterance.Audio.Wav
