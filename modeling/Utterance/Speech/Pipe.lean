import Utterance.Speech.Service
import Utterance.Text.Utf8

/-!
# The line protocol

A session announces itself with `READY` and answers every line that is not blank with one line:
`AUDIO:` and a WAV file in Base64, or `ERROR:` and a message.  It ends with the line `EXIT` or with
the input.  Broken input or output ends it with a fault; what was written before stays written.
-/

namespace Utterance.Speech.Pipe

/-- How many requests were answered with audio and how many with an error. -/
structure Summary where
  spoken : Nat := 0
  failed : Nat := 0
deriving DecidableEq, Repr

/-- An output that takes only so many more bytes, if it has a limit. -/
structure Sink where
  written : List UInt8 := []
  room : Option Nat := none

/-- Writes bytes.  What does not fit is written in part, and the writing fails. -/
def Sink.write (sink : Sink) (bytes : List UInt8) : Bool × Sink :=
  match sink.room with
  | none => (true, { sink with written := sink.written ++ bytes })
  | some room =>
    (bytes.length ≤ room,
      ⟨sink.written ++ bytes.take room, some (room - bytes.length)⟩)

/-- Writes a line. -/
def Sink.writeLine (sink : Sink) (line : String) : Except SpeechFault Unit × Sink :=
  match sink.write (Text.encodeUtf8 line) with
  | (false, sink) => (.error (.channel "failed to write reply: write zero"), sink)
  | (true, sink) =>
    -- the line feed is written by itself, so a line may go out without it
    match sink.write [10] with
    | (false, sink) => (.error (.channel "failed to write newline: write zero"), sink)
    | (true, sink) => (.ok (), sink)

/-- The lines of an input, each with the line feed that ends it. -/
def lines : List UInt8 → List (List UInt8)
  | [] => []
  | byte :: rest =>
    if byte = 10 then [byte] :: lines rest
    else
      match lines rest with
      | [] => [[byte]]
      | line :: others => (byte :: line) :: others

/-- A session from start to end. -/
structure Session (σ : Type) where
  outcome : Except SpeechFault Summary
  sink : Sink
  world : σ

/-- The reply to a request. -/
def reply : Except SpeechFault EncodedSpeech → String
  | .ok speech => "AUDIO:" ++ speech.audio
  | .error fault => "ERROR:" ++ Text.singleLine fault.message

/-- The summary with one more reply. -/
def Summary.count (summary : Summary) : Except SpeechFault EncodedSpeech → Summary
  | .ok _ => { summary with spoken := summary.spoken + 1 }
  | .error _ => { summary with failed := summary.failed + 1 }

/-- Answers lines one after the other. -/
def answer {σ : Type} (service : Service σ) :
    List (List UInt8) → Summary → Sink → σ → Session σ
  | [], summary, sink, world => ⟨.ok summary, sink, world⟩
  | line :: rest, summary, sink, world =>
    match Text.decodeUtf8 line with
    | .error fault =>
      -- a line that is not UTF-8 ends the session
      ⟨.error (.channel ("failed to read request: " ++ fault.message)), sink, world⟩
    | .ok line =>
      let text := String.ofList (Text.trim line.toList)
      -- neither a blank line nor `EXIT` gets a reply
      if text.isEmpty then answer service rest summary sink world
      else if text = "EXIT" then ⟨.ok summary, sink, world⟩
      else
        let (speech, world) := speakEncoded service text {} world
        match sink.writeLine (reply speech) with
        | (.error fault, sink) => ⟨.error fault, sink, world⟩
        -- only a reply that was written counts
        | (.ok (), sink) => answer service rest (summary.count speech) sink world

/-- Serves the requests of an input.  With `room`, the output takes no more bytes than that. -/
def run {σ : Type} (service : Service σ) (input : List UInt8) (room : Option Nat) (world : σ) :
    Session σ :=
  match Sink.writeLine { room } "READY" with
  | (.error fault, sink) => ⟨.error fault, sink, world⟩
  | (.ok (), sink) => answer service (lines input) {} sink world

end Utterance.Speech.Pipe
