import Utterance.Proofs.Http.Classification
import Utterance.Proofs.Speech.Pipe.Transcript
import Utterance.Proofs.Text.Preparation
import Utterance.Proofs.Wire.Written

/-!
# The front ends agree

A line in a session and a `POST /speak` with the line as its text come to the same speech.  The
session trims its line and the server does not, which makes no difference to what is spoken.

## Key results

- `speak_trim`: blanks at the ends of a text do not matter to its speech
- `agree_of_speech`: both front ends tell the same outcome
- `respond_agrees_with_run`: the reply of a session, and that of the server
-/

namespace Utterance.Http

open Speech (EncodedSpeech Pipe.lineBytes Pipe.output Pipe.run Service Synthesizer speakEncoded)
open Text (encodeUtf8 prepare squeeze trim)
open Wire (SpeakReply textRequest)

variable {κ σ : Type}

/-- A line of a session tells what a reply of the server does. -/
structure Agree (line : String) (reply : Reply) : Prop where
  audio : ∀ audio, line = "AUDIO:" ++ audio ↔ reply.status = 200 ∧
    ∃ text rate, SpeakReply.ofJson reply.body = .ok (.ok text audio rate)
  fault : (∀ audio, line ≠ "AUDIO:" ++ audio) → reply.status ≠ 200 ∧
    ∃ message code, SpeakReply.ofJson reply.body = .ok (.error message code) ∧
      line = "ERROR:" ++ String.ofList (squeeze (trim message.toList))

/-- `trim` makes no difference to what a text is spoken as. -/
theorem speak_trim (s : Synthesizer κ σ) (text : String) :
    s.speak (String.ofList (trim text.toList)) = s.speak text := by
  funext overrides world
  simp only [Synthesizer.speak, Text.prepare_trim]

/-- `trim` makes no difference to the file of a text either. -/
theorem speakEncoded_trim (s : Synthesizer κ σ) (text : String) (world : σ) :
    speakEncoded s.speak (String.ofList (trim text.toList)) {} world =
      speakEncoded s.speak text {} world := by
  rw [speakEncoded, speakEncoded, speak_trim]

/-- A body with a text is a request for the text: `readRequest` finds nothing else in it. -/
theorem readRequest_of_text {r : Request} {text : String}
    (htype : (r.contentType.map isJson).getD false = true)
    (hbody : r.body = encodeUtf8 (textRequest text)) (hlength : r.body.length ≤ bodyLimit) :
    readRequest r = .ok { text } := by
  have hread : readBody r.body = .ok { text } := by
    rw [hbody, readBody, Text.decodeUtf8_encodeUtf8]
    exact Wire.requestOfJson_textRequest text
  rw [readRequest, htype, hread]
  exact if_neg (Nat.not_lt.mpr hlength)

/-- `Pipe.reply` and `speakReply` tell the same outcome. -/
theorem agree_of_speech (speech : Except SpeechFault EncodedSpeech) :
    Agree (Speech.Pipe.reply speech) (speakReply speech) := by
  -- audio stands behind its prefix in one and in its field in the other, and so does a message
  cases speech with
  | ok speech =>
    have hread := SpeakReply.ofJson_toJson (.ok speech.text speech.audio speech.rate)
    refine ⟨fun audio => ⟨?_, ?_⟩, fun hnone => absurd rfl (hnone speech.audio)⟩
    · intro haudio
      obtain rfl : speech.audio = audio := by simpa [Speech.Pipe.reply] using haudio
      exact ⟨rfl, speech.text, speech.rate, hread⟩
    · rintro ⟨-, text, rate, hother⟩
      rw [speakReply, hread] at hother
      cases hother
      rfl
  | error fault =>
    have hread := SpeakReply.ofJson_toJson (.error fault.message fault.code)
    have hstatus : faultStatus fault ≠ 200 := by
      obtain ⟨-, hstatus⟩ | ⟨-, hstatus⟩ := faultStatus_cases fault <;> simp [hstatus]
    refine ⟨fun audio => ⟨?_, fun h => absurd h.1 hstatus⟩, fun _ => ⟨hstatus, fault.message,
      fault.code, hread, congrArg ("ERROR:" ++ ·) (Text.singleLine_eq _)⟩⟩
    intro haudio
    have hlists := congrArg String.toList haudio
    simp [Speech.Pipe.reply] at hlists

/-- A session whose input is one line has one request in `requests`, the line without the blanks at
its ends. -/
theorem requests_lineBytes {line : String} (hline : '\n' ∉ line.toList)
    (hvisible : String.ofList (trim line.toList) ≠ "")
    (hexit : String.ofList (trim line.toList) ≠ "EXIT") :
    Speech.Pipe.requests (Pipe.lineBytes line) = [String.ofList (trim line.toList)] := by
  have hfeed : (10 : UInt8) ∉ encodeUtf8 line :=
    mt (Text.mem_encodeUtf8_iff (show 10 < 0x80 by omega)).mp hline
  -- the only line feed is the one that ends the line, and nothing comes after it
  have hsplit : (Pipe.lineBytes line).splitOn 10 = [encodeUtf8 line, []] := by
    rw [Pipe.lineBytes, List.splitOn_append_cons_self, List.splitOn_eq_singleton hfeed]
    rfl
  have htext : Speech.Pipe.lineText (encodeUtf8 line) = some (String.ofList (trim line.toList)) :=
    Speech.Pipe.lineText_eq_some_iff.mpr ⟨line, rfl, rfl⟩
  have hlast : Speech.Pipe.lineText [] = some "" := rfl
  rw [Speech.Pipe.requests, Speech.Pipe.texts, hsplit]
  simp [htext, hlast, Speech.Pipe.goesOn, hexit, hvisible, List.reduceOption]

/-- `run` of a session with one line: its reply, and the world after it. -/
theorem run_lineBytes (service : Service σ) {line : String} (hline : '\n' ∉ line.toList)
    (hvisible : String.ofList (trim line.toList) ≠ "")
    (hexit : String.ofList (trim line.toList) ≠ "EXIT") (world : σ) :
    let speech := speakEncoded service (String.ofList (trim line.toList)) {} world
    (Pipe.run service (Pipe.lineBytes line) none world).sink.written =
        Pipe.output ["READY", Speech.Pipe.reply speech.1] ∧
      (Pipe.run service (Pipe.lineBytes line) none world).world = speech.2 := by
  intro speech
  obtain ⟨reply, last, hreply⟩ :=
    Speech.Pipe.exists_answers service (String.ofList (trim line.toList)) world
  have hanswered : Speech.Pipe.Answered service (Speech.Pipe.requests (Pipe.lineBytes line)) [reply]
      world last := by
    rw [requests_lineBytes hline hvisible hexit]
    exact .cons hreply (.nil last)
  -- a single request, so the session says `READY` and its reply
  obtain ⟨outcome, -, -, hrun⟩ := Speech.Pipe.run_of_fits hanswered
  obtain ⟨hline', -, hworld⟩ := hreply.eq {}
  rw [hrun none nofun, show Speech.Pipe.reply speech.1 = reply from hline',
    show speech.2 = last from hworld]
  exact ⟨rfl, rfl⟩

section Agreement

variable {r : Request} {line : String}

/-- `respond` to a speech request whose body is read. -/
theorem respond_of_read {text : String} (hpost : IsSpeak r) (hread : readRequest r = .ok { text })
    (service : Service σ) (world : σ) :
    respond service r world =
      (speakReply (speakEncoded service text {} world).1,
        (speakEncoded service text {} world).2) := by
  rw [respond_of_isSpeak _ hpost, speak, hread]

/-- For a line that is neither blank nor the end of the session, a session and a server that are in
the same state agree: the reply of the session has the audio that the server sends, or the message
of the fault that it reports, on a single line; the model is called alike; and both are in the same
state afterwards.  In particular the blanks around the line matter neither to the text that is
spoken nor to its chunks. -/
theorem respond_agrees_with_run (s : Synthesizer κ σ) (hline : '\n' ∉ line.toList)
    (hvisible : String.ofList (trim line.toList) ≠ "")
    (hexit : String.ofList (trim line.toList) ≠ "EXIT") (hpost : IsSpeak r)
    (htype : (r.contentType.map isJson).getD false = true)
    (hbody : r.body = encodeUtf8 (textRequest line)) (hlength : r.body.length ≤ bodyLimit)
    (world : σ) :
    (∃ reply, (Pipe.run s.speak (Pipe.lineBytes line) none world).sink.written =
        Pipe.output ["READY", reply] ∧ Agree reply (respond s.speak r world).1) ∧
      (Pipe.run s.speak (Pipe.lineBytes line) none world).world =
        (respond s.speak r world).2 ∧
      (Pipe.run s.recorded.speak (Pipe.lineBytes line) none (world, [])).world.2 =
        calls s r world ∧
      ∀ settings, prepare settings (String.ofList (trim line.toList)) = prepare settings line := by
  have hread := readRequest_of_text htype hbody hlength
  obtain ⟨hwritten, hworld⟩ := run_lineBytes s.speak hline hvisible hexit world
  obtain ⟨-, hcalls⟩ := run_lineBytes s.recorded.speak hline hvisible hexit (world, [])
  rw [speakEncoded_trim] at hwritten hworld hcalls
  refine ⟨⟨_, hwritten, ?_⟩, ?_, ?_, fun settings => Text.prepare_trim settings line⟩
  · rw [respond_of_read hpost hread]
    exact agree_of_speech _
  · rw [hworld, respond_of_read hpost hread]
  · rw [hcalls, calls, respond_of_read hpost hread]

/-- A line with blanks around it, and a text that the model can read. -/
theorem respond_agrees_with_run_reader :
    ∃ audio, (Pipe.run Speech.reader.speak (Pipe.lineBytes " One. ") none ()).sink.written =
        Pipe.output ["READY", "AUDIO:" ++ audio] ∧
      (respond Speech.reader.speak (post (textRequest " One. ")) ()).1.status = 200 := by
  obtain ⟨⟨reply, hwritten, hagree⟩, -⟩ := respond_agrees_with_run Speech.reader
    (r := post (textRequest " One. ")) (show '\n' ∉ " One. ".toList by decide) (by decide)
    (by decide) ⟨rfl, rfl⟩ (by decide) rfl (by decide +kernel) ()
  have hstatus : (respond Speech.reader.speak (post (textRequest " One. ")) ()).1.status = 200 := by
    decide +kernel
  -- the reply cannot be a fault, since the status tells otherwise
  by_cases haudio : ∃ audio, reply = "AUDIO:" ++ audio
  · obtain ⟨audio, rfl⟩ := haudio
    exact ⟨audio, hwritten, hstatus⟩
  · exact absurd hstatus (hagree.fault fun audio h => haudio ⟨audio, h⟩).1

end Agreement

end Utterance.Http
