import Utterance.Http.Routes
import Utterance.Proofs.Speech.Faults
import Utterance.Proofs.Speech.Service
import Utterance.Proofs.Speech.Transcript

/-!
# The status of a reply

The status of a reply to `POST /speak` tells whether the client made a mistake, which is found out
before the model is called, or the text was spoken, or something else went wrong.  It is so for each
request that a server gets, whatever it has answered before.

## Key results

- `readRequest_cases`: a body is rejected, or it is read
- `respond_classified`: the status and the body of one reply
- `respondAll_classified`: the same for each of the requests that a server gets
-/

namespace Utterance.Http

open Speech (Call Service Synthesizer)
open Wire (SpeakReply SpeakRequest)

variable {κ σ : Type}

/-! ## Requests -/

/-- The request is a `POST /speak`, whatever follows a question mark in its path. -/
def IsSpeak (r : Request) : Prop :=
  r.method = "POST" ∧ String.ofList (r.path.toList.takeWhile (· ≠ '?')) = "/speak"

/-- The body is rejected: for its content type by `isJson`, its size by `bodyLimit`, or what is in
it by `readBody`. -/
def Rejected (r : Request) : Prop :=
  (r.contentType.map isJson).getD false = false ∨ bodyLimit < r.body.length ∨
    ∃ fault, readBody r.body = .error fault

/-- The client made a mistake: the body is `Rejected`, or the request in it is refused. -/
def Mistaken (s : Synthesizer κ σ) (r : Request) : Prop :=
  Rejected r ∨ ∃ request, readBody r.body = .ok request ∧ s.Refused request.text request.overrides

/-- A body is `Rejected`, or `readRequest` reads it. -/
theorem readRequest_cases (r : Request) :
    (Rejected r ∧ ∃ reason, readRequest r = .error (.invalidRequest reason)) ∨
      ¬Rejected r ∧ ∃ request, readBody r.body = .ok request ∧ readRequest r = .ok request := by
  unfold readRequest Rejected
  -- the checks come one after the other, and each that fails is the whole answer
  cases htype : (r.contentType.map isJson).getD false with
  | false => exact .inl ⟨.inl rfl, _, rfl⟩
  | true =>
    by_cases hlength : bodyLimit < r.body.length
    · exact .inl ⟨.inr (.inl hlength), _, if_pos hlength⟩
    · simp only [Bool.not_true, Bool.false_eq_true, if_false, if_neg hlength]
      cases hbody : readBody r.body with
      | error fault => exact .inl ⟨.inr (.inr ⟨fault, rfl⟩), _, rfl⟩
      | ok request => exact .inr ⟨by simp [hlength], request, rfl, rfl⟩

/-! ## Replies -/

/-- The request is spoken, and `Audio.Wav.encode` makes a file of the audio: the reply that is sent
then. -/
inductive Succeeds (s : Synthesizer κ σ) (r : Request) (world : σ) : SpeakReply → Prop
  | intro {request : SpeakRequest} {synthesis : Speech.Synthesis} {last : σ} {file : List UInt8}
      (hread : readRequest r = .ok request)
      (hspeak : s.speak request.text request.overrides world = (.ok synthesis, last))
      (hencode : Audio.Wav.encode ⟨synthesis.samples, s.model.rate⟩ = .ok file) :
      Succeeds s r world
        (.ok (Text.prepare s.text request.text).1 (Audio.base64 file) s.model.rate)

/-- The request fails, by the fault that comes up first: that of the body, that of the speech, or
`Speech.taskLost` if the audio cannot be made into a file. -/
inductive Fails (s : Synthesizer κ σ) (r : Request) (world : σ) : SpeechFault → Prop
  | body {fault : SpeechFault} (hread : readRequest r = .error fault) : Fails s r world fault
  | speech {request : SpeakRequest} {fault : SpeechFault} {last : σ}
      (hread : readRequest r = .ok request)
      (hspeak : s.speak request.text request.overrides world = (.error fault, last)) :
      Fails s r world fault
  | file {request : SpeakRequest} {synthesis : Speech.Synthesis} {fault : SpeechFault} {last : σ}
      (hread : readRequest r = .ok request)
      (hspeak : s.speak request.text request.overrides world = (.ok synthesis, last))
      (hencode : Audio.Wav.encode ⟨synthesis.samples, s.model.rate⟩ = .error fault) :
      Fails s r world Speech.taskLost

/-- The calls that `respond` to a request makes to the model. -/
def calls (s : Synthesizer κ σ) (r : Request) (world : σ) : List (Call κ) :=
  (respond s.recorded.speak r (world, [])).2.2

/-- What the status and the body of a `Reply` tell about a speech request. -/
structure Classified (s : Synthesizer κ σ) (r : Request) (world : σ) (reply : Reply) : Prop where
  mistaken : reply.status = 400 ↔ Mistaken s r
  spared : Mistaken s r → calls s r world = []
  spoken : reply.status = 200 ↔ ∃ answer, Succeeds s r world answer
  answer : ∀ answer, Succeeds s r world answer → reply.body = answer.toJson
  status : reply.status = 400 ∨ reply.status = 200 ∨ reply.status = 500
  fault : reply.status ≠ 200 → ∃ fault, Fails s r world fault ∧
    reply.body = (SpeakReply.error fault.message fault.code).toJson

section Replies

variable {s : Synthesizer κ σ} {r : Request} {world : σ} {fault : SpeechFault} {answer : SpeakReply}

/-- `respond` hands a speech request to `speak`. -/
theorem respond_of_isSpeak (service : Service σ) (h : IsSpeak r) (world : σ) :
    respond service r world = speak service r world := by
  obtain ⟨hmethod, hpath⟩ := h
  simp only [respond, hpath, if_pos hmethod]

/-- A request that does not succeed `Fails`, and the first fault that comes up is why. -/
theorem succeeds_or_fails (s : Synthesizer κ σ) (r : Request) (world : σ) :
    (∃ answer, Succeeds s r world answer) ∨ ∃ fault, Fails s r world fault := by
  -- what is read is spoken, and what is spoken is encoded
  cases hread : readRequest r with
  | error fault => exact .inr ⟨fault, .body hread⟩
  | ok request =>
    obtain ⟨fault, last, hspeak⟩ | ⟨synthesis, last, hspeak, hencode⟩ :=
      Speech.speakEncoded_cases s.speak request.text request.overrides world
    · exact .inr ⟨fault, .speech hread hspeak⟩
    · obtain ⟨-, -, hrate⟩ := Synthesizer.of_speak_ok hspeak
      rw [hrate] at hencode
      obtain ⟨fault, hencode⟩ | ⟨file, hencode⟩ := hencode
      · exact .inr ⟨Speech.taskLost, .file hread hspeak hencode⟩
      · exact .inl ⟨_, .intro hread hspeak hencode⟩

/-- The reply of `speak` to a request that succeeds. -/
theorem Succeeds.speak (h : Succeeds s r world answer) :
    (speak s.speak r world).1 = ⟨200, answer.toJson⟩ := by
  obtain ⟨hread, hspeak, hencode⟩ := h
  obtain ⟨-, htext, hrate⟩ := Synthesizer.of_speak_ok hspeak
  rw [← hrate] at hencode
  simp only [Http.speak, hread, Speech.speakEncoded_of_file hspeak hencode, speakReply, htext,
    hrate]

/-- The reply of `speak` to a request that fails. -/
theorem Fails.speak (h : Fails s r world fault) :
    (speak s.speak r world).1 =
      ⟨faultStatus fault, (SpeakReply.error fault.message fault.code).toJson⟩ := by
  cases h with
  | body hread => simp only [Http.speak, hread, speakReply]
  | speech hread hspeak =>
    simp only [Http.speak, hread, Speech.speakEncoded_of_speechFault hspeak, speakReply]
  | file hread hspeak hencode =>
    obtain ⟨-, -, hrate⟩ := Synthesizer.of_speak_ok hspeak
    rw [← hrate] at hencode
    simp only [Http.speak, hread, Speech.speakEncoded_of_fileFault hspeak hencode, speakReply]

/-- Whether a request that is read is `Mistaken`: its body is not rejected, so it has to be
refused. -/
theorem mistaken_iff {request : SpeakRequest} (hread : readRequest r = .ok request) :
    Mistaken s r ↔ s.Refused request.text request.overrides := by
  obtain ⟨-, reason, hrejected⟩ | ⟨haccepted, other, hbody, hother⟩ := readRequest_cases r
  · rw [hrejected] at hread
    cases hread
  · rw [hother] at hread
    cases hread
    -- an accepted request is only mistaken for what it asks for
    refine ⟨?_, fun hrefused => .inr ⟨request, hbody, hrefused⟩⟩
    rintro (hrejected | ⟨other, hother, hrefused⟩)
    · exact absurd hrejected haccepted
    · rw [hbody] at hother
      cases hother
      exact hrefused

/-- A request that `Succeeds` is not `Mistaken`, since its body was read and it was not refused. -/
theorem Succeeds.not_mistaken (h : Succeeds s r world answer) : ¬Mistaken s r := by
  obtain ⟨hread, hspeak, -⟩ := h
  obtain ⟨haccepted, -, -⟩ := Synthesizer.of_speak_ok hspeak
  rwa [mistaken_iff hread]

/-- `isClientFault` is true of the faults of a request that is a mistake, and of no others. -/
theorem Fails.isClientFault_iff (hmodel : s.model.OwnsFaults) (h : Fails s r world fault) :
    fault.isClientFault = true ↔ Mistaken s r := by
  cases h with
  | body hread =>
    obtain ⟨hrejected, reason, hreason⟩ | ⟨-, request, -, hrequest⟩ := readRequest_cases r
    · rw [hreason] at hread
      cases hread
      exact iff_of_true rfl (.inl hrejected)
    · rw [hrequest] at hread
      cases hread
  | speech hread hspeak =>
    rw [mistaken_iff hread]
    constructor
    · intro hclient
      by_contra haccepted
      simp [Synthesizer.isClientFault_of_speak hmodel haccepted hspeak] at hclient
    · intro hrefused
      obtain ⟨fault, hclient, hfault⟩ := Synthesizer.speak_of_refused hrefused world
      rw [hfault] at hspeak
      cases hspeak
      exact hclient
  | file hread hspeak hencode =>
    obtain ⟨haccepted, -, -⟩ := Synthesizer.of_speak_ok hspeak
    rw [mistaken_iff hread]
    -- a lost task is not the client's fault
    exact iff_of_false nofun haccepted

/-- A mistake is noticed before the model is called: there are no `calls`. -/
theorem calls_of_mistaken (hpost : IsSpeak r) (h : Mistaken s r) : calls s r world = [] := by
  rw [calls, respond_of_isSpeak _ hpost]
  cases hread : readRequest r with
  | error fault => simp only [speak, hread]
  | ok request =>
    have hrefused : s.recorded.Refused request.text request.overrides := (mistaken_iff hread).mp h
    obtain ⟨fault, -, hfault⟩ := Synthesizer.speak_of_refused hrefused (world, [])
    simp only [speak, hread, Speech.speakEncoded_of_speechFault hfault]

/-- `faultStatus` goes by whose fault it is. -/
theorem faultStatus_cases (fault : SpeechFault) :
    fault.isClientFault = true ∧ faultStatus fault = 400 ∨
      fault.isClientFault = false ∧ faultStatus fault = 500 := by
  rw [faultStatus]
  cases fault.isClientFault
  · exact .inr ⟨rfl, rfl⟩
  · exact .inl ⟨rfl, rfl⟩

/-- The reply of `respond` to a speech request is `Classified`. -/
theorem respond_classified (hmodel : s.model.OwnsFaults) (hpost : IsSpeak r) (world : σ) :
    Classified s r world (respond s.speak r world).1 := by
  rw [respond_of_isSpeak _ hpost]
  obtain ⟨answer, hsucceeds⟩ | ⟨fault, hfails⟩ := succeeds_or_fails s r world
  · rw [hsucceeds.speak]
    have hunique : ∀ other, Succeeds s r world other → answer.toJson = other.toJson :=
      fun other h => congrArg Reply.body (hsucceeds.speak.symm.trans h.speak)
    exact {
      mistaken := iff_of_false (show ¬200 = 400 by decide) hsucceeds.not_mistaken
      spared := fun h => absurd h hsucceeds.not_mistaken
      spoken := iff_of_true rfl ⟨answer, hsucceeds⟩
      answer := hunique
      status := .inr (.inl rfl)
      fault := fun h => absurd rfl h }
  · rw [hfails.speak]
    -- the status goes by whose fault it is, and that by whether the request is a mistake
    have hclient := hfails.isClientFault_iff hmodel
    have hstatus : faultStatus fault ≠ 200 := by
      obtain ⟨-, hstatus⟩ | ⟨-, hstatus⟩ := faultStatus_cases fault <;> simp [hstatus]
    have hnone : ¬∃ answer, Succeeds s r world answer := by
      rintro ⟨answer, hsucceeds⟩
      exact hstatus (congrArg Reply.status (hfails.speak.symm.trans hsucceeds.speak))
    refine {
      mistaken := ?_
      spared := calls_of_mistaken hpost
      spoken := iff_of_false hstatus hnone
      answer := fun answer h => absurd ⟨answer, h⟩ hnone
      status := ?_
      fault := fun _ => ⟨fault, hfails, rfl⟩ }
    · rw [← hclient]
      obtain ⟨hfault, hstatus⟩ | ⟨hfault, hstatus⟩ := faultStatus_cases fault <;>
        simp [hfault, hstatus]
    · obtain ⟨-, hstatus⟩ | ⟨-, hstatus⟩ := faultStatus_cases fault
      · exact .inl hstatus
      · exact .inr (.inr hstatus)

end Replies

/-! ## Servers -/

/-- Answers the requests one after the other with `respond`, each with the world that the one before
left. -/
def respondAll (service : Service σ) : List Request → σ → List Reply × σ
  | [], world => ([], world)
  | r :: rest, world =>
    let first := respond service r world
    let others := respondAll service rest first.2
    (first.1 :: others.1, others.2)

/-- `respondAll` answers the earlier requests first, and the others in the world after them. -/
theorem respondAll_append (service : Service σ) (earlier later : List Request) (world : σ) :
    respondAll service (earlier ++ later) world =
      ((respondAll service earlier world).1 ++
          (respondAll service later (respondAll service earlier world).2).1,
        (respondAll service later (respondAll service earlier world).2).2) := by
  induction earlier generalizing world with
  | nil => rfl
  | cons r rest ih =>
    simp only [List.cons_append, respondAll, ih]

/-- `respondAll` gives one reply for each request. -/
theorem length_respondAll (service : Service σ) (requests : List Request) (world : σ) :
    (respondAll service requests world).1.length = requests.length := by
  induction requests generalizing world with
  | nil => rfl
  | cons r rest ih => simp only [respondAll, List.length_cons, ih]

/-- `respondAll` answers each of the requests, and the replies to those that are speech requests are
what their status tells: 400 for a mistake of the client, which never reaches the model, 200 for a
text that is spoken, and 500 for everything else. -/
theorem respondAll_classified (s : Synthesizer κ σ) (hmodel : s.model.OwnsFaults)
    (requests : List Request) (world : σ) :
    (respondAll s.speak requests world).1.length = requests.length ∧
      ∀ earlier r later, requests = earlier ++ r :: later → IsSpeak r →
        ∃ reply, (respondAll s.speak requests world).1[earlier.length]? = some reply ∧
          Classified s r (respondAll s.speak earlier world).2 reply := by
  refine ⟨length_respondAll s.speak requests world, ?_⟩
  rintro earlier r later rfl hpost
  -- the reply is the first one to what is left of the requests after the earlier ones
  refine ⟨_, ?_, respond_classified hmodel hpost (respondAll s.speak earlier world).2⟩
  rw [respondAll_append, List.getElem?_append_right (length_respondAll _ _ _).le, length_respondAll,
    Nat.sub_self]
  rfl

/-- A speech `Request` with the given body, sent as JSON. -/
def post (body : String) : Request :=
  ⟨"POST", "/speak", some "application/json", Text.encodeUtf8 body⟩

/-- The faults of `reader` are its own, and not those of a client. -/
theorem ownsFaults_reader : Speech.reader.model.OwnsFaults where
  prefill h := by
    simp only [Speech.reader] at h
    split at h
    · cases h
    · cases h
      rfl
  vocode h := by cases h

/-- A speech `Request` without a text. -/
def emptyPost : Request :=
  post "\x7b\x7d"

/-- A speech request with a text that `reader` can read. -/
def onePost : Request :=
  post "\x7b\"text\":\"One.\"\x7d"

/-- A speech request with a text that `reader` cannot read. -/
def twoPost : Request :=
  post "\x7b\"text\":\"Two!\"\x7d"

/-- A body without a text is `Mistaken`; a text that the model can read is spoken; and it is no
mistake to ask for one that the model cannot read. -/
theorem respondAll_classified_reader :
    Speech.reader.model.OwnsFaults ∧
      Mistaken Speech.reader emptyPost ∧ calls Speech.reader emptyPost () = [] ∧
      (∃ answer, Succeeds Speech.reader onePost () answer) ∧
      ¬Mistaken Speech.reader twoPost ∧ ∃ fault, Fails Speech.reader twoPost () fault := by
  have hstatuses : (respondAll Speech.reader.speak [emptyPost, onePost, twoPost] ()).1.map
      (·.status) = [400, 200, 500] := by decide +kernel
  have hstatus : ∀ {i : ℕ} {reply : Reply},
      (respondAll Speech.reader.speak [emptyPost, onePost, twoPost] ()).1[i]? = some reply →
        [400, 200, 500][i]? = some reply.status := fun h => by
    rw [← hstatuses, List.getElem?_map, h]
    rfl
  obtain ⟨-, hclassified⟩ := respondAll_classified Speech.reader ownsFaults_reader
    [emptyPost, onePost, twoPost] ()
  obtain ⟨first, hfirst, hempty⟩ := hclassified [] emptyPost [onePost, twoPost] rfl ⟨rfl, rfl⟩
  obtain ⟨second, hsecond, hone⟩ := hclassified [emptyPost] onePost [twoPost] rfl ⟨rfl, rfl⟩
  obtain ⟨third, hthird, htwo⟩ := hclassified [emptyPost, onePost] twoPost [] rfl ⟨rfl, rfl⟩
  have hfirst : 400 = first.status := Option.some.inj (hstatus hfirst)
  have hsecond : 200 = second.status := Option.some.inj (hstatus hsecond)
  have hthird : 500 = third.status := Option.some.inj (hstatus hthird)
  have hmistaken := hempty.mistaken.mp hfirst.symm
  refine ⟨ownsFaults_reader, hmistaken, hempty.spared hmistaken, hone.spoken.mp hsecond.symm, ?_,
    ?_⟩
  · rw [← htwo.mistaken, ← hthird]
    decide
  · obtain ⟨fault, hfails, -⟩ := htwo.fault (by rw [← hthird]; decide)
    exact ⟨fault, hfails⟩

end Utterance.Http
