import Utterance.Proofs.Speech.Transcript
import Utterance.Proofs.Text.Visible

/-!
# What is prefilled

The calls for some chunks start with the prefill of the first one, prefill nothing else than chunks,
and end with the answer that there is nothing to speak only if the model says so.  Together with
what is known of the chunks, this tells for which requests the answer is that there is nothing to
speak, and that no request for a text that is not mute prefills blanks.

## Key results

- `exists_acts`: a decode adds calls of the oracle to the log, and nothing else
- `speakChunk_course`, `speakChunks_course`: the course of one chunk, and of all
- `speak_of_no_chunks`, `speak_course`: the course of a request without chunks, and of one with some
- `speak_visible`: what is prefilled, and when there is nothing to speak
-/

namespace Utterance.Speech

open Decode (Act Decoder)
open Sampling (Settings Overrides)
open Text (Mute prepare visible)

variable {κ σ : Type}

/-- The `SpeechFault` that a call answers with.  Those of the oracle are no speech faults. -/
def Call.fault? : Call κ → Option SpeechFault
  | .prefill _ _ (.error fault) | .vocode _ (.error fault) => some fault
  | _ => none

/-- The calls for some chunks, and the answer that they come to: what they `prefill`, and when that
answer is `.emptyText`. -/
structure Course {α : Type} (chunks : List String) (start : Token) (calls : List (Call κ))
    (answer : Except SpeechFault α) : Prop where
  /-- The first call prefills the first chunk. -/
  starts : ∀ chunk ∈ chunks.head?, ∃ reply, calls.head? = some (.prefill chunk start reply)
  /-- Nothing but chunks is prefilled. -/
  mem_chunks : ∀ text start' reply, .prefill text start' reply ∈ calls → text ∈ chunks
  /-- The answer is that there is nothing to speak exactly when a call says so. -/
  emptyText_iff : answer = .error .emptyText ↔ ∃ call ∈ calls, call.fault? = some .emptyText

namespace Course

variable {α β : Type} {chunk : String} {chunks rest : List String} {start : Token}
  {calls calls' : List (Call κ)} {answer : Except SpeechFault α} {answer' : Except SpeechFault β}

/-- Without chunks there are no calls, and so none that answers with `.emptyText`. -/
theorem nil (result : α) : Course [] start ([] : List (Call κ)) (.ok result) where
  starts := by simp
  mem_chunks := by simp
  emptyText_iff := by simp

/-- A chunk is prefilled, and other calls follow that do not `prefill`. -/
theorem of_chunk {reply : Except SpeechFault κ}
    (hcalls : ∀ text start' reply', .prefill text start' reply' ∉ calls)
    (hanswer : answer = .error .emptyText ↔
      ∃ call ∈ .prefill chunk start reply :: calls, call.fault? = some .emptyText) :
    Course [chunk] start (.prefill chunk start reply :: calls) answer where
  starts _ hchunk := ⟨reply, by rw [← Option.some.inj hchunk, List.head?_cons]⟩
  mem_chunks text start' reply' hcall := by
    obtain heq | hlater := List.mem_cons.mp hcall
    · cases heq
      exact List.mem_singleton_self _
    · exact absurd hlater (hcalls _ _ _)
  emptyText_iff := hanswer

/-- Answers of which both or none are `.emptyText` come of the same calls. -/
theorem congr (h : Course chunks start calls answer)
    (hsame : answer' = .error .emptyText ↔ answer = .error .emptyText) :
    Course chunks start calls answer' where
  starts := h.starts
  mem_chunks := h.mem_chunks
  emptyText_iff := hsame.trans h.emptyText_iff

/-- The chunks behind one with a fault are left alone: the `Course` of that one is the course of
all. -/
theorem break_off (h : Course [chunk] start calls answer) (rest : List String) :
    Course (chunk :: rest) start calls answer where
  starts := h.starts
  mem_chunks text start' reply hcall := by
    rw [List.mem_singleton.mp (h.mem_chunks text start' reply hcall)]
    exact List.mem_cons_self
  emptyText_iff := h.emptyText_iff

/-- Behind a chunk that is not answered with `.emptyText`, the `Course` of the rest goes on. -/
theorem append (h : Course [chunk] start calls answer) (hspoken : answer ≠ .error .emptyText)
    (h' : Course rest start calls' answer') :
    Course (chunk :: rest) start (calls ++ calls') answer' where
  starts first hfirst := by
    obtain ⟨reply, hhead⟩ := h.starts first hfirst
    exact ⟨reply, by rw [List.head?_append, hhead, Option.some_or]⟩
  mem_chunks text start' reply hcall := by
    obtain hcall | hcall := List.mem_append.mp hcall
    · rw [List.mem_singleton.mp (h.mem_chunks text start' reply hcall)]
      exact List.mem_cons_self
    · exact List.mem_cons_of_mem _ (h'.mem_chunks text start' reply hcall)
  emptyText_iff := by
    -- no call for the first chunk answers that the text is empty
    have hnone := mt h.emptyText_iff.mpr hspoken
    rw [h'.emptyText_iff]
    simp only [List.mem_append, or_and_right, exists_or, hnone, false_or]

end Course

namespace Synthesizer

variable (s : Synthesizer κ σ) (settings : Settings)

/-- The same world, with calls of the oracle added to a log, each as a `Call`. -/
def Logged (log : List (Call κ)) (world : σ) (logged : σ × List (Call κ)) : Prop :=
  world = logged.1 ∧ ∃ acts : List (Act κ), logged.2 = log ++ acts.map .oracle

/-- The oracle of `s.recorded` answers as the one without a log, and adds its calls to it. -/
theorem logged_oracle (log : List (Call κ)) :
    s.model.toOracle.Alike (Logged log) s.recorded.model.toOracle := by
  constructor
  · rintro world ⟨_, _⟩ ⟨rfl, acts, rfl⟩ context
    exact ⟨rfl, rfl, acts ++ [.predict context (s.model.predict context world).1], by
      simp [recorded, Model.recorded]⟩
  · rintro world ⟨_, _⟩ ⟨rfl, acts, rfl⟩ context token
    exact ⟨rfl, rfl, acts ++ [.advance context token (s.model.advance context token world).1], by
      simp [recorded, Model.recorded]⟩

/-- A `decode` adds calls of the oracle to the log, and nothing else. -/
theorem exists_acts (d : Decoder) (context : κ) (logged : σ × List (Call κ)) :
    ∃ acts : List (Act κ),
      (d.decode s.recorded.exp s.recorded.model.toOracle s.recorded.cancelled
        (fun _ world => world) context logged).world.2 = logged.2 ++ acts.map .oracle := by
  obtain ⟨world, log⟩ := logged
  have hcancelled : ∀ {world logged}, Logged log world logged →
      s.cancelled world = s.recorded.cancelled logged := fun h => congrArg s.cancelled h.1
  have hstart : Logged log world (world, log) := ⟨rfl, [], (List.append_nil log).symm⟩
  -- the decode is like the one without a log
  have hrun := d.decode_alike (s.logged_oracle log) hcancelled (fun h _ => h) s.exp context hstart
  exact hrun.world.2

/-- A `vocode` adds itself to the log. -/
theorem log_of_vocode {tokens : List Token} {answer : Except SpeechFault (List Float32)}
    {logged last : σ × List (Call κ)}
    (h : s.recorded.model.vocode tokens logged = (answer, last)) :
    last.2 = logged.2 ++ [.vocode tokens answer] := by
  cases h
  rfl

/-- The calls that `speakChunk` makes, and the answer that they come to. -/
theorem speakChunk_course (chunk : String) (logged : σ × List (Call κ)) :
    ∃ calls, (s.recorded.speakChunk settings chunk logged).2.2 = logged.2 ++ calls ∧
      Course [chunk] settings.startToken calls (s.recorded.speakChunk settings chunk logged).1 := by
  obtain ⟨world, log⟩ := logged
  -- call by call: the prefill comes first, and whatever is called after it prefills nothing
  cases hprefill : s.model.prefill chunk settings.startToken world with
  | mk reply prefilled =>
    have hprefill' : s.recorded.model.prefill chunk settings.startToken (world, log) =
        (reply, prefilled, log ++ [.prefill chunk settings.startToken reply]) :=
      s.model.recorded_prefill hprefill log
    cases reply with
    | error fault =>
      simp only [speakChunk, hprefill']
      exact ⟨_, rfl, .of_chunk (by simp) (by simp [Call.fault?])⟩
    | ok context =>
      rw [speakChunk_of_prefill hprefill']
      split
      · exact ⟨_, rfl, .of_chunk (by simp) (by simp [Call.fault?, SpeechFault.ofSettings])⟩
      · next d _ =>
        obtain ⟨acts, hacts⟩ := s.exists_acts d context (s.recorded.entropy
          (prefilled, log ++ [.prefill chunk settings.startToken (.ok context)])).2
        have hlog := hacts.trans (List.append_assoc log [_] _)
        dsimp only
        split
        · exact ⟨_, hlog, .of_chunk (by simp) (by simp [Call.fault?])⟩
        · next output _ =>
          split
          · exact ⟨_, hlog, .of_chunk (by simp) (by simp [Call.fault?])⟩
          · cases hvocode : s.recorded.model.vocode output.tokens _ with
            | mk answer last =>
              have hvocoded := s.log_of_vocode hvocode
              rw [hlog, List.append_assoc] at hvocoded
              cases answer <;>
                exact ⟨_, hvocoded, .of_chunk (by simp) (by simp [Call.fault?])⟩

/-- The calls that `speakChunks` makes, and the answer that they come to. -/
theorem speakChunks_course (gap : List Float32) (chunks : List String)
    (logged : σ × List (Call κ)) :
    ∃ calls, (s.recorded.speakChunks settings gap chunks logged).2.2 = logged.2 ++ calls ∧
      Course chunks settings.startToken calls
        (s.recorded.speakChunks settings gap chunks logged).1 := by
  induction chunks generalizing logged with
  | nil => exact ⟨[], (List.append_nil _).symm, .nil _⟩
  | cons chunk rest ih =>
    obtain ⟨calls, hlog, hcourse⟩ := s.speakChunk_course settings chunk logged
    cases hchunk : s.recorded.speakChunk settings chunk logged with
    | mk answer next =>
      rw [hchunk] at hlog hcourse
      cases answer with
      | error fault =>
        simp only [speakChunks, hchunk]
        exact ⟨calls, hlog, (hcourse.break_off rest).congr (by simp)⟩
      | ok spoken =>
        -- the calls for the rest come behind those for the chunk
        obtain ⟨calls', hlog', hcourse'⟩ := ih next
        rw [hlog, List.append_assoc] at hlog'
        cases hrest : s.recorded.speakChunks settings gap rest next with
        | mk answer last =>
          rw [hrest] at hlog' hcourse'
          simp only [speakChunks, hchunk, hrest]
          have happend := hcourse.append (by simp) hcourse'
          cases answer <;> exact ⟨_, hlog', happend.congr (by simp)⟩

section Requests

variable {settings} {overrides : Overrides}
  (hsettings : s.sampling.override overrides = .ok settings) {text : String}

include hsettings

/-- Without chunks `speak` answers that there is nothing to speak, and calls nothing. -/
theorem speak_of_no_chunks (hchunks : (prepare s.text text).2 = []) (world : σ) :
    s.speak text overrides world = (.error .emptyText, world) ∧
      s.calls text overrides world = [] := by
  apply s.speak_of_recorded
  have hchunks' : (prepare s.recorded.text text).2 = [] := hchunks
  have hsettings' : s.recorded.sampling.override overrides = .ok settings := hsettings
  simp only [speak, hsettings', hchunks']
  rfl

/-- With some chunks `speak` makes the calls for these, and no other. -/
theorem speak_course (hchunks : (prepare s.text text).2 ≠ []) (world : σ) :
    Course (prepare s.text text).2 settings.startToken (s.calls text overrides world)
      (s.speak text overrides world).1 := by
  have hspeak := s.recorded.speak_of_chunks hsettings hchunks (world, [])
  obtain ⟨calls, hlog, hcourse⟩ := s.speakChunks_course settings
    (Audio.silence s.recorded.model.rate s.recorded.text.chunkSilence)
    (prepare s.recorded.text text).2 (world, [])
  split at hspeak <;> next hspoken =>
    rw [hspoken] at hlog hcourse
    obtain ⟨hanswer, hcalls⟩ := s.speak_of_recorded hspeak
    rw [hanswer, hcalls, hlog]
    exact hcourse.congr (by simp)

end Requests

end Synthesizer

/-- What `speak` prefills for a request whose overrides are accepted, and when there is nothing
to speak.  The chunks have the visible characters of the text that is spoken.  Unless the text
is `Mute`, there is one in each of them and in everything that is prefilled; the answer is that
there is nothing to speak exactly when there is none in the text, and the model is not called
then, or when a call of the model says so itself.  A mute text has none, and yet its greeting is
prefilled. -/
theorem speak_visible (s : Synthesizer κ σ) {overrides : Overrides} {settings : Settings}
    (hsettings : s.sampling.override overrides = .ok settings) {text clean : String}
    {chunks : List String} (hprepare : prepare s.text text = (clean, chunks)) (world : σ) :
    chunks.flatMap (fun chunk => visible chunk.toList) = visible clean.toList ∧
    (¬Mute s.text text →
      (chunks = [] ↔ visible clean.toList = []) ∧
      (∀ chunk ∈ chunks, visible chunk.toList ≠ []) ∧
      (∀ spoken start reply, .prefill spoken start reply ∈ s.calls text overrides world →
        visible spoken.toList ≠ []) ∧
      ((s.speak text overrides world).1 = .error .emptyText ↔
        visible clean.toList = [] ∨
          ∃ call ∈ s.calls text overrides world, call.fault? = some .emptyText) ∧
      (visible clean.toList = [] →
        s.speak text overrides world = (.error .emptyText, world) ∧
          s.calls text overrides world = [])) ∧
    (Mute s.text text →
      visible clean.toList = [] ∧ chunks = [clean] ∧
        ∃ reply, (s.calls text overrides world).head? =
          some (.prefill clean settings.startToken reply)) := by
  obtain rfl : (prepare s.text text).1 = clean := congrArg Prod.fst hprepare
  obtain rfl : (prepare s.text text).2 = chunks := congrArg Prod.snd hprepare
  refine ⟨Text.visible_prepare s.text text, fun hmute => ?_, fun hmute => ?_⟩
  · -- a text that is not mute has visible chunks only
    have hsome := Text.chunks_of_not_mute hmute
    have hnone := Text.chunks_eq_nil_iff hmute
    refine ⟨hnone, hsome, ?_⟩
    rw [← hnone]
    by_cases hchunks : (prepare s.text text).2 = []
    · obtain ⟨hspeak, hcalls⟩ := s.speak_of_no_chunks hsettings hchunks world
      rw [hspeak, hcalls]
      exact ⟨nofun, ⟨fun _ => .inl hchunks, fun _ => rfl⟩, fun _ => ⟨rfl, rfl⟩⟩
    · -- a request with chunks prefills these, in order
      have hcourse := s.speak_course hsettings hchunks world
      refine ⟨fun spoken start reply hcall => ?_, ?_, fun hnil => absurd hnil hchunks⟩
      · exact hsome spoken (hcourse.mem_chunks spoken start reply hcall)
      · rw [hcourse.emptyText_iff, or_iff_right hchunks]
  · -- a mute text is answered with the greeting, which is prefilled though it is blank
    have hgreeting := Text.prepare_of_mute hmute
    have hsome : (prepare s.text text).2 ≠ [] := by
      rw [hgreeting]
      exact List.cons_ne_nil _ _
    obtain ⟨reply, hcall⟩ := (s.speak_course hsettings hsome world).starts s.text.greeting
      (by rw [hgreeting]; rfl)
    rw [hgreeting]
    exact ⟨hmute.greeting_blank, rfl, reply, hcall⟩

/-- A `reader` that greets with blanks, and does not split. -/
def mumbler : Synthesizer ℕ Unit :=
  { reader with text := { splitSentences := false, greeting := "  " } }

/-- The `mumbler` is given a prompt, and its greeting is blank. -/
theorem mute_mumbler : Mute mumbler.text "Conversation" where
  sanitize := rfl
  unsplit := rfl
  scaffold := Text.any_isPrefixOf_iff.mp (by decide)
  greeting_ne := by decide
  greeting_blank := by decide

/-- The `mumbler` is given a prompt.  No visible character is left of it, but the model is called
with blanks and has to say what to do with them. -/
theorem mumbler_prefills_blanks :
    prepare mumbler.text "Conversation" = ("  ", ["  "]) ∧ visible "  ".toList = [] ∧
      mumbler.calls "Conversation" {} () =
        [.prefill "  " 0 (.error (.synthesis "not a one"))] ∧
      (mumbler.speak "Conversation" {} ()).1 ≠ .error .emptyText := by
  have hsettings : mumbler.sampling.override {} = .ok mumbler.sampling := by decide
  have hprepare : prepare mumbler.text "Conversation" = ("  ", ["  "]) :=
    -- no word of the mumbler is a one, so its first prefill fails
    Text.prepare_of_mute mute_mumbler
  have hrunning : ∀ world, mumbler.cancelled world = false := fun _ => rfl
  have hfails : Fails mumbler mumbler.sampling "  " (.synthesis "not a one")
      [.prefill "  " 0 (.error (.synthesis "not a one"))] () () := .prefill rfl
  obtain ⟨hanswer, hcalls⟩ :=
    hfails.speak hrunning hsettings hprepare (List.cons_ne_nil _ _) (.nil ()) rfl
  refine ⟨hprepare, by decide, hcalls, ?_⟩
  rw [hanswer]
  nofun

/-- Of markup alone there is nothing to speak for the `mumbler`. -/
theorem speak_visible_mumbler :
    mumbler.speak "**" {} () = (.error .emptyText, ()) ∧ mumbler.calls "**" {} () = [] ∧
      ∃ reply, (mumbler.calls "Conversation" {} ()).head? = some (.prefill "  " 0 reply) := by
  have hsettings : mumbler.sampling.override {} = .ok mumbler.sampling := by decide
  have hreply : ¬Text.Scaffold (Text.stripped "**".toList) :=
    mt Text.any_isPrefixOf_iff.mpr (by decide)
  have hprepare : prepare mumbler.text "**" = ("", []) := by decide
  obtain ⟨-, hvoiced, -⟩ := speak_visible mumbler hsettings hprepare ()
  obtain ⟨-, -, -, -, hnothing⟩ := hvoiced fun hmute => hreply hmute.scaffold
  obtain ⟨hspeak, hcalls⟩ := hnothing rfl
  obtain ⟨-, -, hmute⟩ :=
    speak_visible mumbler hsettings (Text.prepare_of_mute mute_mumbler) ()
  obtain ⟨-, -, hcall⟩ := hmute mute_mumbler
  exact ⟨hspeak, hcalls, hcall⟩

end Utterance.Speech
