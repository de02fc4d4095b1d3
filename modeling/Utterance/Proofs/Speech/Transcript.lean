import Utterance.Proofs.Decode.Selection
import Utterance.Proofs.Speech.Simulation

/-!
# What a request does

A request is observed through the calls that it makes to the model.  `Synthesizer.recorded` notes
them down, and `speak_transcript` reads the notes: each chunk is prefilled, decoded and vocoded, one
after the other, and the first of these that fails is the last call of the request.

## Key results

- `recorded_alike`: noting down the calls changes nothing else about a request
- `speakChunk_of_decode`: one chunk that nothing cancels, in terms of one decode by a fresh decoder
- `chunks_cases`: all chunks are spoken, or one of them is the first to fail
- `speak_transcript`: what a request answers, and the calls that it makes
-/

namespace Utterance.Decode

variable {κ σ : Type}

/-- The calls of the oracle in one decode by random selection, by a decoder with fresh
`Settings`. -/
def oracleCalls (exp : Float32 → Float32) (settings : Sampling.Settings)
    (unseeded : Utterance.Random.Generator) (oracle : Oracle κ σ) (context : κ) (world : σ) :
    List (Act κ) :=
  (decodeTokens exp settings unseeded oracle.recorded context (world, [])).2.2

end Utterance.Decode

namespace Utterance.Speech

open Decode (Act Decoder Output decodeTokens decodeTokens_alike oracleCalls)
open Sampling (Settings Overrides)

variable {κ σ : Type}

/-! ## Recording -/

/-- A call of a `Model`, with the answer that it gets. -/
inductive Call (κ : Type) where
  | prefill (text : String) (start : Token) (answer : Except SpeechFault κ)
  | oracle (act : Act κ)
  | vocode (tokens : List Token) (answer : Except SpeechFault (List Float32))

/-- The `Model`, with every call added to a log. -/
def Model.recorded (model : Model κ σ) : Model κ (σ × List (Call κ)) where
  predict context world :=
    let reply := model.predict context world.1
    (reply.1, reply.2, world.2 ++ [.oracle (.predict context reply.1)])
  advance context token world :=
    let reply := model.advance context token world.1
    (reply.1, reply.2, world.2 ++ [.oracle (.advance context token reply.1)])
  rate := model.rate
  prefill text start world :=
    let reply := model.prefill text start world.1
    (reply.1, reply.2, world.2 ++ [.prefill text start reply.1])
  vocode tokens world :=
    let reply := model.vocode tokens world.1
    (reply.1, reply.2, world.2 ++ [.vocode tokens reply.1])

/-- The prefill of a `recorded` model adds itself to the log. -/
theorem Model.recorded_prefill (model : Model κ σ) {text : String} {start : Token} {world last : σ}
    {answer : Except SpeechFault κ} (h : model.prefill text start world = (answer, last))
    (log : List (Call κ)) :
    model.recorded.prefill text start (world, log) =
      (answer, last, log ++ [.prefill text start answer]) := by
  simp only [Model.recorded, h]

/-- The vocoding of a `recorded` model adds itself to the log. -/
theorem Model.recorded_vocode (model : Model κ σ) {tokens : List Token} {world last : σ}
    {answer : Except SpeechFault (List Float32)} (h : model.vocode tokens world = (answer, last))
    (log : List (Call κ)) :
    model.recorded.vocode tokens (world, log) = (answer, last, log ++ [.vocode tokens answer]) := by
  simp only [Model.recorded, h]

/-- `decodeTokens` by a `recorded` model does what it does by the model, and adds the calls of the
oracle to the log. -/
theorem Model.recorded_decodeTokens (model : Model κ σ) {exp : Float32 → Float32}
    {settings : Settings} {unseeded : Utterance.Random.Generator} {context : κ} {world last : σ}
    {answer : Except DecodeFault Output}
    (h : decodeTokens exp settings unseeded model.toOracle context world = (answer, last))
    (log : List (Call κ)) :
    decodeTokens exp settings unseeded model.recorded.toOracle context (world, log) =
      (answer, last, log ++
        (oracleCalls exp settings unseeded model.toOracle context world).map .oracle) := by
  -- noting down the acts does not disturb the decode
  have hplain : model.toOracle.Alike (fun world logged => world = logged.1)
      model.toOracle.recorded :=
    ⟨fun hworld _ => hworld ▸ ⟨rfl, rfl⟩, fun hworld _ _ => hworld ▸ ⟨rfl, rfl⟩⟩
  -- and the log of the model gets what the log of the oracle gets
  have hlogged : model.toOracle.recorded.Alike
      (fun acted logged => logged = (acted.1, log ++ acted.2.map .oracle))
      model.recorded.toOracle := by
    constructor
    · rintro ⟨world, acts⟩ _ rfl context
      exact ⟨rfl, by simp [Decode.Oracle.recorded, Model.recorded]⟩
    · rintro ⟨world, acts⟩ _ rfl context token
      exact ⟨rfl, by simp [Decode.Oracle.recorded, Model.recorded]⟩
  have hacted : Decode.Alike _ (decodeTokens exp settings unseeded model.toOracle context world)
      (decodeTokens exp settings unseeded model.toOracle.recorded context (world, [])) :=
    decodeTokens_alike hplain exp settings (fun _ => rfl) context rfl
  have hadded : Decode.Alike _
      (decodeTokens exp settings unseeded model.toOracle.recorded context (world, []))
      (decodeTokens exp settings unseeded model.recorded.toOracle context (world, log)) :=
    decodeTokens_alike hlogged exp settings (fun _ => rfl) context (by simp)
  obtain ⟨acted, hacted, rfl⟩ := hacted.exists_eq h
  obtain ⟨logged, hadded, rfl⟩ := hadded.exists_eq hacted
  rw [hadded, oracleCalls, hacted]

namespace Synthesizer

variable (s : Synthesizer κ σ)

/-- The `Synthesizer`, with every call of its model added to a log. -/
def recorded : Synthesizer κ (σ × List (Call κ)) where
  exp := s.exp
  model := s.model.recorded
  sampling := s.sampling
  valid := s.valid
  text := s.text
  cancelled world := s.cancelled world.1
  entropy world := ((s.entropy world.1).1, (s.entropy world.1).2, world.2)

/-- The calls that `speak` makes to the model. -/
def calls (text : String) (overrides : Overrides) (world : σ) : List (Call κ) :=
  (s.recorded.speak text overrides (world, [])).2.2

/-- `recorded` notes down the calls of the model and changes nothing else. -/
theorem recorded_alike : s.Alike (fun world logged => world = logged.1) s.recorded where
  exp := rfl
  sampling := rfl
  text := rfl
  -- recording a call changes no answer
  model :=
    { rate := rfl
      oracle := ⟨fun h _ => h ▸ ⟨rfl, rfl⟩, fun h _ _ => h ▸ ⟨rfl, rfl⟩⟩
      prefill := fun h _ _ => h ▸ ⟨rfl, rfl⟩
      vocode := fun h _ => h ▸ ⟨rfl, rfl⟩ }
  cancelled h := h ▸ rfl
  entropy h := h ▸ rfl

/-- What `speak` answers, and the calls that it makes, from the record of it. -/
theorem speak_of_recorded {text : String} {overrides : Overrides} {world last : σ}
    {answer : Except SpeechFault Synthesis} {log : List (Call κ)}
    (h : s.recorded.speak text overrides (world, []) = (answer, last, log)) :
    s.speak text overrides world = (answer, last) ∧ s.calls text overrides world = log := by
  have halike : Decode.Alike _ (s.speak text overrides world)
      (s.recorded.speak text overrides (world, [])) :=
    s.recorded_alike.speak text overrides (fun _ _ _ h => h ▸ rfl) rfl
  rw [Decode.Alike, h] at halike
  exact ⟨Prod.ext halike.1 halike.2, congrArg (·.2.2) h⟩

end Synthesizer

/-! ## One chunk -/

/-- A chunk that is spoken, with what the model answers to `prefill`, to the calls of the decode and
to `vocode`. -/
structure Piece (κ : Type) where
  chunk : String
  /-- What the chunk is prefilled to. -/
  context : κ
  /-- The calls of the oracle in its decode. -/
  acts : List (Act κ)
  /-- What it is decoded to. -/
  output : Output
  audio : List Float32

namespace Piece

/-- The `ChunkReport` of the chunk. -/
def report (piece : Piece κ) : ChunkReport :=
  ⟨piece.chunk, piece.output.tokens.length, piece.output.finish⟩

/-- The calls that the chunk takes: `prefill`, those of the decode, and `vocode`. -/
def calls (start : Token) (piece : Piece κ) : List (Call κ) :=
  .prefill piece.chunk start (.ok piece.context) ::
    piece.acts.map .oracle ++ [.vocode piece.output.tokens (.ok piece.audio)]

end Piece

/-- The chunk of a `Piece` is prefilled, decoded by a fresh decoder from the context that this
gives, and vocoded. -/
inductive Spoken (s : Synthesizer κ σ) (settings : Settings) (piece : Piece κ) : σ → σ → Prop
  | intro {world prefilled decoded last : σ}
      (hprefill : s.model.prefill piece.chunk settings.startToken world =
        (.ok piece.context, prefilled))
      (hdecode : decodeTokens s.exp settings (s.entropy prefilled).1 s.model.toOracle
        piece.context (s.entropy prefilled).2 = (.ok piece.output, decoded))
      (hacts : piece.acts = oracleCalls s.exp settings (s.entropy prefilled).1 s.model.toOracle
        piece.context (s.entropy prefilled).2)
      (hvocode : s.model.vocode piece.output.tokens decoded = (.ok piece.audio, last)) :
      Spoken s settings piece world last

/-- The first call of a chunk that fails is the last that is made for it, be it `prefill`, one of
the decode or `vocode`. -/
inductive Fails (s : Synthesizer κ σ) (settings : Settings) (chunk : String) :
    SpeechFault → List (Call κ) → σ → σ → Prop
  | prefill {world last : σ} {fault : SpeechFault}
      (hprefill : s.model.prefill chunk settings.startToken world = (.error fault, last)) :
      Fails s settings chunk fault [.prefill chunk settings.startToken (.error fault)] world last
  | decode {world prefilled last : σ} {context : κ} {fault : DecodeFault}
      (hprefill : s.model.prefill chunk settings.startToken world = (.ok context, prefilled))
      (hdecode : decodeTokens s.exp settings (s.entropy prefilled).1 s.model.toOracle context
        (s.entropy prefilled).2 = (.error fault, last)) :
      Fails s settings chunk (.decode fault)
        (.prefill chunk settings.startToken (.ok context) ::
          (oracleCalls s.exp settings (s.entropy prefilled).1 s.model.toOracle context
            (s.entropy prefilled).2).map .oracle) world last
  | vocode {world prefilled decoded last : σ} {context : κ} {output : Output} {fault : SpeechFault}
      (hprefill : s.model.prefill chunk settings.startToken world = (.ok context, prefilled))
      (hdecode : decodeTokens s.exp settings (s.entropy prefilled).1 s.model.toOracle context
        (s.entropy prefilled).2 = (.ok output, decoded))
      (hvocode : s.model.vocode output.tokens decoded = (.error fault, last)) :
      Fails s settings chunk fault
        (.prefill chunk settings.startToken (.ok context) ::
          (oracleCalls s.exp settings (s.entropy prefilled).1 s.model.toOracle context
            (s.entropy prefilled).2).map .oracle ++ [.vocode output.tokens (.error fault)])
        world last

section Chunk

variable {s : Synthesizer κ σ} {settings : Settings} (hrunning : ∀ world, s.cancelled world = false)

include hrunning

/-- What `speakChunk` does when the prefill succeeds and nothing cancels it, in terms of
`decodeTokens`. -/
theorem Synthesizer.speakChunk_of_decode {chunk : String} {context : κ} {world prefilled : σ}
    (hprefill : s.model.prefill chunk settings.startToken world = (.ok context, prefilled)) :
    s.speakChunk settings chunk world =
      match decodeTokens s.exp settings (s.entropy prefilled).1 s.model.toOracle context
        (s.entropy prefilled).2 with
      | (.error fault, world) => (.error (.decode fault), world)
      | (.ok output, world) =>
        match s.model.vocode output.tokens world with
        | (.error fault, world) => (.error fault, world)
        | (.ok audio, world) =>
          (.ok (⟨chunk, output.tokens.length, output.finish⟩, audio), world) := by
  rw [Synthesizer.speakChunk_of_prefill hprefill, decodeTokens]
  cases Decoder.new settings .multinomial (s.entropy prefilled).1 with
  | error fault => rfl
  | ok d =>
    -- so the decode is the one of `decodeTokens`, and it does not end as cancelled
    have hcancelled : s.cancelled = fun _ => false := funext hrunning
    simp only [hcancelled]
    cases houtcome : (d.decode s.exp s.model.toOracle (fun _ => false) (fun _ world => world)
      context (s.entropy prefilled).2).outcome with
    | error fault => rfl
    | ok output => exact if_neg (d.finish_of_decode (fun _ => rfl) houtcome)

/-- For a chunk that is `Spoken` the answer is its audio and its report. -/
theorem Spoken.record {piece : Piece κ} {world last : σ} (h : Spoken s settings piece world last)
    (log : List (Call κ)) :
    s.recorded.speakChunk settings piece.chunk (world, log) =
      (.ok (piece.report, piece.audio), last, log ++ piece.calls settings.startToken) := by
  obtain ⟨hprefill, hdecode, hacts, hvocode⟩ := h
  have hprefill' := s.model.recorded_prefill hprefill log
  have hdecode' := s.model.recorded_decodeTokens hdecode
    (log ++ [.prefill piece.chunk settings.startToken (.ok piece.context)])
  rw [s.recorded.speakChunk_of_decode (fun world => hrunning world.1) hprefill']
  simp only [Synthesizer.recorded, hdecode', s.model.recorded_vocode hvocode, ← hacts]
  simp [Piece.report, Piece.calls]

/-- For a chunk that `Fails` the answer is the fault of the call that failed. -/
theorem Fails.record {chunk : String} {fault : SpeechFault} {calls : List (Call κ)} {world last : σ}
    (h : Fails s settings chunk fault calls world last) (log : List (Call κ)) :
    s.recorded.speakChunk settings chunk (world, log) = (.error fault, last, log ++ calls) := by
  have hrunning' : ∀ world, s.recorded.cancelled world = false := fun world => hrunning world.1
  -- in each case the recorded model gives the same answers and appends its calls
  cases h with
  | prefill hprefill =>
    have hprefill' := s.model.recorded_prefill hprefill log
    simp only [Synthesizer.speakChunk, Synthesizer.recorded, hprefill']
  | decode hprefill hdecode =>
    have hprefill' := s.model.recorded_prefill hprefill log
    rw [s.recorded.speakChunk_of_decode hrunning' hprefill']
    simp only [Synthesizer.recorded, s.model.recorded_decodeTokens hdecode]
    simp
  | vocode hprefill hdecode hvocode =>
    have hprefill' := s.model.recorded_prefill hprefill log
    rw [s.recorded.speakChunk_of_decode hrunning' hprefill']
    simp only [Synthesizer.recorded, s.model.recorded_decodeTokens hdecode,
      s.model.recorded_vocode hvocode]
    simp

end Chunk

/-- A chunk is `Spoken`, or `Fails` with a call for it. -/
theorem chunk_cases (s : Synthesizer κ σ) (settings : Settings) (chunk : String) (world : σ) :
    (∃ piece last, piece.chunk = chunk ∧ Spoken s settings piece world last) ∨
      ∃ fault calls last, Fails s settings chunk fault calls world last := by
  -- the three calls of a chunk, each answered or failed
  cases hprefill : s.model.prefill chunk settings.startToken world with
  | mk answer prefilled =>
    cases answer with
    | error fault => exact .inr ⟨fault, _, prefilled, .prefill hprefill⟩
    | ok context =>
      cases hdecode : decodeTokens s.exp settings (s.entropy prefilled).1 s.model.toOracle context
        (s.entropy prefilled).2 with
      | mk answer decoded =>
        cases answer with
        | error fault => exact .inr ⟨_, _, decoded, .decode hprefill hdecode⟩
        | ok output =>
          cases hvocode : s.model.vocode output.tokens decoded with
          | mk answer last =>
            cases answer with
            | error fault => exact .inr ⟨fault, _, last, .vocode hprefill hdecode hvocode⟩
            | ok audio =>
              exact .inl ⟨⟨chunk, context, oracleCalls s.exp settings (s.entropy prefilled).1
                s.model.toOracle context (s.entropy prefilled).2, output, audio⟩, last, rfl,
                .intro hprefill hdecode rfl hvocode⟩

/-- A chunk that is `Spoken` was decoded to its end or to the limit, and not cancelled. -/
theorem Spoken.finish {s : Synthesizer κ σ} {settings : Settings} {piece : Piece κ} {world last : σ}
    (h : Spoken s settings piece world last) :
    piece.output.finish = .stopToken ∨ piece.output.finish = .maxSteps := by
  obtain ⟨-, hdecode, -, -⟩ := h
  rw [decodeTokens] at hdecode
  split at hdecode
  · cases hdecode
  · next d _ =>
    have hfinish := d.finish_of_decode (fun _ => rfl) (congrArg Prod.fst hdecode)
    -- a decode whose signal is never seen does not end as cancelled
    cases hcase : piece.output.finish with
    | stopToken => exact .inl rfl
    | maxSteps => exact .inr rfl
    | cancelled => exact absurd hcase hfinish

/-! ## All chunks -/

/-- Chunks are `Spoken` one after the other. -/
inductive SpokenAll (s : Synthesizer κ σ) (settings : Settings) : List (Piece κ) → σ → σ → Prop
  | nil (world : σ) : SpokenAll s settings [] world world
  | cons {piece : Piece κ} {rest : List (Piece κ)} {world next last : σ}
      (hpiece : Spoken s settings piece world next) (hrest : SpokenAll s settings rest next last) :
      SpokenAll s settings (piece :: rest) world last

/-- Either all chunks are spoken (`SpokenAll`), or one is the first that `Fails`. -/
theorem chunks_cases (s : Synthesizer κ σ) (settings : Settings) (chunks : List String)
    (world : σ) :
    (∃ pieces last, pieces.map (·.chunk) = chunks ∧ SpokenAll s settings pieces world last) ∨
      ∃ pieces chunk rest middle fault calls last,
        chunks = pieces.map (·.chunk) ++ chunk :: rest ∧
        SpokenAll s settings pieces world middle ∧
        Fails s settings chunk fault calls middle last := by
  -- induction on the chunks, with the world the earlier ones have left
  induction chunks generalizing world with
  | nil => exact .inl ⟨[], world, rfl, .nil world⟩
  | cons chunk rest ih =>
    rcases chunk_cases s settings chunk world with ⟨piece, next, rfl, hpiece⟩ |
      ⟨fault, calls, last, hfails⟩
    · -- the chunk has been spoken, so the rest goes on from there
      rcases ih next with ⟨pieces, last, rfl, hpieces⟩ |
        ⟨pieces, failing, rest, middle, fault, calls, last, rfl, hpieces, hfails⟩
      · exact .inl ⟨piece :: pieces, last, rfl, .cons hpiece hpieces⟩
      · exact .inr ⟨piece :: pieces, failing, rest, middle, fault, calls, last, rfl,
          .cons hpiece hpieces, hfails⟩
    · -- the first chunk fails, so none has been spoken before it
      exact .inr ⟨[], chunk, rest, world, fault, calls, last, rfl, .nil world, hfails⟩

/-- Each of several chunks that are spoken (`SpokenAll`) was decoded to its end or to the limit. -/
theorem SpokenAll.finish {s : Synthesizer κ σ} {settings : Settings} {pieces : List (Piece κ)}
    {world last : σ} (h : SpokenAll s settings pieces world last) :
    ∀ piece ∈ pieces, piece.output.finish = .stopToken ∨ piece.output.finish = .maxSteps := by
  induction h with
  | nil => simp
  | cons hpiece _ ih => exact List.forall_mem_cons.mpr ⟨hpiece.finish, ih⟩

section Chunks

variable {s : Synthesizer κ σ} {settings : Settings} (hrunning : ∀ world, s.cancelled world = false)

include hrunning

/-- What `speakChunks` gives for chunks that are spoken: their reports, and their audio with a gap
after each. -/
theorem SpokenAll.record {pieces : List (Piece κ)} {world last : σ}
    (h : SpokenAll s settings pieces world last) (gap : List Float32) (log : List (Call κ)) :
    s.recorded.speakChunks settings gap (pieces.map (·.chunk)) (world, log) =
      (.ok (pieces.map (·.report), pieces.flatMap fun piece => piece.audio ++ gap), last,
        log ++ pieces.flatMap (·.calls settings.startToken)) := by
  induction h generalizing log with
  | nil => simp [Synthesizer.speakChunks]
  | cons hpiece _ ih =>
    simp only [List.map_cons, Synthesizer.speakChunks, hpiece.record hrunning, ih]
    simp

/-- What `speakChunks` gives when a chunk fails: the fault, with no call after it. -/
theorem SpokenAll.record_fails {pieces : List (Piece κ)} {world middle : σ}
    (h : SpokenAll s settings pieces world middle) {chunk : String} {fault : SpeechFault}
    {calls : List (Call κ)} {last : σ} (hfails : Fails s settings chunk fault calls middle last)
    (gap : List Float32) (rest : List String) (log : List (Call κ)) :
    s.recorded.speakChunks settings gap (pieces.map (·.chunk) ++ chunk :: rest) (world, log) =
      (.error fault, last, log ++ pieces.flatMap (·.calls settings.startToken) ++ calls) := by
  induction h generalizing log with
  | nil =>
    simp only [List.map_nil, List.nil_append, Synthesizer.speakChunks, hfails.record hrunning]
    simp
  | cons hpiece _ ih =>
    simp only [List.map_cons, List.cons_append, Synthesizer.speakChunks, hpiece.record hrunning,
      ih hfails]
    simp

end Chunks

/-! ## Requests -/

section Requests

variable {s : Synthesizer κ σ} (hrunning : ∀ world, s.cancelled world = false)
  {overrides : Overrides} {settings : Settings}
  (hsettings : s.sampling.override overrides = .ok settings) {text clean : String}
  {chunks : List String} (hprepare : Text.prepare s.text text = (clean, chunks))
  (hchunks : chunks ≠ []) {world : σ}

include hrunning hsettings hprepare hchunks

/-- What `speak` answers when all chunks are spoken. -/
theorem SpokenAll.speak {pieces : List (Piece κ)} {last : σ}
    (h : SpokenAll s settings pieces world last) (hmap : pieces.map (·.chunk) = chunks) :
    s.speak text overrides world =
        (.ok ⟨clean, pieces.flatMap fun piece =>
            piece.audio ++ Audio.silence s.model.rate s.text.chunkSilence, s.model.rate,
          pieces.map (·.report)⟩, last) ∧
      s.calls text overrides world = pieces.flatMap (·.calls settings.startToken) := by
  have hsome : (Text.prepare s.recorded.text text).2 ≠ [] := by
    simpa [Synthesizer.recorded, hprepare] using hchunks
  apply s.speak_of_recorded
  rw [s.recorded.speak_of_chunks hsettings hsome (world, [])]
  have hspoken := h.record hrunning (Audio.silence s.model.rate s.text.chunkSilence) []
  -- the text and the rate are those of the synthesizer without a log
  simp only [Synthesizer.recorded, Model.recorded, hprepare, ← hmap] at hspoken ⊢
  simp only [hspoken, List.nil_append]

/-- What `speak` answers when a chunk fails. -/
theorem Fails.speak {pieces : List (Piece κ)} {chunk : String} {rest : List String}
    {fault : SpeechFault} {calls : List (Call κ)} {middle last : σ}
    (h : Fails s settings chunk fault calls middle last)
    (hspoken : SpokenAll s settings pieces world middle)
    (hsplit : chunks = pieces.map (·.chunk) ++ chunk :: rest) :
    s.speak text overrides world = (.error fault, last) ∧
      s.calls text overrides world = pieces.flatMap (·.calls settings.startToken) ++ calls := by
  have hsome : (Text.prepare s.recorded.text text).2 ≠ [] := by
    simpa [Synthesizer.recorded, hprepare] using hchunks
  apply s.speak_of_recorded
  rw [s.recorded.speak_of_chunks hsettings hsome (world, [])]
  have hfails := hspoken.record_fails hrunning h
    (Audio.silence s.model.rate s.text.chunkSilence) rest []
  simp only [Synthesizer.recorded, Model.recorded, hprepare, hsplit] at hfails ⊢
  simp only [hfails, List.nil_append]

end Requests

/-- What `speak` does when nothing cancels it, its overrides are accepted, and some chunks are left
to speak.  If it succeeds then each chunk was prefilled, decoded by a fresh decoder and vocoded, and
no other call was made; its answer has the audio of each chunk with a gap after it, and a report of
each chunk.  If one of these calls fails then no other call follows, and the answer is the fault of
that call; and it is the only way for the request to fail. -/
theorem speak_transcript (s : Synthesizer κ σ) (hrunning : ∀ world, s.cancelled world = false)
    {overrides : Overrides} {settings : Settings}
    (hsettings : s.sampling.override overrides = .ok settings) {text clean : String}
    {chunks : List String} (hprepare : Text.prepare s.text text = (clean, chunks))
    (hchunks : chunks ≠ []) (world : σ) :
    (∀ synthesis last, s.speak text overrides world = (.ok synthesis, last) →
      ∃ pieces, SpokenAll s settings pieces world last ∧ pieces.map (·.chunk) = chunks ∧
        (∀ piece ∈ pieces,
          piece.output.finish = .stopToken ∨ piece.output.finish = .maxSteps) ∧
        s.calls text overrides world = pieces.flatMap (·.calls settings.startToken) ∧
        synthesis.text = clean ∧ synthesis.rate = s.model.rate ∧
        synthesis.chunks = pieces.map (·.report) ∧
        synthesis.samples = pieces.flatMap fun piece =>
          piece.audio ++ List.replicate (s.model.rate.toNat * s.text.chunkSilence.toNat / 1000) 0) ∧
    (∀ pieces chunk rest middle fault calls last,
      chunks = pieces.map (·.chunk) ++ chunk :: rest →
      SpokenAll s settings pieces world middle → Fails s settings chunk fault calls middle last →
        s.speak text overrides world = (.error fault, last) ∧
        s.calls text overrides world =
          pieces.flatMap (·.calls settings.startToken) ++ calls) ∧
    (∀ fault last, s.speak text overrides world = (.error fault, last) →
      ∃ pieces chunk rest middle calls,
        chunks = pieces.map (·.chunk) ++ chunk :: rest ∧
        SpokenAll s settings pieces world middle ∧
        Fails s settings chunk fault calls middle last) := by
  refine ⟨fun synthesis last hspeak => ?_, fun pieces chunk rest middle fault calls last hsplit
    hspoken hfails => hfails.speak hrunning hsettings hprepare hchunks hspoken hsplit,
    fun fault last hspeak => ?_⟩
  -- the chunks decide between the two outcomes, and either one determines the answer
  · rcases chunks_cases s settings chunks world with ⟨pieces, last', hmap, hspoken⟩ |
      ⟨pieces, chunk, rest, middle, fault, calls, last', hsplit, hspoken, hfails⟩
    · obtain ⟨hanswer, hcalls⟩ := hspoken.speak hrunning hsettings hprepare hchunks hmap
      rw [hanswer] at hspeak
      cases hspeak
      exact ⟨pieces, hspoken, hmap, hspoken.finish, hcalls, rfl, rfl, rfl, rfl⟩
    · obtain ⟨hanswer, -⟩ := hfails.speak hrunning hsettings hprepare hchunks hspoken hsplit
      rw [hanswer] at hspeak
      cases hspeak
  · rcases chunks_cases s settings chunks world with ⟨pieces, last', hmap, hspoken⟩ |
      ⟨pieces, chunk, rest, middle, fault', calls, last', hsplit, hspoken, hfails⟩
    · obtain ⟨hanswer, -⟩ := hspoken.speak hrunning hsettings hprepare hchunks hmap
      rw [hanswer] at hspeak
      cases hspeak
    · obtain ⟨hanswer, -⟩ := hfails.speak hrunning hsettings hprepare hchunks hspoken hsplit
      rw [hanswer] at hspeak
      cases hspeak
      exact ⟨pieces, chunk, rest, middle, calls, hsplit, hspoken, hfails⟩

/-- A `Synthesizer` that can read nothing but `"One."`. -/
def reader : Synthesizer ℕ Unit where
  exp := Decode.coarseExp
  model :=
    { Decode.replay [[0], [0, Binary.infinity]] with
      rate := 10
      prefill := fun text _ world =>
        (if text = "One." then .ok 0 else .error (.synthesis "not a one"), world)
      vocode := fun tokens world => (.ok (tokens.map fun _ => 1), world) }
  sampling := { Decode.greedy.settings with seed := some 7 }
  valid := by decide
  text := {}
  cancelled _ := false
  entropy world := (.ofSeed 0, world)

/-- The second of three chunks cannot be read by the `reader`: the first one has been spoken by
then, and the third one is left alone. -/
theorem speak_transcript_reader :
    ∃ piece : Piece ℕ, piece.report = ⟨"One.", 1, .stopToken⟩ ∧
      reader.speak "One. Two! One." {} () = (.error (.synthesis "not a one"), ()) ∧
      reader.calls "One. Two! One." {} () =
        piece.calls 0 ++ [.prefill "Two!" 0 (.error (.synthesis "not a one"))] := by
  have hprepare : Text.prepare reader.text "One. Two! One." =
      ("One. Two! One.", ["One.", "Two!", "One."]) := by decide +kernel
  have hsettings : reader.sampling.override {} = .ok reader.sampling := by decide
  -- the first chunk is spoken with one token
  have hone : decodeTokens reader.exp reader.sampling (.ofSeed 0) reader.model.toOracle 0 () =
      (.ok ⟨[0], .stopToken⟩, ()) := by decide +kernel
  have hspoken : Spoken reader reader.sampling ⟨"One.", 0, oracleCalls reader.exp reader.sampling
      (reader.entropy ()).1 reader.model.toOracle 0 (reader.entropy ()).2, ⟨[0], .stopToken⟩, [1]⟩
      () () :=
    .intro (by rfl) hone (by dsimp only) rfl
  -- the second one is refused
  have hfails : Fails reader reader.sampling "Two!" (.synthesis "not a one")
      [.prefill "Two!" 0 (.error (.synthesis "not a one"))] () () :=
    .prefill (by rfl)
  obtain ⟨-, hfailed, -⟩ := speak_transcript reader (fun _ => rfl) hsettings hprepare (by decide) ()
  obtain ⟨hanswer, hcalls⟩ := hfailed _ "Two!" ["One."] () _ _ () rfl
    (.cons hspoken (.nil ())) hfails
  rw [List.flatMap_cons, List.flatMap_nil, List.append_nil] at hcalls
  exact ⟨_, rfl, hanswer, hcalls⟩

end Utterance.Speech
