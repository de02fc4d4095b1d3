import Utterance.Proofs.Decode.Simulation
import Utterance.Proofs.Sampling.Settings
import Utterance.Speech.Synthesizer

/-!
# Synthesis in related worlds

A request notices its world only through the answers of the model, the cancellation and, without a
seed, the source of random words.  So two synthesizers that agree on these in related worlds give
the same answer to a request, and leave related worlds behind.

## Key results

- `Synthesizer.Alike.speak`: a request to two synthesizers that are alike gets one answer
-/

namespace Utterance.Speech

open Decode (Alike Decoder decodeTokens)
open Sampling (Settings Overrides)

variable {κ σ τ : Type} {R : σ → τ → Prop}

/-- In related worlds two models give the same answers, and leave related worlds. -/
structure Model.Alike (R : σ → τ → Prop) (model : Model κ σ) (model' : Model κ τ) : Prop where
  rate : model.rate = model'.rate
  oracle : model.toOracle.Alike R model'.toOracle
  prefill {world : σ} {world' : τ} (h : R world world') (text : String) (start : Token) :
    Decode.Alike R (model.prefill text start world) (model'.prefill text start world')
  vocode {world : σ} {world' : τ} (h : R world world') (tokens : List Token) :
    Decode.Alike R (model.vocode tokens world) (model'.vocode tokens world')

namespace Synthesizer

/-- What `speakChunk` does when the prefill succeeds. -/
theorem speakChunk_of_prefill {s : Synthesizer κ σ} {settings : Settings} {chunk : String}
    {context : κ} {world prefilled : σ}
    (hprefill : s.model.prefill chunk settings.startToken world = (.ok context, prefilled)) :
    s.speakChunk settings chunk world =
      match Decoder.new settings .multinomial (s.entropy prefilled).1 with
      | .error fault => (.error (.ofSettings fault), (s.entropy prefilled).2)
      | .ok d =>
        let run := d.decode s.exp s.model.toOracle s.cancelled (fun _ world => world) context
          (s.entropy prefilled).2
        match run.outcome with
        | .error fault => (.error (.decode fault), run.world)
        | .ok output =>
          if output.finish = .cancelled then (.error .cancelled, run.world)
          else
            match s.model.vocode output.tokens run.world with
            | (.error fault, world) => (.error fault, world)
            | (.ok audio, world) =>
              (.ok (⟨chunk, output.tokens.length, output.finish⟩, audio), world) := by
  unfold speakChunk
  exact hprefill ▸ rfl

/-- What `speak` does when the overrides are accepted and something is left to speak. -/
theorem speak_of_chunks (s : Synthesizer κ σ) {settings : Settings} {text : String}
    {overrides : Overrides} (hoverride : s.sampling.override overrides = .ok settings)
    (hchunks : (Text.prepare s.text text).2 ≠ []) (world : σ) :
    s.speak text overrides world =
      match s.speakChunks settings (Audio.silence s.model.rate s.text.chunkSilence)
        (Text.prepare s.text text).2 world with
      | (.error fault, world) => (.error fault, world)
      | (.ok (reports, samples), world) =>
        (.ok ⟨(Text.prepare s.text text).1, samples, s.model.rate, reports⟩, world) := by
  have hsome : ¬(Text.prepare s.text text).2.isEmpty = true := mt List.isEmpty_iff.mp hchunks
  unfold speak
  rw [hoverride]
  exact if_neg hsome

/-- Two synthesizers with the same settings whose models answer alike in related worlds. -/
structure Alike (R : σ → τ → Prop) (s : Synthesizer κ σ) (s' : Synthesizer κ τ) : Prop where
  exp : s.exp = s'.exp
  sampling : s.sampling = s'.sampling
  text : s.text = s'.text
  model : s.model.Alike R s'.model
  cancelled {world : σ} {world' : τ} (h : R world world') : s.cancelled world = s'.cancelled world'
  entropy {world : σ} {world' : τ} (h : R world world') :
    R (s.entropy world).2 (s'.entropy world').2

namespace Alike

variable {s : Synthesizer κ σ} {s' : Synthesizer κ τ} (h : s.Alike R s') {settings : Settings}
  (hunseeded : settings.seed = none → ∀ {world world'}, R world world' →
    (s.entropy world).1 = (s'.entropy world').1)

include h hunseeded

/-- `speakChunk` has the same outcome in related worlds, and leaves related ones. -/
theorem speakChunk (chunk : String) {world : σ} {world' : τ} (hworld : R world world') :
    Decode.Alike R (s.speakChunk settings chunk world) (s'.speakChunk settings chunk world') := by
  cases hprefill : s.model.prefill chunk settings.startToken world with
  | mk answer prefilled =>
    obtain ⟨prefilled', hprefill', hprefilled⟩ :=
      (h.model.prefill hworld chunk settings.startToken).exists_eq hprefill
    cases answer with
    | error fault =>
      simp only [Synthesizer.speakChunk, hprefill, hprefill']
      exact ⟨rfl, hprefilled⟩
    | ok context =>
      -- the decoders that are built select alike
      have hnew : Decoder.new settings .multinomial (s.entropy prefilled).1 =
          Decoder.new settings .multinomial (s'.entropy prefilled').1 :=
        Decoder.new_congr fun hseed => hunseeded hseed hprefilled
      have hdrawn := h.entropy hprefilled
      rw [speakChunk_of_prefill hprefill, speakChunk_of_prefill hprefill', ← hnew]
      cases Decoder.new settings .multinomial (s.entropy prefilled).1 with
      | error fault => exact ⟨rfl, hdrawn⟩
      | ok d =>
        have hrun : (d.decode s.exp s.model.toOracle s.cancelled (fun _ world => world) context
              (s.entropy prefilled).2).Alike R
            (d.decode s.exp s'.model.toOracle s'.cancelled (fun _ world => world) context
              (s'.entropy prefilled').2) :=
          d.decode_alike h.model.oracle h.cancelled (fun h _ => h) s.exp context hdrawn
        simp only [← h.exp, ← hrun.outcome]
        split
        · exact ⟨rfl, hrun.world⟩
        · next output _ =>
          split
          · exact ⟨rfl, hrun.world⟩
          · cases hvocode : s.model.vocode output.tokens _ with
            | mk answer vocoded =>
              obtain ⟨vocoded', hvocode', hvocoded⟩ :=
                (h.model.vocode hrun.world output.tokens).exists_eq hvocode
              simp only [hvocode']
              cases answer <;> exact ⟨rfl, hvocoded⟩

/-- `speakChunks` has, too. -/
theorem speakChunks (gap : List Float32) (chunks : List String) {world : σ} {world' : τ}
    (hworld : R world world') :
    Decode.Alike R (s.speakChunks settings gap chunks world)
      (s'.speakChunks settings gap chunks world') := by
  -- the chunks are the same on both sides, so the induction is on them for any related worlds
  induction chunks generalizing world world' with
  | nil => exact ⟨rfl, hworld⟩
  | cons chunk rest ih =>
    cases hchunk : s.speakChunk settings chunk world with
    | mk answer next =>
      obtain ⟨next', hchunk', hnext⟩ := (h.speakChunk hunseeded chunk hworld).exists_eq hchunk
      cases answer with
      | error fault =>
        simp only [Synthesizer.speakChunks, hchunk, hchunk']
        exact ⟨rfl, hnext⟩
      | ok spoken =>
        cases hrest : s.speakChunks settings gap rest next with
        | mk answer last =>
          obtain ⟨last', hrest', hlast⟩ := (ih hnext).exists_eq hrest
          simp only [Synthesizer.speakChunks, hchunk, hchunk', hrest, hrest']
          cases answer <;> exact ⟨rfl, hlast⟩

end Alike

/-- A request to two synthesizers that are alike gets one answer.  Without a seed in effect both
must take random words from the same source. -/
theorem Alike.speak {s : Synthesizer κ σ} {s' : Synthesizer κ τ} (h : s.Alike R s') (text : String)
    (overrides : Overrides)
    (hunseeded : overrides.seed.or s.sampling.seed = none → ∀ {world world'}, R world world' →
      (s.entropy world).1 = (s'.entropy world').1)
    {world : σ} {world' : τ} (hworld : R world world') :
    Decode.Alike R (s.speak text overrides world) (s'.speak text overrides world') := by
  by_cases hchunks : (Text.prepare s.text text).2 = []
  · -- without chunks neither asks its model for anything
    simp only [Synthesizer.speak, ← h.sampling, ← h.text, hchunks]
    cases s.sampling.override overrides <;> exact ⟨rfl, hworld⟩
  · cases hoverride : s.sampling.override overrides with
    | error fault =>
      simp only [Synthesizer.speak, ← h.sampling, hoverride]
      exact ⟨rfl, hworld⟩
    | ok settings =>
      obtain ⟨hmerged, -⟩ := Settings.of_override hoverride
      -- a seed in force on one side is in force on the other
      have hseed : settings.seed = overrides.seed.or s.sampling.seed :=
        congrArg Settings.seed hmerged
      rw [s.speak_of_chunks hoverride hchunks,
        s'.speak_of_chunks (h.sampling ▸ hoverride) (h.text ▸ hchunks)]
      rw [← h.text, ← h.model.rate]
      cases hspoken : s.speakChunks settings (Audio.silence s.model.rate s.text.chunkSilence)
        (Text.prepare s.text text).2 world with
      | mk answer last =>
        obtain ⟨last', hspoken', hlast⟩ :=
          (h.speakChunks (fun hnone => hunseeded (hseed ▸ hnone)) _ _ hworld).exists_eq hspoken
        rw [hspoken']
        cases answer <;> exact ⟨rfl, hlast⟩

end Synthesizer

end Utterance.Speech
