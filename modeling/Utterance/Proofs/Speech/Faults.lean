import Utterance.Proofs.Decode.Run
import Utterance.Proofs.Speech.Simulation

/-!
# Whose fault it is

A request that asks for settings out of range, or leaves nothing to speak, is refused before the
model is called, and the fault is the client's.  No fault that comes up later is, as long as the
model does not put the blame on the client.

## Key results

- `Decode.Runs.oracle_of_error`: a decode fails with the oracle, or with the selection from its
  scores
- `speak_of_refused`, `isClientFault_of_speak`: which requests fail by a fault of the client
- `of_speak_ok`: what a request says of its text and its rate
-/

namespace Utterance.Decode

variable {κ σ : Type} {env : Surroundings κ σ}

/-- A decode fails with the oracle, or with the selection from its scores. -/
theorem Runs.oracle_of_error {remaining : ℕ} {tokens : List Token} {context : κ}
    {sampler : Scores.Sampler} {world : σ} {run : Run σ}
    (h : Runs env remaining tokens context sampler world run) {fault : DecodeFault}
    (hfault : run.outcome = .error fault) : ∃ step reason, fault = .oracle step reason := by
  -- on the course of the decode; only a fault of the oracle ends it with an error
  induction h with
  | exhausted | cancelled | stopToken | maxSteps => cases hfault
  | predictFault | scoresFault | noSelection | advanceFault =>
    cases hfault
    exact ⟨_, _, rfl⟩
  | step _ _ _ _ ih => exact ih hfault

end Utterance.Decode

namespace Utterance.Speech

open Decode (Decoder runs_steps)
open Sampling (Settings Overrides)

variable {κ σ : Type}

/-- The model does not put the blame for its faults on the client. -/
structure Model.OwnsFaults (model : Model κ σ) : Prop where
  prefill {text : String} {start : Token} {world last : σ} {fault : SpeechFault}
    (h : model.prefill text start world = (.error fault, last)) : fault.isClientFault = false
  vocode {tokens : List Token} {world last : σ} {fault : SpeechFault}
    (h : model.vocode tokens world = (.error fault, last)) : fault.isClientFault = false

namespace Synthesizer

/-- The request asks for settings out of range, or leaves nothing to speak. -/
def Refused (s : Synthesizer κ σ) (text : String) (overrides : Overrides) : Prop :=
  (∃ fault, s.sampling.override overrides = .error fault) ∨ (Text.prepare s.text text).2 = []

variable {s : Synthesizer κ σ} {text : String} {overrides : Overrides} {world last : σ}
  {fault : SpeechFault}

/-- A request that is `Refused` fails by a fault of the client, and leaves the world as it is. -/
theorem speak_of_refused (h : s.Refused text overrides) (world : σ) :
    ∃ fault, fault.isClientFault = true ∧ s.speak text overrides world = (.error fault, world) := by
  cases hoverride : s.sampling.override overrides with
  | error fault =>
    -- the settings are refused before anything is prepared
    refine ⟨.ofSettings fault, rfl, ?_⟩
    simp only [speak, hoverride]
  | ok settings =>
    obtain ⟨fault, hfault⟩ | hchunks := h
    · rw [hoverride] at hfault
      cases hfault
    · -- without a chunk the request ends as empty text
      refine ⟨.emptyText, rfl, ?_⟩
      simp only [speak, hoverride, hchunks]
      rfl

section Accepted

variable (hmodel : s.model.OwnsFaults) {settings : Settings} (hvalid : settings.Valid)

include hmodel hvalid

/-- `speakChunk` does not fail by a fault of the client. -/
theorem isClientFault_of_speakChunk {chunk : String}
    (h : s.speakChunk settings chunk world = (.error fault, last)) :
    fault.isClientFault = false := by
  cases hprefill : s.model.prefill chunk settings.startToken world with
  | mk answer prefilled =>
    cases answer with
    | error reason =>
      -- a fault of the prefill is passed on as it is
      simp only [speakChunk, hprefill] at h
      cases h
      exact hmodel.prefill hprefill
    | ok context =>
      rw [speakChunk_of_prefill hprefill, Decoder.new_of_valid hvalid] at h
      dsimp only at h
      split at h
      · -- the decode fails, and so the oracle does
        next reason hreason =>
        cases h
        obtain ⟨step, reason, rfl⟩ := (runs_steps _ _ _ _ _ _).oracle_of_error hreason
        rfl
      · split at h
        · -- without tokens the fault is one of the decode
          cases h
          rfl
        · split at h
          · next hvocode =>
            cases h
            exact hmodel.vocode hvocode
          · cases h

/-- `speakChunks` does not, since none of its chunks does. -/
theorem isClientFault_of_speakChunks {gap : List Float32} {chunks : List String}
    (h : s.speakChunks settings gap chunks world = (.error fault, last)) :
    fault.isClientFault = false := by
  -- induction on the chunks; the first fault ends the request
  induction chunks generalizing world last with
  | nil => cases h
  | cons chunk rest ih =>
    rw [speakChunks] at h
    split at h
    · next hchunk =>
      cases h
      exact isClientFault_of_speakChunk hmodel hvalid hchunk
    · split at h
      · next hrest =>
        cases h
        exact ih hrest
      · cases h

end Accepted

/-- A request that is accepted does not fail by a fault of the client: it has settings in range and
chunks, and the model owns its faults. -/
theorem isClientFault_of_speak (hmodel : s.model.OwnsFaults) (haccepted : ¬s.Refused text overrides)
    (h : s.speak text overrides world = (.error fault, last)) : fault.isClientFault = false := by
  obtain ⟨hoverride, hchunks⟩ := not_or.mp haccepted
  cases hsettings : s.sampling.override overrides with
  | error reason => exact absurd ⟨reason, hsettings⟩ hoverride
  | ok settings =>
    obtain ⟨-, hvalid⟩ := Settings.of_override hsettings
    rw [s.speak_of_chunks hsettings hchunks] at h
    split at h
    · next hspoken =>
      cases h
      exact isClientFault_of_speakChunks hmodel hvalid hspoken
    · cases h

/-- Speech is of the text that `prepare` leaves, at the rate of the model. -/
theorem of_speak_ok {synthesis : Synthesis}
    (h : s.speak text overrides world = (.ok synthesis, last)) :
    ¬s.Refused text overrides ∧ synthesis.text = (Text.prepare s.text text).1 ∧
      synthesis.rate = s.model.rate := by
  -- a refused request is not answered
  have haccepted : ¬s.Refused text overrides := by
    intro hrefused
    obtain ⟨fault, -, hfault⟩ := speak_of_refused hrefused world
    rw [hfault] at h
    cases h
  obtain ⟨hoverride, hchunks⟩ := not_or.mp haccepted
  cases hsettings : s.sampling.override overrides with
  | error reason => exact absurd ⟨reason, hsettings⟩ hoverride
  | ok settings =>
    rw [s.speak_of_chunks hsettings hchunks] at h
    split at h
    · cases h
    · cases h
      exact ⟨haccepted, rfl, rfl⟩

end Synthesizer

end Utterance.Speech
