import Utterance.Speech.Service

/-!
# Encoded speech

A front end gets a WAV file, or the fault of the speech, or `taskLost` if the speech has a rate for
which no file can be written.

## Key results

- `speakEncoded_cases`: the ways in which encoded speech can go
-/

namespace Utterance.Speech

open Sampling (Overrides)

variable {σ : Type} {service : Service σ} {text : String} {overrides : Overrides} {world last : σ}

/-- If the service fails, `speakEncoded` fails with the same fault. -/
theorem speakEncoded_of_speechFault {fault : SpeechFault}
    (hspeak : service text overrides world = (.error fault, last)) :
    speakEncoded service text overrides world = (.error fault, last) := by
  rw [speakEncoded, hspeak]
  rfl

/-- If `Audio.Wav.encode` has no file for the speech, the task of the request is lost. -/
theorem speakEncoded_of_fileFault {synthesis : Synthesis} {fault : SpeechFault}
    (hspeak : service text overrides world = (.ok synthesis, last))
    (hencode : Audio.Wav.encode ⟨synthesis.samples, synthesis.rate⟩ = .error fault) :
    speakEncoded service text overrides world = (.error taskLost, last) := by
  simp only [speakEncoded, hspeak, bind, Except.bind, Audio.Wav.encodeBase64, hencode, Except.map]

/-- If the service speaks and `Audio.Wav.encode` has a file, that is what `speakEncoded` sends. -/
theorem speakEncoded_of_file {synthesis : Synthesis} {file : List UInt8}
    (hspeak : service text overrides world = (.ok synthesis, last))
    (hencode : Audio.Wav.encode ⟨synthesis.samples, synthesis.rate⟩ = .ok file) :
    speakEncoded service text overrides world =
      (.ok ⟨synthesis.text, Audio.base64 file, synthesis.rate⟩, last) := by
  simp only [speakEncoded, hspeak, bind, Except.bind, Audio.Wav.encodeBase64, hencode, Except.map]

/-- The speech fails, or its audio cannot be made into a file, or it is sent. -/
theorem speakEncoded_cases (service : Service σ) (text : String) (overrides : Overrides)
    (world : σ) :
    (∃ fault last, service text overrides world = (.error fault, last)) ∨
      ∃ synthesis last, service text overrides world = (.ok synthesis, last) ∧
        ((∃ fault, Audio.Wav.encode ⟨synthesis.samples, synthesis.rate⟩ = .error fault) ∨
          ∃ file, Audio.Wav.encode ⟨synthesis.samples, synthesis.rate⟩ = .ok file) := by
  cases hspeak : service text overrides world with
  | mk spoken last =>
    cases spoken with
    | error fault => exact .inl ⟨fault, last, rfl⟩
    | ok synthesis =>
      refine .inr ⟨synthesis, last, rfl, ?_⟩
      -- an answer still has to be written as a file
      cases hencode : Audio.Wav.encode ⟨synthesis.samples, synthesis.rate⟩ with
      | error fault => exact .inl ⟨fault, rfl⟩
      | ok file => exact .inr ⟨file, rfl⟩

end Utterance.Speech
