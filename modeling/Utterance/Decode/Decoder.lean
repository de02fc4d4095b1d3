import Utterance.Decode.Oracle
import Utterance.Fault
import Utterance.Scores.Pipeline
import Utterance.Scores.Selection

/-!
# The decoder

A decode repeats one step: ask the oracle for scores, re-weigh them, select a token, and feed it
back.  It ends with the stop token, at the step limit, when it finds itself cancelled at the start
of a step, or with the first fault.  `Decoder.decode` is one such run; the sampler that it leaves
behind is the only thing that a later run of the same decoder can notice.
-/

namespace Utterance.Decode

open Sampling (Settings SettingsFault)
open Scores (Sampler Selection Stage)

/-- Why a decode ended. -/
inductive Finish where
  | stopToken
  | maxSteps
  | cancelled
deriving DecidableEq, Repr

/-- The name of a finish in reports. -/
def Finish.name : Finish → String
  | .stopToken => "stop_token"
  | .maxSteps => "max_steps"
  | .cancelled => "cancelled"

/-- The tokens of a decode, without the stop token, and why it ended. -/
structure Output where
  tokens : List Token
  finish : Finish
deriving DecidableEq, Repr

/-- What an observer is told after every selection. -/
structure StepEvent where
  step : Nat
  token : Token
  isStop : Bool
deriving DecidableEq, Repr

/-- A decode from start to end. -/
structure Run (σ : Type) where
  outcome : Except DecodeFault Output
  /-- The selections in order, the stop token included. -/
  events : List StepEvent
  sampler : Sampler
  world : σ

/-- The run that follows after one event. -/
def Run.after {σ : Type} (event : StepEvent) (run : Run σ) : Run σ :=
  { run with events := event :: run.events }

/-- What a decode depends on besides its state. -/
structure Surroundings (κ σ : Type) where
  exp : Float32 → Float32
  settings : Settings
  oracle : Oracle κ σ
  /-- Whether the decode has been cancelled, read at the start of every step. -/
  cancelled : σ → Bool
  /-- Told of every selection as soon as it is made. -/
  observe : StepEvent → σ → σ

/-- What is wrong with a score vector, if anything. -/
def scoresFault (scores : Scores) : Option String :=
  if scores.isEmpty then some "oracle returned empty logits"
  else if scores.any (·.isNaN) then some "oracle returned NaN logits"
  else none

/-- The steps of a decode that may still take `remaining` tokens after `tokens`. -/
def steps {κ σ : Type} (env : Surroundings κ σ) :
    (remaining : Nat) → (tokens : List Token) → κ → Sampler → σ → Run σ
  | 0, tokens, _, sampler, world => ⟨.ok ⟨tokens, .maxSteps⟩, [], sampler, world⟩
  | remaining + 1, tokens, context, sampler, world =>
    -- a fault is reported at the step whose token is missing
    let failed reason sampler world : Run σ :=
      ⟨.error (.oracle tokens.length reason), [], sampler, world⟩
    -- the signal is looked at before the oracle is called
    if env.cancelled world then
      ⟨.ok ⟨tokens, .cancelled⟩, [], sampler, world⟩
    else
      match env.oracle.predict context world with
      | (.error reason, world) => failed reason sampler world
      | (.ok scores, world) =>
        match scoresFault scores with
        | some reason => failed reason sampler world
        | none =>
          -- the start token counts as used, as the first of the history
          let reweighed := Scores.reweigh env.exp (Scores.stages env.settings)
            (env.settings.startToken :: tokens) scores
          match sampler.select env.exp reweighed with
          | (none, sampler) =>
            failed "logits admit no distribution after filtering" sampler world
          | (some token, sampler) =>
            let event : StepEvent := ⟨tokens.length, token, token == env.settings.stopToken⟩
            -- the observer is told of the stop token as well
            let world := env.observe event world
            if token = env.settings.stopToken then
              ⟨.ok ⟨tokens, .stopToken⟩, [event], sampler, world⟩
            -- the last token is not fed back: nothing is predicted after it
            else if remaining = 0 then
              ⟨.ok ⟨tokens ++ [token], .maxSteps⟩, [event], sampler, world⟩
            else
              match env.oracle.advance context token world with
              | (.error reason, world) => (failed reason sampler world).after event
              | (.ok context, world) =>
                (steps env remaining (tokens ++ [token]) context sampler world).after event

/-- A decoder that may be used again and again.  Its settings are in range. -/
structure Decoder where
  settings : Settings
  valid : settings.Valid
  sampler : Sampler

namespace Decoder

/-- A decoder with the given way to select, or what is wrong with the settings.  Without a seed,
random words come from `unseeded`. -/
def new (settings : Settings) (selection : Selection) (unseeded : Random.Generator) :
    Except SettingsFault Decoder :=
  match valid : settings.check with
  | .error fault => .error fault
  | .ok () => .ok ⟨settings, valid, .new selection settings.seed unseeded⟩

/-- Decodes from `context` until a stopping rule applies. -/
def decode {κ σ : Type} (d : Decoder) (exp : Float32 → Float32) (oracle : Oracle κ σ)
    (cancelled : σ → Bool) (observe : StepEvent → σ → σ) (context : κ) (world : σ) : Run σ :=
  steps ⟨exp, d.settings, oracle, cancelled, observe⟩ d.settings.maxSteps [] context d.sampler
    world

/-- The decoder for the next decode after `run`. -/
def after {σ : Type} (d : Decoder) (run : Run σ) : Decoder :=
  { d with sampler := run.sampler }

end Decoder

/-- One decode by random selection with fresh settings, neither observed nor cancelled. -/
def decodeTokens {κ σ : Type} (exp : Float32 → Float32) (settings : Settings)
    (unseeded : Random.Generator) (oracle : Oracle κ σ) (context : κ) (world : σ) :
    Except DecodeFault Output × σ :=
  match Decoder.new settings .multinomial unseeded with
  | .error fault => (.error (.ofSettings fault), world)
  | .ok decoder =>
    -- nobody observes the decode, and no signal ever fires
    let run := decoder.decode exp oracle (fun _ => false) (fun _ world => world) context world
    (run.outcome, run.world)

end Utterance.Decode
