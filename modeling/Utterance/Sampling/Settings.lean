import Utterance.Decimal
import Utterance.Token

/-!
# Sampling settings

The knobs of one decode, their defaults, and `Settings.check`, which names the first knob that is
out of range.
-/

namespace Utterance.Sampling

/-- The largest accepted step limit. -/
def stepLimit : Nat := 4096

/-- The knobs of one decode.  A temperature, nucleus mass or penalty of 1 and a `topK` of 0 each
switch their stage off. -/
structure Settings where
  /-- Divides every score. -/
  temperature : Float32 := 0.1
  /-- How many of the highest scores are kept. -/
  topK : Nat := 50
  /-- The probability mass to keep. -/
  topP : Float32 := 0.95
  /-- Weighs down tokens that have been used. -/
  repetitionPenalty : Float32 := 1.2
  /-- How many tokens a decode may produce. -/
  maxSteps : Nat := 1500
  /-- The token in front of the first one produced. -/
  startToken : Token := 6561
  /-- The token that ends a decode and is never part of its result. -/
  stopToken : Token := 6562
  /-- Makes random selection repeatable. -/
  seed : Option UInt64 := none
deriving DecidableEq

/-- Why settings are refused. -/
inductive SettingsFault where
  | temperature (got : Float32)
  | topP (got : Float32)
  | repetitionPenalty (got : Float32)
  | maxSteps (got : Nat)
  | negativeTopK (got : Int)
deriving DecidableEq

/-- The wording of a refusal. -/
def SettingsFault.message : SettingsFault → String
  | .temperature got => "temperature must be > 0, got " ++ Decimal.Layout.message.single got
  | .topP got => "top_p must be in (0, 1], got " ++ Decimal.Layout.message.single got
  | .repetitionPenalty got =>
    "repetition_penalty must be >= 1.0, got " ++ Decimal.Layout.message.single got
  | .maxSteps got =>
    "max_steps must be in 1..=" ++ toString stepLimit ++ ", got " ++ toString got
  | .negativeTopK got => "top_k must be non-negative, got " ++ toString got

/-- Refuses settings with a knob out of range, naming the first such knob. -/
def Settings.check (s : Settings) : Except SettingsFault Unit :=
  -- each check has its own fault, and the first that fails is reported
  if !s.temperature.isFinite || s.temperature ≤ 0 then
    .error (.temperature s.temperature)
  else if !s.topP.isFinite || s.topP ≤ 0 || 1 < s.topP then
    .error (.topP s.topP)
  else if !s.repetitionPenalty.isFinite || s.repetitionPenalty < 1 then
    .error (.repetitionPenalty s.repetitionPenalty)
  else if s.maxSteps = 0 ∨ stepLimit < s.maxSteps then
    .error (.maxSteps s.maxSteps)
  else
    .ok ()

/-- Settings with every knob in range. -/
def Settings.Valid (s : Settings) : Prop :=
  s.check = .ok ()

/-- Whether settings are `Valid` is decided by `Settings.check`. -/
instance (s : Settings) : Decidable s.Valid :=
  match h : s.check with
  | .ok () => isTrue h
  | .error _ => isFalse (by simp [Settings.Valid, h])

end Utterance.Sampling
