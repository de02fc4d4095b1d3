import Utterance.Sampling.Settings

/-!
# Per-request overrides

A request may set some knobs of the configured settings.  `Settings.override` applies them and
checks the result; the start and stop tokens are never overridden.
-/

namespace Utterance.Sampling

/-- The knobs that a request sets.  `topK` is signed, so that a negative request is refused with a
message of its own. -/
structure Overrides where
  temperature : Option Float32 := none
  topK : Option Int := none
  topP : Option Float32 := none
  repetitionPenalty : Option Float32 := none
  maxSteps : Option Nat := none
  seed : Option UInt64 := none
deriving DecidableEq

/-- Whether no knob is set. -/
def Overrides.isEmpty (o : Overrides) : Bool :=
  o.temperature.isNone && o.topK.isNone && o.topP.isNone && o.repetitionPenalty.isNone &&
    o.maxSteps.isNone && o.seed.isNone

/-- Takes each knob from `later` if it is set there, and from `earlier` otherwise. -/
def Overrides.over (later earlier : Overrides) : Overrides where
  temperature := later.temperature.or earlier.temperature
  topK := later.topK.or earlier.topK
  topP := later.topP.or earlier.topP
  repetitionPenalty := later.repetitionPenalty.or earlier.repetitionPenalty
  maxSteps := later.maxSteps.or earlier.maxSteps
  seed := later.seed.or earlier.seed

/-- The settings with the knobs of `o` in place, unchecked. -/
def Settings.merge (s : Settings) (o : Overrides) : Settings :=
  { s with
    temperature := o.temperature.getD s.temperature
    topK := (o.topK.map Int.toNat).getD s.topK
    topP := o.topP.getD s.topP
    repetitionPenalty := o.repetitionPenalty.getD s.repetitionPenalty
    maxSteps := o.maxSteps.getD s.maxSteps
    seed := o.seed.or s.seed }

/-- The settings with the knobs of `o` in place, if all are in range.  A negative `topK` is
reported before anything else. -/
def Settings.override (s : Settings) (o : Overrides) : Except SettingsFault Settings :=
  match o.topK with
  -- a negative count cannot be merged at all
  | some (.negSucc n) => .error (.negativeTopK (.negSucc n))
  | _ => do
    -- what is merged is checked as a whole
    let merged := s.merge o
    merged.check
    pure merged

end Utterance.Sampling
