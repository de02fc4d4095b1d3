import Utterance.Json.Value
import Utterance.Sampling.Overrides

/-!
# Overrides as JSON

An object with any of the six knobs, or an array of their values in order.  `null` leaves a knob
unset, a knob may not be named twice, and what is not a knob is passed over.
-/

namespace Utterance.Wire

open Json (Fault Rest Value Number)
open Sampling (Overrides)

/-- The names of the knobs, in the order of the array form. -/
def knobNames : List String :=
  ["temperature", "top_k", "top_p", "repetition_penalty", "max_steps", "seed"]

/-- A knob that is `null` or has the value that `read` finds in a number. -/
def knob {α : Type} (read : Number → Option α) : Value → Except Fault (Option α)
  | .null => .ok none
  | .number n =>
    match read n with
    | some x => .ok (some x)
    | none => .error .mismatch
  | _ => .error .mismatch

/-- A whole number from `low` to below `high`. -/
def wholeIn (low high : Int) : Number → Option Int
  | .whole n => if low ≤ n ∧ n < high then some n else none
  | .real _ => none

/-- A whole number of 64 bits without sign. -/
def count : Number → Option Nat :=
  fun n => (wholeIn 0 UInt64.size n).map Int.toNat

/-- A whole number of 64 bits, of which one is for the sign. -/
def signed : Number → Option Int :=
  wholeIn Int64.minValue.toInt (Int64.maxValue.toInt + 1)

/-- The overrides with the knob of the given name set. -/
def setKnob (o : Overrides) (name : String) (value : Value) : Except Fault Overrides :=
  match name with
  | "temperature" => return { o with temperature := ← knob (some ·.single) value }
  | "top_k" => return { o with topK := ← knob signed value }
  | "top_p" => return { o with topP := ← knob (some ·.single) value }
  | "repetition_penalty" => return { o with repetitionPenalty := ← knob (some ·.single) value }
  | "max_steps" => return { o with maxSteps := ← knob count value }
  | "seed" => return { o with seed := ← knob (fun n => (count n).map (·.toUInt64)) value }
  | _ => return o

/-- Overrides with the names of the knobs met so far. -/
structure Gathered where
  overrides : Overrides := {}
  names : List String := []

/-- Reads one member of the object form. -/
def readKnob (g : Gathered) (key : String) (text : List Char) :
    Except Fault (Rest Gathered) := do
  if knobNames.contains key then
    -- a knob given twice is a mismatch, even if the values agree
    if g.names.contains key then .error .mismatch
    else
      let (value, rest) ← Json.valued (Json.readScalar text)
      .ok ({ overrides := ← setKnob g.overrides key value, names := key :: g.names }, rest)
  else
    .ok (g, ← Json.skipValue text)

/-- Reads one item of the array form. -/
def readNextKnob (g : Gathered) (text : List Char) : Except Fault (Rest Gathered) := do
  -- the knobs of an array go by their place
  match knobNames[g.names.length]? with
  | none => .error .malformed
  | some key =>
    let (value, rest) ← Json.valued (Json.readScalar text)
    .ok ({ overrides := ← setKnob g.overrides key value, names := key :: g.names }, rest)

/-- Reads overrides at the start of a text. -/
def readOverrides : List Char → Except Fault (Rest Overrides)
  | '{' :: rest => Json.readMembers (Json.withKey readKnob) (fun g => .ok g.overrides) {} rest
  | '[' :: rest => do
    let (g, rest) ← Json.readItems readNextKnob {} rest
    .ok (g.overrides, rest)
  | text => .error (Json.scalarFault text)

/-- The overrides that a text holds. -/
def overridesOfJson (text : String) : Except Fault Overrides :=
  Json.readWith readOverrides text

/-- The names of the knobs that are set, in alphabetical order. -/
def overrideKeys (o : Overrides) : List String :=
  (if o.maxSteps.isSome then ["max_steps"] else []) ++
  (if o.repetitionPenalty.isSome then ["repetition_penalty"] else []) ++
  (if o.seed.isSome then ["seed"] else []) ++
  (if o.temperature.isSome then ["temperature"] else []) ++
  (if o.topK.isSome then ["top_k"] else []) ++
  (if o.topP.isSome then ["top_p"] else [])

end Utterance.Wire
