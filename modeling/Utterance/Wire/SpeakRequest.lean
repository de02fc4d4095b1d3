import Utterance.Wire.Overrides

/-!
# Speech requests as JSON

An object with a `text` and any of the override knobs.  The text is checked as soon as it is met,
the knobs when the object is complete.
-/

namespace Utterance.Wire

open Json (Fault Rest Value)
open Sampling (Overrides)

/-- A request to speak a text. -/
structure SpeakRequest where
  text : String
  overrides : Overrides := {}
deriving DecidableEq

/-- A request of which some members have been read, the later ones first. -/
structure Draft where
  text : Option String := none
  others : List (String × Value) := []

/-- Reads one member. -/
def readRequestMember (d : Draft) (key : String) (text : List Char) :
    Except Fault (Rest Draft) := do
  if key = "text" then
    -- a text given twice is a mismatch
    if d.text.isSome then .error .mismatch
    else
      match ← Json.valued (Json.readScalar text) with
      | (.text s, rest) => .ok ({ d with text := some s }, rest)
      | _ => .error .mismatch
  else
    -- other members are kept until the end, whatever they are
    let (value, rest) ← Json.readInner text
    .ok ({ d with others := (key, value) :: d.others }, rest)

/-- The overrides with one more knob, unless it has been named before. -/
def gather (g : Gathered) (member : String × Value) : Except Fault Gathered := do
  let (key, value) := member
  if knobNames.contains key then
    if g.names.contains key then .error .mismatch
    else .ok { overrides := ← setKnob g.overrides key value, names := key :: g.names }
  else .ok g

/-- The request that all of its members make. -/
def Draft.finish (d : Draft) : Except Fault SpeakRequest := do
  match d.text with
  | none => .error .mismatch
  | some text =>
    -- the members were put in front of each other
    let g ← d.others.reverse.foldlM gather ({} : Gathered)
    .ok { text, overrides := g.overrides }

/-- Reads a request at the start of a text. -/
def readRequest : List Char → Except Fault (Rest SpeakRequest)
  | '{' :: rest => Json.readMembers (Json.withKey readRequestMember) Draft.finish {} rest
  | '[' :: _ => .error .mismatch
  | text => .error (Json.scalarFault text)

/-- The request that a text holds. -/
def requestOfJson (text : String) : Except Fault SpeakRequest :=
  Json.readWith readRequest text

/-- The names of the members that the request is written with, in alphabetical order. -/
def SpeakRequest.keys (r : SpeakRequest) : List String :=
  (overrideKeys r.overrides).takeWhile (· < "text") ++
    "text" :: (overrideKeys r.overrides).dropWhile (· < "text")

end Utterance.Wire
