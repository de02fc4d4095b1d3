import Utterance.Json.Value

/-!
# Speech replies as JSON

A reply is written as one object, with its status first and then its fields in order.  It is read
from an object in any order, or from an array that starts with the status.
-/

namespace Utterance.Wire

open Json (Fault Rest Value)

/-- The reply to a speech request. -/
inductive SpeakReply where
  /-- The text as spoken, and the WAV file in Base64. -/
  | ok (text audio : String) (rate : UInt32)
  | error (message code : String)
deriving DecidableEq, Repr

namespace SpeakReply

/-- A member with a text. -/
def textMember (key value : String) : List Char :=
  Json.quote key ++ ':' :: Json.quote value

/-- The members of a reply. -/
def members : SpeakReply → List (List Char)
  | .ok text audio rate =>
    [textMember "status" "ok", textMember "text" text, textMember "audio_b64" audio,
      Json.quote "sample_rate" ++ ':' :: Nat.toDigits 10 rate.toNat]
  | .error message code =>
    [textMember "status" "error", textMember "message" message, textMember "code" code]

/-- The reply as JSON, without blanks. -/
def toJson (r : SpeakReply) : String :=
  String.ofList ('{' :: ([','].intercalate r.members ++ ['}']))

/-- The text in a value. -/
def text? : Value → Option String
  | .text s => some s
  | _ => none

/-- The sample rate in a value. -/
def rate? : Value → Option UInt32
  | .number (.whole n) => if 0 ≤ n ∧ n < UInt32.size then some n.toNat.toUInt32 else none
  | _ => none

/-- The value of the member that has the given key, if exactly one has. -/
def only? (key : String) (members : List (String × Value)) : Option Value :=
  -- a member that is given twice is no better than one that is missing
  match members.filter (·.1 = key) with
  | [(_, value)] => some value
  | _ => none

/-- The reply in the members of an object. -/
def ofMembers (members : List (String × Value)) : Option SpeakReply := do
  match ← text? (← only? "status" members) with
  | "ok" =>
    return .ok (← text? (← only? "text" members)) (← text? (← only? "audio_b64" members))
      (← rate? (← only? "sample_rate" members))
  | "error" =>
    return .error (← text? (← only? "message" members)) (← text? (← only? "code" members))
  | _ => none

/-- The reply in the items of an array. -/
def ofItems : List Value → Option SpeakReply
  | [.text "ok", text, audio, rate] =>
    return .ok (← text? text) (← text? audio) (← rate? rate)
  | [.text "error", message, code] => return .error (← text? message) (← text? code)
  | _ => none

/-- The reply in a value. -/
def ofValue : Value → Option SpeakReply
  | .object members => ofMembers members
  | .array items => ofItems items
  | _ => none

/-- The reply that a text holds. -/
def ofJson (text : String) : Except Fault SpeakReply := do
  match ofValue (← Json.readWith (fun text => Json.valued (Json.readRaw Json.nestingLimit text))
    text) with
  | none => .error .mismatch
  | some reply => .ok reply

end SpeakReply

end Utterance.Wire
