import Utterance.Speech.Service
import Utterance.Text.Utf8
import Utterance.Wire.SpeakReply
import Utterance.Wire.SpeakRequest

/-!
# The HTTP front end

`GET /health` tells that the server is alive, and `POST /speak` speaks a text.  A request that the
caller got wrong is answered with 400 and never reaches the model; other faults are answered
with 500.
-/

namespace Utterance.Http

open Speech (Service EncodedSpeech)
open Wire (SpeakReply SpeakRequest)

/-- A request. -/
structure Request where
  method : String
  path : String
  contentType : Option String
  body : List UInt8

/-- A reply.  An empty body is no JSON. -/
structure Reply where
  status : Nat
  body : String
deriving DecidableEq, Repr

/-- The largest body that is read. -/
def bodyLimit : Nat :=
  2097152

/-- Whether a content type is JSON: `application/json` or `application/…+json` in any case, with
or without parameters. -/
def isJson (contentType : String) : Bool :=
  -- parameters follow a semicolon
  let kind := contentType.toList.takeWhile (· ≠ ';')
  let kind := (Text.trim kind).map Char.toLower
  let front := "application/".toList
  let subtype := kind.drop front.length
  front.isPrefixOf kind && (subtype == "json".toList || "+json".toList.isSuffixOf subtype) &&
    !subtype.contains '/'

/-- The request in a body.  Bytes that are not UTF-8 make it malformed, unless something before
them has the wrong shape. -/
def readBody (body : List UInt8) : Except Json.Fault SpeakRequest :=
  match Text.decodeUtf8 body with
  | .ok text => Wire.requestOfJson text
  | .error fault =>
    -- what stands before the bad bytes may have the wrong shape already
    match Text.decodeUtf8 (body.take fault.index) with
    | .ok text =>
      match Wire.requestOfJson text with
      | .error .mismatch => .error .mismatch
      | _ => .error .malformed
    | .error _ => .error .malformed

/-- The wording of a body that cannot be read, as far as it goes by the kind of fault.  The full
wording goes on with a colon and what the parser has to say, with the line and the column. -/
def bodyFault : Json.Fault → String
  | .malformed => "Failed to parse the request body as JSON"
  | .mismatch => "Failed to deserialize the JSON body into the target type"

/-- The speech request in an HTTP request. -/
def readRequest (r : Request) : Except SpeechFault SpeakRequest :=
  -- the content type is looked at first, then the size, then the body
  if !(r.contentType.map isJson).getD false then
    .error (.invalidRequest
      "Expected request with \x60Content-Type: application/json\x60")
  else if bodyLimit < r.body.length then
    .error (.invalidRequest "Failed to buffer the request body: length limit exceeded")
  else
    match readBody r.body with
    | .ok request => .ok request
    | .error fault => .error (.invalidRequest (bodyFault fault))

/-- The status of a fault. -/
def faultStatus (fault : SpeechFault) : Nat :=
  if fault.isClientFault then 400 else 500

/-- The reply that tells the outcome of a speech request. -/
def speakReply : Except SpeechFault EncodedSpeech → Reply
  | .ok speech => ⟨200, (SpeakReply.ok speech.text speech.audio speech.rate).toJson⟩
  | .error fault => ⟨faultStatus fault, (SpeakReply.error fault.message fault.code).toJson⟩

/-- Answers `POST /speak`. -/
def speak {σ : Type} (service : Service σ) (r : Request) (world : σ) : Reply × σ :=
  match readRequest r with
  | .error fault => (speakReply (.error fault), world)
  | .ok request =>
    let (speech, world) := Speech.speakEncoded service request.text request.overrides world
    (speakReply speech, world)

/-- The reply to a health check. -/
def health : Reply :=
  ⟨200, "\x7b\"status\":\"ok\"\x7d"⟩

/-- Answers a request. -/
def respond {σ : Type} (service : Service σ) (r : Request) (world : σ) : Reply × σ :=
  -- what follows a question mark is no part of the route
  match String.ofList (r.path.toList.takeWhile (· ≠ '?')) with
  | "/speak" => if r.method = "POST" then speak service r world else (⟨405, ""⟩, world)
  | "/health" =>
    if r.method = "GET" then (health, world)
    else if r.method = "HEAD" then (⟨200, ""⟩, world)
    else (⟨405, ""⟩, world)
  | _ => (⟨404, ""⟩, world)

end Utterance.Http
