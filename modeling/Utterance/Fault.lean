import Utterance.Sampling.Settings

/-!
# Faults

What can go wrong in a decode and in a speech request, with a stable code and the wording for
each.  A fault is the client's when the request caused it.
-/

namespace Utterance

/-- What ends a decode without a result. -/
inductive DecodeFault where
  /-- The settings were refused before the first step. -/
  | invalidSettings (reason : String)
  /-- The oracle, or the selection from its scores, failed at a step. -/
  | oracle (step : Nat) (reason : String)
deriving DecidableEq, Repr

namespace DecodeFault

/-- The stable code of a decode fault. -/
def code : DecodeFault → String
  | .invalidSettings _ => "CONFIG_INVALID"
  | .oracle _ _ => "ORACLE_FAILED"

/-- The wording of a decode fault. -/
def message (fault : DecodeFault) : String :=
  "[" ++ fault.code ++ "] " ++
    match fault with
    | .invalidSettings reason => reason
    | .oracle step reason => "step " ++ toString step ++ ": " ++ reason

/-- Whether the request caused the fault. -/
def isClientFault : DecodeFault → Bool
  | .invalidSettings _ => true
  | .oracle _ _ => false

/-- The fault of refused settings. -/
def ofSettings (fault : Sampling.SettingsFault) : DecodeFault :=
  .invalidSettings fault.message

end DecodeFault

/-- What ends a speech request without audio. -/
inductive SpeechFault where
  | decode (fault : DecodeFault)
  /-- The request body could not be read. -/
  | invalidRequest (reason : String)
  /-- Nothing is left to speak. -/
  | emptyText
  | cancelled
  /-- The model failed while it ran. -/
  | synthesis (reason : String)
  /-- The model could not be found or loaded. -/
  | model (reason : String)
  | audio (reason : String)
  | configuration (reason : String)
  | channel (reason : String)
  | server (reason : String)
  | io (reason : String)
deriving DecidableEq, Repr

namespace SpeechFault

/-- The stable code of a speech fault. -/
def code : SpeechFault → String
  | .decode fault => fault.code
  | .invalidRequest _ => "REQUEST_INVALID"
  | .emptyText => "EMPTY_TEXT"
  | .cancelled => "CANCELLED"
  | .synthesis _ => "TTS_FAILED"
  | .model _ => "MODEL_FAILED"
  | .audio _ => "AUDIO_FAILED"
  | .configuration _ => "CONFIG_INVALID"
  | .channel _ => "CHANNEL_FAILED"
  | .server _ => "SERVER_FAILED"
  | .io _ => "IO_FAILED"

/-- The wording of a speech fault. -/
def message : SpeechFault → String
  | .decode fault => fault.message
  | .invalidRequest reason => "invalid request: " ++ reason
  | .emptyText => "no text to synthesize"
  | .cancelled => "synthesis cancelled"
  | .synthesis reason => "TTS error: " ++ reason
  | .model reason => "model error: " ++ reason
  | .audio reason => "audio error: " ++ reason
  | .configuration reason => "config error: " ++ reason
  | .channel reason => "channel error: " ++ reason
  | .server reason => "server error: " ++ reason
  | .io reason => "I/O error: " ++ reason

/-- Whether the request caused the fault, and not the model or its surroundings. -/
def isClientFault : SpeechFault → Bool
  | .decode fault => fault.isClientFault
  | .invalidRequest _ => true
  | .emptyText => true
  | _ => false

/-- The fault of refused settings. -/
def ofSettings (fault : Sampling.SettingsFault) : SpeechFault :=
  .decode (.ofSettings fault)

end SpeechFault

end Utterance
