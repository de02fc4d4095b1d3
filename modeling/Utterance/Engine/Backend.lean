import Utterance.Engine.Tensor

/-!
# Backends

The model is four graphs, which a backend loads and runs.  Every call may change the world and may
fail with a message.  Tensors are built before they are handed over to a graph, and unless a backend
accepts more, none can be built that has an empty dimension.
-/

namespace Utterance.Engine

/-- The graphs of the model. -/
inductive Graph where
  /-- From a voice sample to what conditions the speech. -/
  | speechEncoder
  /-- From ids to the rows that stand for them. -/
  | embedTokens
  /-- From rows to the scores of the next token. -/
  | languageModel
  /-- From tokens to audio. -/
  | conditionalDecoder
deriving DecidableEq, Repr

/-- The name of a graph in files and messages. -/
def Graph.name : Graph → String
  | .speechEncoder => "speech_encoder"
  | .embedTokens => "embed_tokens"
  | .languageModel => "language_model"
  | .conditionalDecoder => "conditional_decoder"

/-- Inputs or outputs of a run. -/
abbrev Named := List (String × AnyTensor)

/-- What a text is split into, if it can be. -/
abbrev Tokenizer := String → Option (List Token)

/-- What loads and runs graphs, with sessions `ς` in the world `σ`. -/
structure Backend (ς σ : Type) where
  /-- Loads the graph in a file, to be run by so many threads. -/
  load : String → Int32 → σ → Except String ς × σ
  /-- Runs a graph. -/
  run : ς → Named → σ → Except String Named × σ
  /-- Loads a tokenizer from a file. -/
  tokenizer : String → σ → Option Tokenizer × σ
  /-- Whether a tensor with these dimensions can be built. -/
  accepts : List Nat → Bool := fun shape => !shape.contains 0

/-- Something done in the world `σ` that may end with a fault. -/
abbrev Action (σ α : Type) := ExceptT SpeechFault (StateM σ) α

namespace Backend

variable {ς σ : Type}

/-- Loads a graph.  A number of threads beyond 32 bits with a sign wraps around. -/
def openGraph (r : Backend ς σ) (path : String) (threads : Nat) : Action σ ς := fun world =>
  -- threads are counted in 32 bits with a sign
  match r.load path (.ofNat threads) world with
  | (.error reason, world) =>
    (.error (.model ("failed to load " ++ path ++ ": " ++ reason)), world)
  | (.ok session, world) => (.ok session, world)

/-- Loads a tokenizer. -/
def openTokenizer (r : Backend ς σ) (path : String) : Action σ Tokenizer := fun world =>
  match r.tokenizer path world with
  | (none, world) => (.error (.model "failed to load tokenizer"), world)
  | (some tokenizer, world) => (.ok tokenizer, world)

/-- Builds a tensor for a graph. -/
def build (r : Backend ς σ) (what : String) (t : AnyTensor) : Except SpeechFault AnyTensor :=
  if r.accepts t.shape then .ok t else .error (.synthesis ("failed to build " ++ what))

/-- Runs a graph. -/
def call (r : Backend ς σ) (graph : Graph) (session : ς) (inputs : Named) : Action σ Named :=
  fun world =>
    match r.run session inputs world with
    | (.error reason, world) =>
      (.error (.synthesis (graph.name ++ " inference failed: " ++ reason)), world)
    | (.ok outputs, world) => (.ok outputs, world)

end Backend

/-- The first output of a run.  A run without outputs is a fault here, where an engine that takes
the output by its index breaks off; the graphs of the model all have outputs. -/
def firstOutput (graph : Graph) (outputs : Named) : Except SpeechFault AnyTensor :=
  match outputs with
  | [] => .error (.synthesis (graph.name ++ " has no outputs"))
  | (_, tensor) :: _ => .ok tensor

/-- The output of a run with the first of the names that there is. -/
def outputNamed (graph : Graph) (names : List String) (outputs : Named) :
    Except SpeechFault AnyTensor :=
  -- the first name that there is decides, and the first of all is named in the fault
  match names.findSome? (outputs.lookup ·) with
  | some tensor => .ok tensor
  | none => .error (.synthesis (graph.name ++ " missing output " ++ names.headD ""))

end Utterance.Engine
