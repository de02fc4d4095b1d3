import Utterance.Engine.Basic

/-!
# The language model

A context is a cache with what it takes to use it: how many positions it covers, the position of the
next row, and the scores that came with it.  Each layer has two tensors in the cache.  A run takes
them under one set of names and leaves the next ones under another; nothing else connects one run to
the next.
-/

namespace Utterance.Engine

/-- What has been fed to the language model. -/
structure Context where
  /-- The cache, under the names by which the next run takes it. -/
  past : Named
  /-- How many rows the cache covers. -/
  attended : Nat
  /-- The position of the next row. -/
  nextPosition : Nat
  scores : Scores

/-- The cache of so many layers from `layer` on, with a key and a value for each. -/
def gatherCache (tensor : String → Except SpeechFault AnyTensor) :
    (layers layer : Nat) → Except SpeechFault Named
  | 0, _ => .ok []
  | layers + 1, layer => do
    -- key and value are looked up before the layers behind them
    let key := toString layer ++ ".key"
    let value := toString layer ++ ".value"
    let keyTensor ← tensor key
    let valueTensor ← tensor value
    let rest ← gatherCache tensor layers (layer + 1)
    .ok (("past_key_values." ++ key, keyTensor) :: ("past_key_values." ++ value, valueTensor) ::
      rest)

variable {ς σ : Type}

/-- The cache before the first run. -/
def emptyCache (r : Backend ς σ) (e : Engine ς) : Except SpeechFault Named :=
  gatherCache (fun slot =>
    r.build ("past_key_values." ++ slot) (.single ⟨[1, e.heads, 0, e.headSize], []⟩)) e.layers 0

/-- The cache in the outputs of a run. -/
def presentCache (e : Engine ς) (outputs : Named) : Except SpeechFault Named :=
  gatherCache (fun slot => outputNamed .languageModel ["present." ++ slot] outputs) e.layers 0

/-- The rows that stand for some ids. -/
def embed (r : Backend ς σ) (e : Engine ς) (ids : List Int) : Action σ (Tensor Float32) := do
  let ids ← r.build "input_ids" (.row ids)
  let outputs ← r.call .embedTokens e.embedTokens [("input_ids", ids)]
  extract "inputs_embeds" (← firstOutput .embedTokens outputs)

/-- Feeds rows to the language model at `count` positions from `first` on. -/
def feed (r : Backend ς σ) (e : Engine ς) (rows : Tensor Float32) (past : Named) (attended : Nat)
    (first count : Nat) : Action σ Context := do
  -- the inputs are built one after the other, so that the first that cannot be is the fault
  let mask ← r.build "attention_mask" (.row (List.replicate attended 1))
  let positionIds ← r.build "position_ids" (.row ((List.range' first count).map Int.ofNat))
  let rows ← r.build "tensor" (.single rows)
  let outputs ← r.call .languageModel e.languageModel
    ([("inputs_embeds", rows), ("attention_mask", mask), ("position_ids", positionIds)] ++ past)
  -- graphs without that name have their scores first
  let scored ← match outputs.lookup "logits" with
    | some tensor => pure tensor
    | none => firstOutput .languageModel outputs
  let scores ← lastScores (← extract "logits" scored)
  let past ← presentCache e outputs
  return { past, attended, nextPosition := first + count, scores }

/-- The ids for a text, the start token at their end. -/
def textIds (e : Engine ς) (text : String) (start : Token) : Except SpeechFault (List Int) :=
  match e.tokenizer text with
  | none => .error (.synthesis "tokenization failed")
  | some tokens =>
    if tokens.isEmpty then .error (.synthesis "tokenizer produced zero tokens")
    else
      -- the start token is not appended twice
      let tokens := if tokens.getLast? = some start then tokens else tokens ++ [start]
      .ok (tokens.map fun t => (t.toNat : Int))

/-- The context for a text. -/
def prefill (r : Backend ς σ) (e : Engine ς) (text : String) (start : Token) :
    Action σ Context := do
  let ids ← textIds e text start
  let rows ← embed r e ids
  let rows ← joinSequences e.voice.conditioning rows
  -- all rows are new, so the mask covers just these
  let length := rows.shape.getD 1 0
  let past ← emptyCache r e
  feed r e rows past length 0 length

/-- The context after one more token. -/
def advance (r : Backend ς σ) (e : Engine ς) (context : Context) (token : Token) :
    Action σ Context := do
  -- one row, at the next position, behind all that is in the cache
  let rows ← embed r e [(token.toNat : Int)]
  feed r e rows context.past (context.attended + 1) context.nextPosition 1

end Utterance.Engine
