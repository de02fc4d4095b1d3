import Utterance.Fault
import Utterance.Token

/-!
# Tensors

The tensors of the model hold sequences: shape `[1, length, width]`, one row after the other.
`joinSequences` puts one sequence after another, and `lastScores` takes the last row of one.
-/

namespace Utterance.Engine

/-- Elements in row-major order with the dimensions that they fill. -/
structure Tensor (α : Type) where
  shape : List Nat
  data : List α
deriving DecidableEq, Repr

/-- A tensor of either kind of element. -/
inductive AnyTensor where
  | single (t : Tensor Float32)
  | whole (t : Tensor Int)

/-- The dimensions of a tensor. -/
def AnyTensor.shape : AnyTensor → List Nat
  | .single t => t.shape
  | .whole t => t.shape

/-- Takes over a tensor of binary32 values from a graph. -/
def extract (what : String) : AnyTensor → Except SpeechFault (Tensor Float32)
  | .single t => .ok t
  | .whole _ => .error (.synthesis ("failed to extract " ++ what))

/-- A tensor for a sequence of numbers. -/
def AnyTensor.row (numbers : List Int) : AnyTensor :=
  .whole ⟨[1, numbers.length], numbers⟩

/-- The text of a shape. -/
def shapeText (shape : List Nat) : String :=
  "[" ++ ", ".intercalate (shape.map toString) ++ "]"

/-- The rows of a sequence followed by those of another of the same width. -/
def joinSequences (a b : Tensor Float32) : Except SpeechFault (Tensor Float32) :=
  let refused : SpeechFault := .synthesis
    ("embedding shapes incompatible: " ++ shapeText a.shape ++ " and " ++ shapeText b.shape)
  -- both have to be a batch of one
  match a.shape, b.shape with
  | [1, m, width], [1, n, width'] =>
    if width = width' then .ok ⟨[1, m + n, width], a.data ++ b.data⟩ else .error refused
  | _, _ => .error refused

/-- The scores at the last position of a sequence, or those of the only one. -/
def lastScores (t : Tensor Float32) : Except SpeechFault Scores :=
  match t.shape with
  -- only the last of the rows is wanted
  | [1, n + 1, width] => .ok ((t.data.drop (n * width)).take width)
  | [1, _] => .ok t.data
  | shape => .error (.synthesis ("unexpected logits shape: " ++ shapeText shape))

/-- The samples of one channel. -/
def waveform (t : Tensor Float32) : Except SpeechFault (List Float32) :=
  match t.shape with
  | [1, _] => .ok t.data
  | [_] => .ok t.data
  | shape => .error (.synthesis ("unexpected waveform shape: " ++ shapeText shape))

end Utterance.Engine
