/-!
# TOML values
-/

namespace Utterance.Toml

/-- A value without parts. -/
inductive Scalar where
  | text (s : String)
  | whole (n : Int)
  | real (x : Float)
  | flag (b : Bool)

/-- A value. -/
inductive Value where
  | scalar (s : Scalar)
  /-- A date, a time or both. -/
  | moment
  | array (items : List Value)
  | table (entries : List (String × Value))

end Utterance.Toml
