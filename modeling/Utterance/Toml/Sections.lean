import Utterance.Decimal
import Utterance.Binary
import Utterance.Toml.Quoted
import Utterance.Toml.Value

/-!
# Documents of sections

Writes a document of tables that hold nothing but scalars: a header, a line for every entry, and a
blank line between one table and the next.  The keys must be such that they need no quotes.
-/

namespace Utterance.Toml

/-- Numbers in documents: whole real numbers carry a zero after the point. -/
def realLayout : Decimal.Layout := ⟨"nan", "inf", ".0"⟩

/-- The text of a scalar. -/
def Scalar.write : Scalar → List Char
  | .text s => quote s.toList
  | .whole n => (toString n).toList
  | .real x => (realLayout.double x).toList
  | .flag true => "true".toList
  | .flag false => "false".toList

/-- The line of an entry. -/
def writeEntry (entry : String × Scalar) : List Char :=
  entry.1.toList ++ " = ".toList ++ entry.2.write ++ ['\n']

/-- The lines of a section. -/
def writeSection (sect : String × List (String × Scalar)) : List Char :=
  '[' :: (sect.1.toList ++ [']', '\n'] ++ sect.2.flatMap writeEntry)

/-- Whether a scalar can be written.  Whole numbers are limited to 64 bits with a sign. -/
def Scalar.fits : Scalar → Bool
  | .whole n => Int64.minValue.toInt ≤ n && n ≤ Int64.maxValue.toInt
  | _ => true

/-- The text of a document, if all its scalars can be written. -/
def write (sections : List (String × List (String × Scalar))) : Option String :=
  if sections.all fun (_, entries) => entries.all fun (_, scalar) => scalar.fits then
    some (String.ofList (['\n'].intercalate (sections.map writeSection)))
  else none

end Utterance.Toml
