import Mathlib.Data.List.ReduceOption
import Utterance.Proofs.Text.Blank
import Utterance.Proofs.Text.Utf8
import Utterance.Speech.Pipe

/-!
# The requests of a session

What a session asks for is in the text of its input: the lines between the line feeds, without
blanks around them.  A session reads each line together with the line feed that ends it, which makes
no difference.

## Key results

- `lineText_eq_some_iff`: the text of a line, in terms of its encoding
- `splitOn_lines`: the lines that are read, and the pieces between the line feeds
- `reads_lines`: a session reads the requests of its input, one after the other
-/

namespace Utterance.Speech.Pipe

open Text (trim encodeUtf8 decodeUtf8 isBlank)

/-! ## Lines -/

/-- The text of a line without blanks around it, if `decodeUtf8` takes the line. -/
def lineText (line : List UInt8) : Option String :=
  (decodeUtf8 line).toOption.map fun text => String.ofList (trim text.toList)

/-- `lineText` is the trimmed text that the bytes of a line encode. -/
theorem lineText_eq_some_iff {line : List UInt8} {trimmed : String} :
    lineText line = some trimmed ↔
      ∃ text, encodeUtf8 text = line ∧ String.ofList (trim text.toList) = trimmed := by
  constructor
  · intro h
    obtain ⟨text, htext, htrimmed⟩ := Option.map_eq_some_iff.mp h
    cases hline : decodeUtf8 line with
    -- the option hides why a line is not text
    | error fault => simp [hline, Except.toOption] at htext
    | ok decoded =>
      obtain rfl : decoded = text := by simpa [hline, Except.toOption] using htext
      exact ⟨decoded, Text.decodeUtf8_eq_ok_iff.mp hline, htrimmed⟩
  · rintro ⟨text, rfl, rfl⟩
    rw [lineText, Text.decodeUtf8_encodeUtf8]
    rfl

/-- The line feed that ends a line is a blank, so `lineText` trims it away. -/
theorem lineText_lineFeed (line : List UInt8) : lineText (line ++ [10]) = lineText line := by
  rw [lineText, lineText, Text.toOption_decodeUtf8_lineFeed, Option.map_map]
  congr 1
  funext text
  have hfeed : ∀ c ∈ ['\n'], isBlank c = true := by simp [isBlank]
  simp only [Function.comp_apply, String.toList_append]
  exact congrArg String.ofList (Text.trim_append_blank hfeed)

/-- `lines` gives the pieces between the line feeds, each with the line feed after it; the last one
has none, and is not read when it is empty. -/
theorem splitOn_lines (input : List UInt8) :
    ∃ pieces last, input.splitOn 10 = pieces ++ [last] ∧
      lines input = pieces.map (· ++ [10]) ++ if last = [] then [] else [last] := by
  induction input with
  | nil => exact ⟨[], [], rfl, rfl⟩
  | cons byte rest ih =>
    obtain ⟨pieces, last, hsplit, hlines⟩ := ih
    rw [List.splitOn_cons_eq_if_modifyHead, hsplit, lines, hlines]
    by_cases hfeed : byte = 10
    · rw [if_pos (by simpa using hfeed), if_pos hfeed]
      exact ⟨[] :: pieces, last, rfl, by simp [hfeed]⟩
    · rw [if_neg (by simpa using hfeed), if_neg hfeed]
      -- the byte goes to the first line, which may also be the last
      cases pieces with
      | nil =>
        refine ⟨[], byte :: last, rfl, ?_⟩
        by_cases hlast : last = [] <;> simp [hlast]
      | cons piece pieces => exact ⟨(byte :: piece) :: pieces, last, rfl, rfl⟩

/-! ## Requests -/

/-- The texts of the lines of an input, each as `lineText`. -/
def texts (input : List UInt8) : List (Option String) :=
  (input.splitOn 10).map lineText

/-- The line does not end a session: it is text, and not `EXIT`. -/
def goesOn (text : Option String) : Bool :=
  text.any (· ≠ "EXIT")

/-- What an input asks for: the lines of its `texts` that are not blank, up to the one that ends the
session. -/
def requests (input : List UInt8) : List String :=
  ((texts input).takeWhile goesOn).reduceOption.filter (· ≠ "")

/-- The line that ends the session is not UTF-8, so it has no `lineText`. -/
def broken (input : List UInt8) : Bool :=
  ((texts input).dropWhile goesOn).head? = some none

/-- The texts of some lines are read one after the other: what they ask for, and whether the last
one that is read is `broken`. -/
inductive Reads : List (Option String) → List String → Bool → Prop
  | nil : Reads [] [] false
  | broken {rest : List (Option String)} : Reads (none :: rest) [] true
  | exit {text : String} {rest : List (Option String)} (h : text = "EXIT") :
      Reads (some text :: rest) [] false
  | blank {text : String} {rest : List (Option String)} {asked : List String} {ends : Bool}
      (h : text = "") (hrest : Reads rest asked ends) : Reads (some text :: rest) asked ends
  | request {text : String} {rest : List (Option String)} {asked : List String} {ends : Bool}
      (hvisible : text ≠ "") (hexit : text ≠ "EXIT") (hrest : Reads rest asked ends) :
      Reads (some text :: rest) (text :: asked) ends

/-- `Reads` finds what comes before the first line on which the session does not go on, and whether
that line is broken. -/
theorem reads (lines : List (Option String)) :
    Reads lines ((lines.takeWhile goesOn).reduceOption.filter (· ≠ ""))
      ((lines.dropWhile goesOn).head? = some none) := by
  -- induction on the lines; each is broken, the end, blank or a request
  induction lines with
  | nil => exact .nil
  | cons line rest ih =>
    cases line with
    | none => exact .broken
    | some text =>
      by_cases hexit : text = "EXIT"
      · simpa [goesOn, hexit] using Reads.exit rfl
      · by_cases hblank : text = ""
        · simpa [goesOn, hblank] using Reads.blank rfl ih
        · simpa [goesOn, hexit, hblank] using Reads.request hblank hexit ih

/-- An empty line at the end does not matter to `Reads`. -/
theorem Reads.of_concat {lines : List (Option String)} {asked : List String} {ends : Bool}
    (h : Reads (lines ++ [some ""]) asked ends) : Reads lines asked ends := by
  -- induction on the lines; an appended blank line adds no request
  induction lines generalizing asked ends with
  | nil =>
    cases h with
    | exit h => exact absurd h (by decide)
    | request hvisible => exact absurd rfl hvisible
    | blank _ hrest =>
      cases hrest
      exact .nil
  | cons line rest ih =>
    cases h with
    | broken => exact .broken
    | exit h => exact .exit h
    | blank h hrest => exact .blank h (ih hrest)
    | request hvisible hexit hrest => exact .request hvisible hexit (ih hrest)

/-- A session `Reads` the requests of its input. -/
theorem reads_lines (input : List UInt8) :
    Reads ((lines input).map lineText) (requests input) (broken input) := by
  obtain ⟨pieces, last, hsplit, hlines⟩ := splitOn_lines input
  have h : Reads (texts input) (requests input) (broken input) := reads (texts input)
  have hpieces : (pieces.map (· ++ [10])).map lineText = pieces.map lineText := by
    rw [List.map_map]
    exact List.map_congr_left fun piece _ => lineText_lineFeed piece
  rw [hlines, List.map_append, hpieces]
  rw [texts, hsplit, List.map_append] at h
  -- the piece after the last line feed is a line of its own only if there is something in it
  by_cases hlast : last = []
  · rw [if_pos hlast, List.map_nil, List.append_nil]
    rw [hlast] at h
    exact h.of_concat
  · rwa [if_neg hlast]

end Utterance.Speech.Pipe
