import Utterance.Text.Hexadecimal
import Utterance.Toml.Blank

/-!
# Quoted text

A text is quoted in one of four ways: basic with `"`, where a backslash starts an escape, or literal
with `'`, where it does not; and each on one line or, with the quotes tripled, on several.
`quote` picks the plainest way that can hold a text.
-/

namespace Utterance.Toml

/-- The character that a letter after a backslash stands for. -/
def escape? : Char → Option Char
  | '"' => some '"'
  | '\\' => some '\\'
  | 'b' => some '\x08'
  | 'f' => some '\x0c'
  | 'n' => some '\n'
  | 'r' => some '\r'
  | 't' => some '\t'
  | _ => none

/-- The character with a number in hexadecimal, if there is one. -/
def charOfHex? (digits : List Char) : Option Char := do
  let n ← Text.hexValue? digits
  -- surrogates and what is beyond the last character are refused
  if n.isValidChar then some (Char.ofNat n) else none

/-- The reading with a character in front. -/
def withChar (c : Char) (reading : Option (Rest (List Char))) : Option (Rest (List Char)) :=
  reading.map fun (text, rest) => (c :: text, rest)

/-- Reads a basic text on one line up to the closing quote. -/
def readBasic : List Char → Option (Rest (List Char))
  | [] => none
  | '"' :: rest => some ([], rest)
  | '\\' :: 'u' :: a :: b :: c :: d :: rest => do
    withChar (← charOfHex? [a, b, c, d]) (readBasic rest)
  | '\\' :: 'U' :: a :: b :: c :: d :: e :: f :: g :: h :: rest => do
    withChar (← charOfHex? [a, b, c, d, e, f, g, h]) (readBasic rest)
  | '\\' :: c :: rest => do
    withChar (← escape? c) (readBasic rest)
  | c :: rest =>
    -- a control character has to be escaped
    if isPrintable c && c != '\\' then withChar c (readBasic rest) else none

/-- Reads a literal text on one line up to the closing quote. -/
def readLiteral : List Char → Option (Rest (List Char))
  | [] => none
  | '\'' :: rest => some ([], rest)
  | c :: rest => if isPrintable c then withChar c (readLiteral rest) else none

/-- Reads a basic text on several lines up to the closing quotes, of which one or two more belong
to the text.  A backslash at the end of a line joins it with the next text there is. -/
def readLongBasic : (joining : Bool) → List Char → Option (Rest (List Char))
  | _, [] => none
  | true, ' ' :: rest => readLongBasic true rest
  | true, '\t' :: rest => readLongBasic true rest
  | true, '\n' :: rest => readLongBasic true rest
  | true, '\r' :: '\n' :: rest => readLongBasic true rest
  | _, '"' :: '"' :: '"' :: '"' :: '"' :: rest => some (['"', '"'], rest)
  | _, '"' :: '"' :: '"' :: '"' :: rest => some (['"'], rest)
  | _, '"' :: '"' :: '"' :: rest => some ([], rest)
  | _, '\\' :: 'u' :: a :: b :: c :: d :: rest => do
    withChar (← charOfHex? [a, b, c, d]) (readLongBasic false rest)
  | _, '\\' :: 'U' :: a :: b :: c :: d :: e :: f :: g :: h :: rest => do
    withChar (← charOfHex? [a, b, c, d, e, f, g, h]) (readLongBasic false rest)
  | _, '\\' :: c :: rest =>
    match escape? c with
    | some c => withChar c (readLongBasic false rest)
    | none =>
      -- no letter, so the line has to end here
      if (readNewline (skipSpaces (c :: rest))).isSome then readLongBasic true rest else none
  -- a carriage return with a line feed is read as a line feed alone
  | _, '\r' :: '\n' :: rest => withChar '\n' (readLongBasic false rest)
  | _, c :: rest =>
    if (isPrintable c && c != '\\') || c == '\n' then withChar c (readLongBasic false rest)
    else none

/-- Reads a literal text on several lines up to the closing quotes, of which one or two more
belong to the text. -/
def readLongLiteral : List Char → Option (Rest (List Char))
  | [] => none
  | '\'' :: '\'' :: '\'' :: '\'' :: '\'' :: rest => some (['\'', '\''], rest)
  | '\'' :: '\'' :: '\'' :: '\'' :: rest => some (['\''], rest)
  | '\'' :: '\'' :: '\'' :: rest => some ([], rest)
  | '\r' :: '\n' :: rest => withChar '\n' (readLongLiteral rest)
  | c :: rest =>
    if isPrintable c || c == '\n' then withChar c (readLongLiteral rest) else none

/-- A text without the line end at its start. -/
def skipNewline (text : List Char) : List Char :=
  (readNewline text).getD text

/-- Reads a quoted text on one line. -/
def readShortQuoted : List Char → Option (Rest (List Char))
  | '"' :: rest => readBasic rest
  | '\'' :: rest => readLiteral rest
  | _ => none

/-- Reads a quoted text. -/
def readQuoted : List Char → Option (Rest (List Char))
  | '"' :: '"' :: '"' :: rest => readLongBasic false (skipNewline rest)
  | '\'' :: '\'' :: '\'' :: rest => readLongLiteral (skipNewline rest)
  | text => readShortQuoted text

/-- The length of the longest run of a character. -/
def longestRun (wanted : Char) (text : List Char) : Nat :=
  ((text.splitBy (· == ·)).map fun run =>
    -- a run is a list of equal characters, so its first one tells which
    if run.head? = some wanted then run.length else 0).foldl max 0

/-- Whether a character can only be written with an escape. -/
def isControl (c : Char) : Bool :=
  (c.toNat < 0x20 && c != '\t' && c != '\n') || c.toNat == 0x7f

/-- How a character other than a quote is written in a basic text. -/
def escaped (onOneLine : Bool) (c : Char) : List Char :=
  match c with
  | '\\' => ['\\', '\\']
  | '\x08' => ['\\', 'b']
  | '\t' => ['\\', 't']
  | '\n' => if onOneLine then ['\\', 'n'] else ['\n']
  | '\x0c' => ['\\', 'f']
  | '\r' => ['\\', 'r']
  | c =>
    if isControl c then
      -- the number of a control character has two digits
      ['\\', 'u', '0', '0', (Text.hexDigit (c.toNat / 16)).toUpper,
        (Text.hexDigit (c.toNat % 16)).toUpper]
    else [c]

/-- The inside of a basic text.  A quote is escaped when `before` quotes stand in front of it and
no more than `allowed` may follow each other. -/
def escapedText (onOneLine : Bool) (allowed : Nat) : (before : Nat) → List Char → List Char
  | _, [] => []
  | before, '"' :: rest =>
    if before < allowed then '"' :: escapedText onOneLine allowed (before + 1) rest
    else '\\' :: '"' :: escapedText onOneLine allowed 0 rest
  | _, c :: rest => escaped onOneLine c ++ escapedText onOneLine allowed 0 rest

/-- What stands between tripled quotes and the text inside, so that its first line end counts. -/
def lead (text : List Char) : List Char :=
  if text.contains '\n' then ['\n'] else []

/-- A text in quotes. -/
def quote (text : List Char) : List Char :=
  let controls := text.any isControl
  let newline := text.contains '\n'
  let backslash := text.contains '\\'
  let doubles := longestRun '"' text
  let singles := longestRun '\'' text
  let basic := '"' :: (escapedText true 0 0 text ++ ['"'])
  let longBasic :=
    ['"', '"', '"'] ++ lead text ++ escapedText false 2 0 text ++ ['"', '"', '"']
  -- the plainest way that needs no escape is taken
  if !controls && !backslash && doubles = 0 && !newline then basic
  else if !controls && singles = 0 && !newline then '\'' :: (text ++ ['\''])
  else if !controls && !backslash && doubles ≤ 2 then longBasic
  else if !controls && singles ≤ 2 then
    ['\'', '\'', '\''] ++ lead text ++ text ++ ['\'', '\'', '\'']
  -- with escapes in any case, several lines stay several lines
  else if newline then longBasic
  else basic

end Utterance.Toml
