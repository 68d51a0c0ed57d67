import InlineMarkdown.Entity
import InlineMarkdown.Toml.Value

/-! Blanks, line ends and strings of a settings document.

Readers take a text and yield what they read with the rest of the text, or nothing
if the text does not start with what they read. -/
namespace InlineMarkdown.Toml

/-! ### Blanks and lines -/

def isBlankChar (c : Char) : Bool := c == ' ' || c == '\t'

/-- A character that may stand in a comment, and quoted unless the quotes forbid
it: no control character but the tabulator. -/
def isPlainChar (c : Char) : Bool := c == '\t' || (' ' ≤ c && c != '\x7f')

def skipBlanks (text : List Char) : List Char := text.dropWhile isBlankChar

def newline? : List Char → Option (List Char)
  | '\n' :: rest => some rest
  | '\r' :: '\n' :: rest => some rest
  | _ => none

/-- What follows the comment that the text starts with, if there is one. -/
def skipComment : List Char → List Char
  | '#' :: rest => rest.dropWhile isPlainChar
  | text => text

/-- What follows the end of the line: blanks and a comment may stand before it. -/
def lineEnd? (text : List Char) : Option (List Char) :=
  match skipComment (skipBlanks text) with
  | [] => some []
  | text => newline? text

/-- What follows blanks, comments and line ends, at most `limit` of the last. -/
def skipLines : (limit : Nat) → List Char → List Char
  | 0, text => text
  | limit + 1, text =>
    let text := skipBlanks text
    match newline? (skipComment text) with
    | some rest => skipLines limit rest
    | none => text

/-! ### Escapes -/

/-- The character whose code point is written with `count` hexadecimal digits. -/
def hexChar? (count : Nat) (text : List Char) : Option (Char × List Char) := do
  let digits := text.take count
  if digits.length < count then none
  else
    let n ← readDigits? 16 0 digits
    if n.isValidChar then some (Char.ofNat n, text.drop count) else none

/-- The character that stands behind a backslash. -/
def escape? : List Char → Option (Char × List Char)
  | 'b' :: rest => some ('\x08', rest)
  | 't' :: rest => some ('\t', rest)
  | 'n' :: rest => some ('\n', rest)
  | 'f' :: rest => some ('\x0c', rest)
  | 'r' :: rest => some ('\r', rest)
  | '"' :: rest => some ('"', rest)
  | '\\' :: rest => some ('\\', rest)
  | 'u' :: rest => hexChar? 4 rest
  | 'U' :: rest => hexChar? 8 rest
  | _ => none

/-! ### Strings -/

/-- What stands between single quotes, behind the opening one. -/
def literalBody? (text : List Char) : Option (List Char × List Char) :=
  let body := text.takeWhile fun c => isPlainChar c && c != '\''
  (after? ['\''] (text.drop body.length)).map (body, ·)

/-- What stands between double quotes, behind the opening one. -/
def basicBody? : (limit : Nat) → List Char → Option (List Char × List Char)
  | 0, _ => none
  | _ + 1, [] => none
  | limit + 1, c :: rest =>
    if c = '"' then some ([], rest)
    else if c = '\\' then do
      let (escaped, rest) ← escape? rest
      let (body, rest) ← basicBody? limit rest
      some (escaped :: body, rest)
    else if isPlainChar c then do
      let (body, rest) ← basicBody? limit rest
      some (c :: body, rest)
    else none

/-- What follows blanks and line ends, at most `limit` of the latter. -/
def skipBlankLines : (limit : Nat) → List Char → List Char
  | 0, text => text
  | limit + 1, text =>
    match newline? (skipBlanks text) with
    | some rest => skipBlankLines limit rest
    | none => skipBlanks text

/-- What follows a line end behind a backslash, with all blanks and line ends there. -/
def continuation? (text : List Char) : Option (List Char) :=
  (newline? (skipBlanks text)).map fun rest => skipBlankLines rest.length rest

/-- What stands between triple quotes, behind the opening ones. Up to two quotes may
stand before the closing ones. Backslashes are read if `escapes` is set. -/
def multilineBody? (quote : Char) (escapes : Bool) :
    (limit : Nat) → List Char → Option (List Char × List Char)
  | 0, _ => none
  | _ + 1, [] => none
  | limit + 1, c :: rest =>
    let go (chars : List Char) (rest : List Char) : Option (List Char × List Char) := do
      let (body, rest) ← multilineBody? quote escapes limit rest
      some (chars ++ body, rest)
    if c = quote then
      let quotes := (rest.takeWhile (· == quote)).length + 1
      if quotes < 3 then go (List.replicate quotes quote) (rest.drop (quotes - 1))
      else
        let inner := min 2 (quotes - 3)
        some (List.replicate inner quote, rest.drop (inner + 2))
    else if escapes && c = '\\' then
      match continuation? rest with
      | some rest => go [] rest
      | none => do
        let (escaped, rest) ← escape? rest
        go [escaped] rest
    else
      match newline? (c :: rest) with
      | some rest => go ['\n'] rest
      | none => if isPlainChar c then go [c] rest else none

/-- A string on one line, in either quotes. -/
def lineString? : List Char → Option (List Char × List Char)
  | '"' :: rest => basicBody? (rest.length + 1) rest
  | '\'' :: rest => literalBody? rest
  | _ => none

/-- A string in triple quotes; a line end right behind the opening ones is not part of
it. -/
def multilineString? (quote : Char) (text : List Char) : Option (List Char × List Char) := do
  let rest ← after? [quote, quote, quote] text
  let rest := (newline? rest).getD rest
  multilineBody? quote (quote == '"') (rest.length + 1) rest

/-- A string. Three quotes always open a string in triple quotes. -/
def string? (text : List Char) : Option (List Char × List Char) :=
  if (after? ['"', '"', '"'] text).isSome then multilineString? '"' text
  else if (after? ['\'', '\'', '\''] text).isSome then multilineString? '\'' text
  else lineString? text

end InlineMarkdown.Toml
