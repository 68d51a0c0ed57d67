import InlineMarkdown.Token.Kind
import InlineMarkdown.Text.Alphanumeric
import InlineMarkdown.Lexeme.Autolink
import InlineMarkdown.Lexeme.CharacterReference
import InlineMarkdown.Lexeme.CodeSpan
import InlineMarkdown.Lexeme.Formula
import InlineMarkdown.Lexeme.Html

/-! Lexemes: the pieces that a source text falls into.

`lexemes` cuts the whole text: every piece has at least one character, and the
slices, put together again, are the text. What a piece is depends on the text from
its start on and on one character before it: a bare address may not start right
behind a letter or digit.

Here and in every scanner a length is a number of characters. Bytes are counted where
a piece gets its place, by `Position.advance`. -/
namespace InlineMarkdown

/-- ASCII punctuation, the characters that a backslash makes literal. -/
def isPunctuation (c : Char) : Bool :=
  ('!' ≤ c && c ≤ '/') || (':' ≤ c && c ≤ '@') || ('[' ≤ c && c ≤ '\x60') || ('\x7b' ≤ c && c ≤ '~')

/-- A slice of the source and the kind of token it makes. -/
structure Lexeme where
  kind : Kind
  raw : List Char
deriving DecidableEq, Repr

/-- What a lexeme says: its slice, or for an escape the escaped character alone. -/
def Lexeme.text (lexeme : Lexeme) : List Char :=
  match lexeme.raw with
  | ['\\', c] => if isPunctuation c then [c] else lexeme.raw
  | raw => raw

/-! ### Runs of ordinary text -/

/-- The characters that are tokens of their own. -/
def Kind.ofChar? : Char → Option Kind
  | '*' => some .asterisk
  | '_' => some .underscore
  | '~' => some .tilde
  | '!' => some .exclamation
  | '[' => some .leftBracket
  | ']' => some .rightBracket
  | '(' => some .leftParen
  | ')' => some .rightParen
  | '^' => some .caret
  | _ => none

/-- The characters that end a run of ordinary text. -/
def isSpecial (c : Char) : Bool :=
  (Kind.ofChar? c).isSome || c == '\n' || c == '\\' || c == '@' || c == backtick || c == '$' ||
    c == '<' || c == '&'

/-- The text starts with a carriage return and a line feed. -/
def startsCrlf (text : List Char) : Bool := (after? ['\r', '\n'] text).isSome

/-- A bare address may start behind this character. -/
def isBoundary (before : Option Char) : Bool := !before.any isAlphanumeric

/-- The bare address that starts here, behind the character `before`. -/
def urlBehind? (before : Option Char) (text : List Char) : Option Nat :=
  if isBoundary before then url? text else none

/-- How many further characters a run of ordinary text takes behind `before`. -/
def textRest (before : Char) : List Char → Nat
  | [] => 0
  | c :: rest =>
    if isSpecial c || startsCrlf (c :: rest) || (urlBehind? before (c :: rest)).isSome then 0
    else textRest c rest + 1

/-! ### One lexeme -/

/-- The kind and length of what starts with the angle bracket that the text starts
with: an address, a block, an unclosed comment or a tag. -/
def angle? (text : List Char) : Option (Kind × Nat) :=
  (autolink? text).map (.autolink, ·) <|>
    (htmlBlock? text).map (.htmlBlock, ·) <|>
    (htmlUnclosed? text).map (.htmlUnclosedBlock, ·) <|>
    (htmlTag? text).map (.htmlTag, ·)

/-- The kind and length of the lexeme that starts with `c`, behind the character
`before`. The length is never zero. -/
def scan (before : Option Char) (c : Char) (rest : List Char) : Kind × Nat :=
  match Kind.ofChar? c with
  | some kind => (kind, 1)
  | none =>
    let text := c :: rest
    if c = '\n' then (.newline, 1)
    else if startsCrlf text then (.newline, 2)
    else if c = '\\' then (.text, if rest.head?.any isPunctuation then 2 else 1)
    else if c = '@' then (.text, 1)
    else if c = backtick then
      match codeSpan? text with
      | some length => (.inlineCode, length)
      | none => (.text, runLength backtick text)
    else if c = '$' then
      match formula? text with
      | some length => (.formula, length)
      | none => (.text, 1)
    else if c = '<' then
      match angle? text with
      | some found => found
      | none => (.text, 1)
    else if c = '&' then
      match characterReference? text with
      | some length => (.htmlEntity, length)
      | none => (.text, 1)
    else
      match urlBehind? before text with
      | some length => (.url, length)
      | none => (.text, textRest c rest + 1)

/-! ### All lexemes -/

/-- The lexemes of a text behind the character `before`, at most `limit` of them. -/
def lexemesFrom : (limit : Nat) → (before : Option Char) → List Char → List Lexeme
  | 0, _, _ => []
  | _ + 1, _, [] => []
  | limit + 1, before, c :: rest =>
    let (kind, length) := scan before c rest
    let raw := (c :: rest).take length
    ⟨kind, raw⟩ :: lexemesFrom limit raw.getLast? ((c :: rest).drop length)

/-- The lexemes of a source text. A text has at most as many as it has characters. -/
def lexemes (input : List Char) : List Lexeme := lexemesFrom input.length none input

end InlineMarkdown
