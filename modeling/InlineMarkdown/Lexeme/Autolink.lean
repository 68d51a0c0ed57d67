import InlineMarkdown.Text.Basic
import InlineMarkdown.Text.Whitespace

/-! Addresses: between angle brackets, or bare in running text.

Between angle brackets stands either a scheme of two to 32 characters, a colon
and anything without white space or angle brackets, or a mail address. A bare
address starts with one of four openings and runs up to white space, an angle
bracket, a bracket or a parenthesis; punctuation at its end belongs to the
surrounding text. -/
namespace InlineMarkdown

/-! ### Between angle brackets -/

/-- A character of a scheme. -/
def isSchemeChar (c : Char) : Bool :=
  c.isAlphanum || c == '+' || c == '.' || c == '-'

/-- A character of a mail address before its at sign. -/
def isMailboxChar (c : Char) : Bool :=
  c.isAlphanum || c == '.' || c == '!' || c == '#' || c == '$' || c == '%' || c == '&' ||
    c == '\'' || c == '*' || c == '+' || c == '/' || c == '=' || c == '?' || c == '^' ||
    c == '_' || c == '\x60' || c == '\x7b' || c == '|' || c == '\x7d' || c == '~' || c == '-'

/-- A label of a host name: letters, digits and inner hyphens. -/
def isHostLabel (label : List Char) : Bool :=
  label.all (fun c => c.isAlphanum || c == '-') &&
    label.head?.any Char.isAlphanum && label.getLast?.any Char.isAlphanum

/-- Labels separated by dots. -/
def isHost (host : List Char) : Bool :=
  (splitWhere (· == '.') host).all isHostLabel

/-- The length of the bracketed address with a scheme that the text starts with. -/
def schemeAutolink? (text : List Char) : Option Nat := do
  let rest ← after? ['<'] text
  let scheme := rest.takeWhile isSchemeChar
  if !scheme.head?.any Char.isAlpha || scheme.length < 2 || 32 < scheme.length then none
  else
    let target ← after? [':'] (rest.drop scheme.length)
    let path := target.takeWhile fun c => !isSpace c && c != '<' && c != '>'
    let _ ← after? ['>'] (target.drop path.length)
    some (scheme.length + path.length + 3)

/-- The length of the bracketed mail address that the text starts with. -/
def mailAutolink? (text : List Char) : Option Nat := do
  let rest ← after? ['<'] text
  let mailbox := rest.takeWhile isMailboxChar
  if mailbox.isEmpty then none
  else
    let target ← after? ['@'] (rest.drop mailbox.length)
    let host := target.takeWhile fun c => c.isAlphanum || c == '-' || c == '.'
    if !isHost host then none
    else
      let _ ← after? ['>'] (target.drop host.length)
      some (mailbox.length + host.length + 3)

/-- The length of the bracketed address that the text starts with. -/
def autolink? (text : List Char) : Option Nat :=
  schemeAutolink? text <|> mailAutolink? text

/-! ### Bare addresses -/

/-- What a bare address starts with. -/
def urlOpenings : List (List Char) :=
  ["http://".toList, "https://".toList, "ftp://".toList, "www.".toList]

/-- A character inside a bare address. -/
def isUrlChar (c : Char) : Bool :=
  !isSpace c && c != '<' && c != '>' && c != '[' && c != ']' && c != '(' && c != ')'

/-- Punctuation that does not end a bare address. -/
def isUrlTail (c : Char) : Bool :=
  c == '.' || c == ',' || c == ':' || c == ';' || c == '!' || c == '?' || c == '"' ||
    c == '\'' || c == '*' || c == '_' || c == '~'

/-- The part of a bare address behind its opening. -/
def urlBody (text : List Char) : List Char :=
  ((text.takeWhile isUrlChar).reverse.dropWhile isUrlTail).reverse

/-- The length of the bare address that the text starts with. -/
def url? (text : List Char) : Option Nat :=
  urlOpenings.findSome? fun opening => do
    let rest ← after? opening text
    let body := urlBody rest
    if body.isEmpty then none else some (opening.length + body.length)

end InlineMarkdown
