import InlineMarkdown.Lexeme.CharacterReference

/-! The meaning of character references.

`decodeReference?` reads one reference, `decodeReferences` all of a text in a
single pass from left to right: what a reference decodes to is not read again. -/
namespace InlineMarkdown

/-- The references that have a name. -/
def namedCharacters : List (String × Char) :=
  [("amp", '&'), ("lt", '<'), ("gt", '>'), ("quot", '"'), ("apos", '\''), ("nbsp", '\u00a0'),
    ("copy", '©'), ("trade", '™'), ("reg", '®'), ("mdash", '—'), ("ndash", '–'), ("hellip", '…'),
    ("laquo", '«'), ("raquo", '»'), ("lsquo", '‘'), ("rsquo", '’'), ("ldquo", '“'), ("rdquo", '”'),
    ("bull", '•'), ("middot", '·'), ("dagger", '†'), ("Dagger", '‡'), ("para", '¶'), ("sect", '§'),
    ("prime", '′'), ("Prime", '″'), ("larr", '←'), ("rarr", '→'), ("uarr", '↑'), ("darr", '↓'),
    ("times", '×'), ("divide", '÷'), ("plusmn", '±'), ("ne", '≠'), ("le", '≤'), ("ge", '≥'),
    ("infin", '∞'), ("deg", '°'), ("permil", '‰'), ("euro", '€'), ("pound", '£'), ("yen", '¥'),
    ("cent", '¢')]

/-- The value of a digit to base 16. -/
def digitValue? (c : Char) : Option Nat :=
  if c.isDigit then some (c.toNat - '0'.toNat)
  else if 'a' ≤ c && c ≤ 'f' then some (c.toNat - 'a'.toNat + 10)
  else if 'A' ≤ c && c ≤ 'F' then some (c.toNat - 'A'.toNat + 10)
  else none

/-- The number that the digits write to `base`, behind the value `n` of the digits
before them; numbers of 2^32 and more are refused. -/
def readDigits? (base n : Nat) : List Char → Option Nat
  | [] => some n
  | c :: rest => do
    let digit ← digitValue? c
    let next := n * base + digit
    if digit < base && next < 2 ^ 32 then readDigits? base next rest else none

/-- An unsigned number of 32 bits to `base`; a plus sign may stand before it. -/
def readNumber? (base : Nat) (text : List Char) : Option Nat :=
  let digits := (after? ['+'] text).getD text
  if digits.isEmpty then none else readDigits? base 0 digits

/-- The character with a code point, the replacement character for zero; none for
surrogates and numbers beyond Unicode. -/
def charOfCodePoint? (n : Nat) : Option Char :=
  if n = 0 then some '\ufffd' else if n.isValidChar then some (Char.ofNat n) else none

/-- The character that a reference stands for. -/
def decodeReference? (reference : List Char) : Option Char := do
  let body ← between? '&' ';' reference
  match body with
  | '#' :: 'x' :: digits | '#' :: 'X' :: digits => charOfCodePoint? (← readNumber? 16 digits)
  | '#' :: digits => charOfCodePoint? (← readNumber? 10 digits)
  | name => namedCharacters.findSome? fun (known, c) => if known.toList = name then some c else none

/-- The character that the reference at the start of a text stands for and the length of
the reference, if it can be decoded. -/
def decodeFirst? (text : List Char) : Option (Char × Nat) := do
  let length ← characterReference? text
  let decoded ← decodeReference? (text.take length)
  some (decoded, length)

/-- Decodes the references in a text, at most `limit` characters of which are left. What
stands in front of the next ampersand is copied, and the ampersand too if no reference that
can be decoded starts at it. -/
def decodeFrom : (limit : Nat) → List Char → List Char
  | 0, text => text
  | limit + 1, text =>
    let plain := text.takeWhile (· != '&')
    match text.drop plain.length with
    | [] => plain
    | ampersand :: rest =>
      match decodeFirst? (ampersand :: rest) with
      | some (decoded, length) =>
        plain ++ decoded :: decodeFrom limit ((ampersand :: rest).drop length)
      | none => plain ++ ampersand :: decodeFrom limit rest

/-- The text with every reference that can be decoded replaced by its character. -/
def decodeReferences (text : List Char) : List Char := decodeFrom text.length text

end InlineMarkdown
