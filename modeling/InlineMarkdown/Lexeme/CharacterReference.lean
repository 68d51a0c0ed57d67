import InlineMarkdown.Text.Basic

/-! The written form of character references.

A reference stands between an ampersand and a semicolon: a number sign with one
to seven decimal digits, a number sign and an x with one to six hexadecimal
digits, or a name of two to 32 letters and digits that starts with a letter. -/
namespace InlineMarkdown

def isHexDigit (c : Char) : Bool :=
  c.isDigit || ('a' ≤ c && c ≤ 'f') || ('A' ≤ c && c ≤ 'F')

/-- The length of a reference whose body is a run of characters in `p`, of a length
from `least` to `most`, behind `opening`. -/
def referenceOf? (opening : List Char) (p : Char → Bool) (least most : Nat)
    (text : List Char) : Option Nat := do
  let rest ← after? opening text
  let body := rest.takeWhile p
  if body.length < least || most < body.length then none
  else
    let _ ← after? [';'] (rest.drop body.length)
    some (opening.length + body.length + 1)

/-- The length of the named reference that the text starts with. -/
def namedReference? (text : List Char) : Option Nat :=
  if (text.drop 1).head?.any Char.isAlpha then referenceOf? ['&'] Char.isAlphanum 2 32 text
  else none

/-- The length of the character reference that the text starts with. -/
def characterReference? (text : List Char) : Option Nat :=
  referenceOf? ['&', '#'] Char.isDigit 1 7 text <|>
    referenceOf? ['&', '#', 'x'] isHexDigit 1 6 text <|>
    referenceOf? ['&', '#', 'X'] isHexDigit 1 6 text <|>
    namedReference? text

end InlineMarkdown
