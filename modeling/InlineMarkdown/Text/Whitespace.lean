/-! White space: the 25 characters with the Unicode property White_Space.

The one class serves everywhere the program asks for white space: inside
formulas, autolinks, tags and addresses, in destinations and identifiers, and
for trimming. -/
namespace InlineMarkdown

/-- The character has the property White_Space. -/
def isSpace (c : Char) : Bool :=
  let n := c.toNat
  (9 ≤ n && n ≤ 13) || n == 0x20 || n == 0x85 || n == 0xA0 || n == 0x1680 ||
    (0x2000 ≤ n && n ≤ 0x200A) || n == 0x2028 || n == 0x2029 || n == 0x202F ||
    n == 0x205F || n == 0x3000

/-- The text without the white space before its first other character. -/
def trimLeft (text : List Char) : List Char := text.dropWhile isSpace

/-- The text without the white space behind its last other character. -/
def trimRight (text : List Char) : List Char := (text.reverse.dropWhile isSpace).reverse

/-- The text without the white space at its ends. -/
def trim (text : List Char) : List Char := trimRight (trimLeft text)

end InlineMarkdown
