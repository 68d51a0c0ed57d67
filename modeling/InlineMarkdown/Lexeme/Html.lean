import InlineMarkdown.Text.Basic
import InlineMarkdown.Text.Whitespace

/-! Raw HTML: tags, and the blocks that are not tags.

A block is a comment, a CDATA section, a processing instruction or a declaration;
it may run over line ends. A comment that is never closed runs to the end of its
line. A tag has a name and attributes, the value of an attribute with or without
quotes. -/
namespace InlineMarkdown

/-! ### Blocks -/

/-- The length of the text from `opening` through the next `closing`. -/
def enclosed? (opening closing text : List Char) : Option Nat := do
  let rest ← after? opening text
  let length ← through? closing rest
  some (opening.length + length)

/-- The length of the declaration that the text starts with. -/
def htmlDeclaration? (text : List Char) : Option Nat := do
  let rest ← after? ['<', '!'] text
  if rest.head?.any Char.isAlpha then
    let length ← through? ['>'] rest
    some (length + 2)
  else none

/-- The length of the closed block that the text starts with. -/
def htmlBlock? (text : List Char) : Option Nat :=
  enclosed? "<!--".toList "-->".toList text <|>
    enclosed? "<![CDATA[".toList "]]>".toList text <|>
    enclosed? "<?".toList "?>".toList text <|>
    htmlDeclaration? text

/-- The length of the comment that the text starts with, up to the end of the
line. -/
def htmlUnclosed? (text : List Char) : Option Nat := do
  let rest ← after? "<!--".toList text
  some ((rest.takeWhile (· != '\n')).length + 4)

/-! ### Tags -/

/-- A character of a tag name. -/
def isTagChar (c : Char) : Bool := c.isAlphanum || c == '-'

/-- The first character of an attribute name. -/
def isAttributeStart (c : Char) : Bool := c.isAlpha || c == '_' || c == ':'

/-- A further character of an attribute name. -/
def isAttributeChar (c : Char) : Bool :=
  c.isAlphanum || c == '_' || c == '.' || c == ':' || c == '-'

/-- A character of an attribute value without quotes. -/
def isBareValueChar (c : Char) : Bool :=
  !isSpace c && c != '"' && c != '\'' && c != '=' && c != '<' && c != '>' && c != '\x60'

/-- What follows the tag name that the text starts with. -/
def afterTagName? (text : List Char) : Option (List Char) :=
  if text.head?.any Char.isAlpha then some (text.dropWhile isTagChar) else none

/-- What follows the attribute value that the text starts with. -/
def afterValue? (text : List Char) : Option (List Char) :=
  match text with
  | [] => none
  | c :: rest =>
    if c = '"' || c = '\'' then after? [c] (rest.dropWhile (· != c))
    else if isBareValueChar c then some (rest.dropWhile isBareValueChar)
    else none

/-- What follows the white space and the attribute that the text starts with. -/
def afterAttribute? (text : List Char) : Option (List Char) :=
  if text.head?.any isSpace then
    match text.dropWhile isSpace with
    | [] => none
    | c :: rest =>
      if isAttributeStart c then
        let behind := rest.dropWhile isAttributeChar
        let valued := do
          let value ← after? ['='] (behind.dropWhile isSpace)
          afterValue? (value.dropWhile isSpace)
        some (valued.getD behind)
      else none
  else none

/-- What follows the attributes that the text starts with, at most `limit` of them. -/
def afterAttributes : (limit : Nat) → List Char → List Char
  | 0, text => text
  | limit + 1, text =>
    match afterAttribute? text with
    | some rest => afterAttributes limit rest
    | none => text

/-- What follows the opening tag that the text starts with. -/
def afterOpenTag? (text : List Char) : Option (List Char) := do
  let named ← after? ['<'] text
  let attributes ← afterTagName? named
  let closing := (afterAttributes attributes.length attributes).dropWhile isSpace
  after? ['/', '>'] closing <|> after? ['>'] closing

/-- What follows the closing tag that the text starts with. -/
def afterCloseTag? (text : List Char) : Option (List Char) := do
  let named ← after? ['<', '/'] text
  let rest ← afterTagName? named
  after? ['>'] (rest.dropWhile isSpace)

/-- The length of the tag that the text starts with. -/
def htmlTag? (text : List Char) : Option Nat := do
  let rest ← afterOpenTag? text <|> afterCloseTag? text
  some (text.length - rest.length)

end InlineMarkdown
