import InlineMarkdown.Token.Basic

/-! The token kinds of Markdown's inline constructs.

Delimiters and brackets are one token per character, so that the parser can
count runs and match brackets itself. Constructs without inner structure are one
token each. -/
namespace InlineMarkdown

inductive Kind where
  | asterisk
  | underscore
  | tilde
  /-- A code span with its fences. -/
  | inlineCode
  /-- A formula with its fences. -/
  | formula
  | htmlTag
  /-- A comment, a CDATA section, a processing instruction or a declaration. -/
  | htmlBlock
  /-- A comment that is never closed, up to the end of its line. -/
  | htmlUnclosedBlock
  /-- A character reference. -/
  | htmlEntity
  | exclamation
  | leftBracket
  | rightBracket
  | leftParen
  | rightParen
  | caret
  /-- An address between angle brackets. -/
  | autolink
  /-- A bare address. -/
  | url
  | text
  | newline
  | eof
deriving DecidableEq, Repr, Inhabited

namespace Kind

def all : List Kind :=
  [asterisk, underscore, tilde, inlineCode, formula, htmlTag, htmlBlock, htmlUnclosedBlock,
    htmlEntity, exclamation, leftBracket, rightBracket, leftParen, rightParen, caret, autolink,
    url, text, newline, eof]

def name : Kind → String
  | asterisk => "Asterisk"
  | underscore => "Underscore"
  | tilde => "Tilde"
  | inlineCode => "InlineCode"
  | formula => "Formula"
  | htmlTag => "HtmlTag"
  | htmlBlock => "HtmlBlock"
  | htmlUnclosedBlock => "HtmlUnclosedBlock"
  | htmlEntity => "HtmlEntity"
  | exclamation => "Exclamation"
  | leftBracket => "LeftBracket"
  | rightBracket => "RightBracket"
  | leftParen => "LeftParen"
  | rightParen => "RightParen"
  | caret => "Caret"
  | autolink => "Autolink"
  | url => "Url"
  | text => "Text"
  | newline => "Newline"
  | eof => "Eof"

/-- The kind called `name`. -/
def ofName? (name : String) : Option Kind :=
  all.find? fun kind => kind.name == name

instance : TokenKind Kind := ⟨fun kind => kind == .eof, name⟩

end Kind
end InlineMarkdown
