import InlineMarkdown.Destination
import InlineMarkdown.Lexeme.CodeSpan
import InlineMarkdown.Tree.Node

/-! Markdown from a tree.

Text is escaped so that it reads as text again. Emphasis inside emphasis takes the
other marker, so that the runs of the two do not fuse. The fences of a code span
are longer than any run of backticks in the code. -/
namespace InlineMarkdown

/-- Characters that could start markup. -/
def isMarkup (c : Char) : Bool :=
  c == '\\' || c == '*' || c == '_' || c == '~' || c == '[' || c == ']' || c == backtick ||
    c == '$' || c == '<' || c == '&' || c == '!'

/-- The text with a backslash before each character that could start markup. -/
def escapeText (text : List Char) : List Char :=
  text.flatMap fun c => if isMarkup c then ['\\', c] else [c]

/-- The length of the longest run of backticks in a text. -/
def longestRun (code : List Char) : Nat :=
  ((splitWhere (· != backtick) code).map List.length).foldl max 0

/-- The code needs a space on each side to keep it apart from its fences or to keep
its own spaces. -/
def needsPadding (code : List Char) : Bool :=
  code.head? == some backtick || code.getLast? == some backtick ||
    (code.head? == some ' ' && code.getLast? == some ' ' && !(trim code).isEmpty)

/-- A code span. -/
def codeSpan (code : List Char) : List Char :=
  let fence := List.replicate (longestRun code + 1) backtick
  let pad := if needsPadding code then [' '] else []
  fence ++ pad ++ code ++ pad ++ fence

/-- A formula: a display formula if there is white space at one of its ends. -/
def fencedFormula (body : List Char) : List Char :=
  let fence :=
    if body.head?.any isSpace || body.getLast?.any isSpace then ['$', '$'] else ['$']
  fence ++ body ++ fence

/-- The link is written as a bare or bracketed address: its title and its only text
are that address. -/
def isAddress (url title : List Char) (children : List Node) : Bool :=
  title == url &&
    match children with
    | [child] => child.text? == some url
    | _ => false

/-- An address as a link of its own. -/
def writeAddress (url : List Char) : List Char :=
  if url.contains ':' || url.contains '@' then '<' :: url ++ ['>'] else url

mutual

/-- Markdown for a tree. `outer` is the marker of the closest emphasis around it. -/
def Node.writeIn (outer : Option Char) : Node → List Char
  | ⟨kind, _, children⟩ =>
    match kind with
    | .document => writeIn none children
    | .softBreak => ['\n']
    | .text text => escapeText text
    | .emphasis =>
      let marker := if outer = some '*' then '_' else '*'
      marker :: writeIn (some marker) children ++ [marker]
    | .strong =>
      let marker := if outer = some '*' then '_' else '*'
      [marker, marker] ++ writeIn (some marker) children ++ [marker, marker]
    | .strike => ['~', '~'] ++ writeIn none children ++ ['~', '~']
    | .inlineCode code => codeSpan code
    | .formula body => fencedFormula body
    | .html html => html
    | .link url title =>
      if isAddress url title children then writeAddress url
      else '[' :: writeIn none children ++ [']', '('] ++ linkDestination url title ++ [')']
    | .image url alt title =>
      ['!', '['] ++ escapeText alt ++ [']', '('] ++ linkDestination url title ++ [')']
    | .reference identifier _ _ =>
      '[' :: writeIn none children ++ [']', '['] ++ identifier ++ [']']
    | .footnote identifier => ['[', '^'] ++ escapeText identifier ++ [']']
    | .citation identifier => ['[', '@'] ++ escapeText identifier ++ [']']

/-- Markdown for trees that stand side by side. -/
def writeIn (outer : Option Char) : List Node → List Char
  | [] => []
  | node :: rest => node.writeIn outer ++ writeIn outer rest

end

/-- Markdown for trees. -/
def toMarkdown (nodes : List Node) : List Char := writeIn none nodes

/-- Markdown for a tree. -/
def Node.toMarkdown (node : Node) : List Char := node.writeIn none

end InlineMarkdown
