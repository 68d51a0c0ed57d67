import InlineMarkdown.Source.Position

/-! Tokens: what a language's tokenizer makes of a source text.

A token has a kind, a text and the range it came from. Kinds belong to the
language; all that the rest of the program asks of them is which kind ends the
input and how log lines name them. -/
namespace InlineMarkdown

/-- A closed set of token kinds. -/
class TokenKind (K : Type) where
  /-- The kind that marks the end of the input. -/
  isEof : K → Bool
  /-- The kind as log lines name it. -/
  name : K → String

structure Token (K : Type) where
  kind : K
  text : List Char
  span : Span
deriving DecidableEq, Repr

/-- The token marks the end of the input. -/
def Token.isEof {K : Type} [TokenKind K] (token : Token K) : Bool :=
  TokenKind.isEof token.kind

/-- Tokens laid end to end: each starts where the one before it ends. -/
def Token.layOut {K : Type} (start : Position) : List (K × List Char) → List (Token K)
  | [] => []
  | (kind, text) :: rest =>
    ⟨kind, text, Span.covering start text⟩ :: layOut (start.advance text) rest

end InlineMarkdown
