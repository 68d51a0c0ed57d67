import InlineMarkdown.Lexeme.Basic

/-! Tokens from source text.

Each lexeme becomes a token that covers the lexeme's slice; behind the last one
stands the token that ends the input, with an empty text at an empty range. So
the ranges of the tokens cover the source without gap or overlap. -/
namespace InlineMarkdown

/-- The tokens of lexemes that start at `start`, and the end of the input. -/
def place (start : Position) : List Lexeme → List (Token Kind)
  | [] => [⟨.eof, [], Span.point start⟩]
  | lexeme :: rest =>
    let stop := start.advance lexeme.raw
    ⟨lexeme.kind, lexeme.text, ⟨start, stop⟩⟩ :: place stop rest

/-- The tokens of a source text. -/
def tokenize (input : List Char) : List (Token Kind) := place {} (lexemes input)

end InlineMarkdown
