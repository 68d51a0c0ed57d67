import InlineMarkdown.Engine.Registry

/-! Parsing: offering the front token to the consumers until none is left.

A token that nobody claims is recorded and skipped. A round that begins with as
many tokens as the one before it can only be the answer to a claim that took
nothing; it is recorded as fatal and ends the parse. So a parse of `n` tokens ends
within `n + 1` rounds, whatever the consumers do. -/
namespace InlineMarkdown
variable {K N : Type}

/-! ### Rounds -/

/-- At most `limit` rounds. `previous` is the number of tokens at the beginning of
the round before. -/
def Registry.rounds [TokenKind K] (registry : Registry K N) :
    (limit : Nat) → (previous : Option Nat) → Context K N → Context K N
  | 0, _, ctx => ctx
  | limit + 1, previous, ctx =>
    match ctx.queue with
    | [] => ctx
    | token :: _ =>
      if token.isEof then ctx
      else
        let left := ctx.remaining
        if previous = some left then
          (ctx.report (.noProgress token.span.start token.text)).record (.stuck token.text) token.span
        else
          match registry.offer ctx token with
          | (some _, ctx) => registry.rounds limit (some left) ctx
          | (none, ctx) =>
            let ctx := ctx.report (.unclaimed token.span.start token.text)
            let ctx := ctx.record (.unrecognized token.text) token.span
            registry.rounds limit (some left) (ctx.advance 1)

/-- Rounds until the end of the input, the end of the queue or a round without
progress. -/
def Registry.drive [TokenKind K] (registry : Registry K N) (ctx : Context K N) : Context K N :=
  registry.rounds (ctx.remaining + 1) none ctx

/-! ### Languages -/

/-- All that is needed to parse a language: a tokenizer and its consumers. -/
structure Language (K N : Type) where
  name : String
  tokenize : List Char → List (Token K)
  consumers : Registry K N

/-- The root with all that was recognised, and what went wrong. -/
structure Parsed (N : Type) where
  root : N
  diagnostics : List Diagnostic
  /-- What the parse reported, in order. -/
  events : List Event

namespace Parsed

/-- Nothing went wrong. -/
def isClean (parsed : Parsed N) : Bool := parsed.diagnostics.isEmpty

/-- The parse was stopped early. -/
def isFatal (parsed : Parsed N) : Bool := parsed.diagnostics.any Diagnostic.isFatal

end Parsed

/-- Parses a text, with everything recognised appended to `root`. -/
def Language.parse [TokenKind K] [TreeNode N] (language : Language K N) (input : List Char)
    (root : N) : Parsed N :=
  let tokens := language.tokenize input
  let ctx := language.consumers.drive { queue := tokens, node := root }
  let begun := Event.parsing language.name (byteLength input) tokens.length
  let ended := Event.finished language.name (TreeNode.children ctx.node).length ctx.diagnostics.size
  ⟨ctx.node, ctx.diagnostics.toList, begun :: (ended :: ctx.reports).reverse⟩

end InlineMarkdown
