import InlineMarkdown.Token.Kind
import InlineMarkdown.Event
import InlineMarkdown.IndexSet

/-! A cursor over a list of tokens.

All parsing of one run shares one cursor. Constructs at brackets are tried: a try
remembers the position it starts at and goes back there if it fails. What tries
have learnt stays with the cursor: where one is known to fail, how many are in
progress, whether the outermost one has to be given up, and what is to be
reported. -/
namespace InlineMarkdown

structure Cursor where
  tokens : Array (Token Kind)
  /-- The index of the current token. -/
  position : Nat := 0
  /-- The indices at which a try has failed. -/
  failed : IndexSet := {}
  /-- The number of tries in progress. -/
  depth : Nat := 0
  /-- A try went too deep, so that all tries in progress fail. -/
  abandoned : Bool := false
  /-- The reports so far, the latest first. -/
  reports : List Event := []
deriving Repr

namespace Cursor

/-! ### Looking -/

/-- The current token. -/
def peek (c : Cursor) : Option (Token Kind) := c.tokens[c.position]?

def peekKind (c : Cursor) : Option Kind := c.peek.map (·.kind)

/-- The current token is of this kind. -/
def isAt (c : Cursor) (kind : Kind) : Bool := c.peekKind == some kind

/-- At the token that ends the input, or behind the last token. -/
def isAtEnd (c : Cursor) : Bool := c.peek.all Token.isEof

/-- The number of tokens from the current one on. -/
def remaining (c : Cursor) : Nat := c.tokens.size - c.position

/-- The range from the token at `start` to the last token passed; nothing but the
start if none was passed since, and nothing at all if there is no such token. -/
def spanSince (c : Cursor) (start : Nat) : Span :=
  match c.tokens[start]? with
  | none => {}
  | some first =>
    match if start < c.position then c.tokens[c.position - 1]? else none with
    | some last => ⟨first.span.start, last.span.stop⟩
    | none => Span.point first.span.start

/-! ### Moving -/

/-- One token further. -/
def advance (c : Cursor) : Cursor := { c with position := c.position + 1 }

/-- To a position, or behind the last token if it is beyond that. -/
def reset (c : Cursor) (position : Nat) : Cursor :=
  { c with position := min position c.tokens.size }

/-- The current token, and the cursor behind it. -/
def bump (c : Cursor) : Option (Token Kind) × Cursor :=
  match c.peek with
  | some token => (some token, c.advance)
  | none => (none, c)

/-- Passes the current token if it is of this kind. -/
def eat (c : Cursor) (kind : Kind) : Bool × Cursor :=
  if c.isAt kind then (true, c.advance) else (false, c)

/-- The tokens of one kind from index `i` on, at most `limit` of them. -/
def runFrom (tokens : Array (Token Kind)) (kind : Kind) : (limit i : Nat) → List (Token Kind)
  | 0, _ => []
  | limit + 1, i =>
    match tokens[i]? with
    | none => []
    | some token => if token.kind = kind then token :: runFrom tokens kind limit (i + 1) else []

/-- The run of tokens of this kind that starts here, and the cursor behind it. -/
def bumpRun (c : Cursor) (kind : Kind) : List (Token Kind) × Cursor :=
  let run := runFrom c.tokens kind c.remaining c.position
  (run, { c with position := c.position + run.length })

/-! ### Tries -/

def report (c : Cursor) (event : Event) : Cursor := { c with reports := event :: c.reports }

/-- A try at `start` is known to fail. -/
def knownFailure (c : Cursor) (start : Nat) : Bool := c.failed.contains start

def recordFailure (c : Cursor) (start : Nat) : Cursor :=
  { c with failed := c.failed.insert start }

/-- Begins a try. -/
def descend (c : Cursor) : Cursor := { c with depth := c.depth + 1 }

/-- Gives up all tries in progress. -/
def abandon (c : Cursor) : Cursor := { c with abandoned := true }

/-- Ends a try, and says whether it was given up. The mark goes when no try is in
progress any more. -/
def ascend (c : Cursor) : Bool × Cursor :=
  (c.abandoned, { c with depth := c.depth - 1, abandoned := c.abandoned && 1 < c.depth })

end Cursor
end InlineMarkdown
