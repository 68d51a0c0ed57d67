import InlineMarkdown.Token.Basic
import InlineMarkdown.Diagnostic
import InlineMarkdown.Event

/-! The state of one parse.

A context holds the tokens that are left, the node under construction, the
diagnostics so far and what is to be reported. Its operations only ever take
tokens from the front of the queue. -/
namespace InlineMarkdown

/-- A tree whose nodes own an ordered list of children. -/
class TreeNode (N : Type) where
  children : N → List N
  /-- The node with one more child behind the others. -/
  append : N → N → N
  children_append (node child : N) : children (append node child) = children node ++ [child]

structure Context (K N : Type) where
  /-- The tokens that are left. -/
  queue : List (Token K)
  /-- The node under construction. -/
  node : N
  diagnostics : Array Diagnostic := #[]
  /-- The reports so far, the latest first. -/
  reports : List Event := []

namespace Context
variable {K N : Type}

/-! ### Tokens -/

def front? (ctx : Context K N) : Option (Token K) := ctx.queue.head?

/-- The token that is `n` behind the front. -/
def nth? (ctx : Context K N) (n : Nat) : Option (Token K) := ctx.queue[n]?

/-- The number of tokens left. -/
def remaining (ctx : Context K N) : Nat := ctx.queue.length

/-- Takes up to `n` tokens from the front. -/
def advance (ctx : Context K N) (n : Nat) : Context K N :=
  { ctx with queue := ctx.queue.drop n }

/-- Takes the front token, if there is one. -/
def popFront (ctx : Context K N) : Option (Token K) × Context K N := (ctx.front?, ctx.advance 1)

theorem queue_advance_suffix (ctx : Context K N) (n : Nat) : (ctx.advance n).queue <:+ ctx.queue :=
  List.drop_suffix n ctx.queue

/-! ### Results -/

/-- Appends a child to the node under construction. -/
def append [TreeNode N] (ctx : Context K N) (child : N) : Context K N :=
  { ctx with node := TreeNode.append ctx.node child }

def record (ctx : Context K N) (error : ParseError) (span : Span) : Context K N :=
  { ctx with diagnostics := ctx.diagnostics.push ⟨error, span⟩ }

def report (ctx : Context K N) (event : Event) : Context K N :=
  { ctx with reports := event :: ctx.reports }

end Context
end InlineMarkdown
