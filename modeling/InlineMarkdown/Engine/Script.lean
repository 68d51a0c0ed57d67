import InlineMarkdown.Markdown

/-! Consumers given as data.

A script says for which tokens a consumer acts, what it then does to the context
and whether it claims the token. It need not be well behaved: a script may take
tokens and then decline, or claim a token and leave it in the queue. -/
namespace InlineMarkdown

/-- One thing that a scripted consumer does. -/
inductive Action where
  /-- Takes up to this many tokens. -/
  | advance (count : Nat)
  | popFront
  /-- Appends a text node that covers the offered token; it says `label`, or else
  what the token says. -/
  | append (label : Option (List Char))
  /-- Appends a text node to the last child of the node under construction. -/
  | nest (label : List Char)
  /-- Records an error at the offered token. -/
  | record (error : ParseError)
deriving Repr

structure Script where
  /-- The kinds that it acts on; all if none are given. -/
  kinds : Option (List Kind) := none
  /-- The text that a token must have. -/
  text : Option (List Char) := none
  /-- Whether the number of tokens left must be even, or odd. -/
  even : Option Bool := none
  actions : List Action := []
  /-- The answer, once it has acted. -/
  claim : Bool := false
deriving Repr

/-- The node with one more child below its last child, if it has one. -/
def Node.nest (node child : Node) : Node :=
  match node.children.getLast? with
  | some last => { node with children := node.children.dropLast ++ [last.append child] }
  | none => node

/-- Does the action for the offered token. -/
def Action.run (token : Token Kind) (ctx : Context Kind Node) : Action → Context Kind Node
  | advance count => ctx.advance count
  | popFront => ctx.advance 1
  | append label => ctx.append (Node.ofText (label.getD token.text) token.span)
  | nest label => { ctx with node := ctx.node.nest (Node.ofText label token.span) }
  | record error => ctx.record error token.span

theorem Action.queue_run_suffix (token : Token Kind) (ctx : Context Kind Node) (action : Action) :
    (action.run token ctx).queue <:+ ctx.queue := by
  cases action with
  | advance count => exact ctx.queue_advance_suffix count
  | popFront => exact ctx.queue_advance_suffix 1
  | append | nest | record => exact List.suffix_refl _

/-- The script acts on this token. -/
def Script.applies (script : Script) (ctx : Context Kind Node) (token : Token Kind) : Bool :=
  script.kinds.all (·.contains token.kind) && script.text.all (· == token.text) &&
    script.even.all (· == (ctx.remaining % 2 == 0))

theorem queue_foldl_run_suffix (token : Token Kind) (actions : List Action)
    (ctx : Context Kind Node) :
    (actions.foldl (Action.run token) ctx).queue <:+ ctx.queue := by
  induction actions generalizing ctx with
  | nil => exact List.suffix_refl _
  | cons action rest ih => exact (ih _).trans (action.queue_run_suffix token ctx)

/-- The consumer that follows a script. -/
def Script.consumer (name : String) (priority : Int) (script : Script) : Consumer Kind Node where
  name := name
  priority := priority
  consume ctx token :=
    if script.applies ctx token then
      (script.claim, script.actions.foldl (Action.run token) ctx)
    else (false, ctx)
  queue_suffix ctx token := by
    split
    · exact queue_foldl_run_suffix token script.actions ctx
    · exact List.suffix_refl _

end InlineMarkdown
