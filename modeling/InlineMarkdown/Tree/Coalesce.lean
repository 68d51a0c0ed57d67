import InlineMarkdown.Tree.Node

/-! Joining neighbouring text nodes.

Several steps of the parser leave text in pieces. `coalesce` joins each run of
neighbouring text nodes, at every depth, into one node that has the first one's
start, the last one's end and all their texts. Children of a text node that is
joined to the one before it are dropped; the parser makes no such nodes. -/
namespace InlineMarkdown

/-- Joins the texts of `nodes` to `last` as long as they are text, and goes on
with the first that is not. -/
def absorb (last : Node) : List Node → List Node
  | [] => [last]
  | node :: rest =>
    match node.text?.bind (last.appendText? · node.span) with
    | some joined => absorb joined rest
    | none => last :: absorb node rest

/-- Joins runs of neighbouring text nodes of one list, without looking below. -/
def joinText : List Node → List Node
  | [] => []
  | node :: rest => absorb node rest

mutual

/-- The tree with runs of text nodes joined below its root. -/
def Node.coalesce : Node → Node
  | ⟨kind, span, children⟩ => ⟨kind, span, joinText (coalesceEach children)⟩

def coalesceEach : List Node → List Node
  | [] => []
  | node :: rest => node.coalesce :: coalesceEach rest

end

/-- The trees with runs of text nodes joined at every depth. -/
def coalesce (nodes : List Node) : List Node := joinText (coalesceEach nodes)

theorem coalesceEach_eq_map (nodes : List Node) : coalesceEach nodes = nodes.map Node.coalesce := by
  induction nodes with
  | nil => rfl
  | cons node rest ih => simp [coalesceEach, ih]

end InlineMarkdown
