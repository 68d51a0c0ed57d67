import InlineMarkdown.Text.Quoted
import InlineMarkdown.Tree.Node

/-! The dump of a tree: one line per node, indented by its depth.

A line has the name of the node and its fields, the texts in quotes so that each
stays on its line; on request the range follows. -/
namespace InlineMarkdown

/-- A field of a node with its name. -/
def dumpField (name : String) (value : List Char) : List Char :=
  ' ' :: (name.toList ++ '=' :: quote value)

/-- The name and the fields of a node. -/
def NodeKind.describe (kind : NodeKind) : List Char :=
  kind.name.toList ++
    match kind with
    | document | softBreak | emphasis | strong | strike => []
    | text s | inlineCode s | formula s | html s => ' ' :: quote s
    | link url title => dumpField "url" url ++ dumpField "title" title
    | image url alt title => dumpField "url" url ++ dumpField "alt" alt ++ dumpField "title" title
    | reference identifier url title =>
      dumpField "identifier" identifier ++ dumpField "url" url ++ dumpField "title" title
    | footnote identifier | citation identifier => dumpField "identifier" identifier

/-- A range behind the description of a node. -/
def Span.describe (span : Span) : List Char :=
  (" @" ++ span.start.display ++ "-" ++ span.stop.display).toList

mutual

/-- The lines of a tree whose root is `depth` levels down. -/
def Node.dumpAt (spans : Bool) (depth : Nat) : Node → List Char
  | ⟨kind, span, children⟩ =>
    List.replicate (2 * depth) ' ' ++ kind.describe ++ (if spans then span.describe else []) ++
      '\n' :: dumpAt spans (depth + 1) children

/-- The lines of trees whose roots are `depth` levels down. -/
def dumpAt (spans : Bool) (depth : Nat) : List Node → List Char
  | [] => []
  | node :: rest => node.dumpAt spans depth ++ dumpAt spans depth rest

end

/-- The lines of trees. -/
def dump (nodes : List Node) : List Char := dumpAt false 0 nodes

/-- The lines of a tree. -/
def Node.dump (node : Node) : List Char := node.dumpAt false 0

/-- The lines of a tree, each with the node's range. -/
def Node.dumpWithSpans (node : Node) : List Char := node.dumpAt true 0

end InlineMarkdown
