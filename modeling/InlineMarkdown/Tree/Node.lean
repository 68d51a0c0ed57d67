import InlineMarkdown.Source.Position

/-! The tree of inline constructs.

A node has a kind, the range of the source it covers and an ordered list of
children. The kind carries what is not in the children: the text of a leaf, the
target of a link, the identifier of a reference. -/
namespace InlineMarkdown

/-- What a node is. -/
inductive NodeKind where
  /-- The root. -/
  | document
  /-- The break between two lines. -/
  | softBreak
  | text (text : List Char)
  | emphasis
  | strong
  | strike
  /-- The content of a code span, without fences. -/
  | inlineCode (code : List Char)
  /-- The content of a formula, without fences. -/
  | formula (formula : List Char)
  /-- Raw HTML as it stands in the source. -/
  | html (html : List Char)
  /-- An inline link or an address; the link's text is in the children. -/
  | link (url title : List Char)
  /-- An image; its alternative text is flattened to characters. -/
  | image (url alt title : List Char)
  /-- A link by reference, not resolved. -/
  | reference (identifier url title : List Char)
  | footnote (identifier : List Char)
  | citation (identifier : List Char)
deriving DecidableEq, Repr

def NodeKind.name : NodeKind → String
  | document => "Document"
  | softBreak => "SoftBreak"
  | text _ => "Text"
  | emphasis => "Emphasis"
  | strong => "Strong"
  | strike => "Strike"
  | inlineCode _ => "InlineCode"
  | formula _ => "Formula"
  | html _ => "Html"
  | link .. => "Link"
  | image .. => "Image"
  | reference .. => "Reference"
  | footnote _ => "Footnote"
  | citation _ => "CitationReference"

structure Node where
  kind : NodeKind
  span : Span
  children : List Node := []
deriving Repr

namespace Node

/-! ### Building nodes -/

/-- A text node. -/
def ofText (text : List Char) (span : Span) : Node := ⟨.text text, span, []⟩

/-- The root of a document without content. -/
def emptyDocument : Node := ⟨.document, {}, []⟩

/-- The node with one more child behind the others. -/
def append (node child : Node) : Node := { node with children := node.children ++ [child] }

/-! ### Text nodes -/

/-- The text of a text node. -/
def text? (node : Node) : Option (List Char) :=
  match node.kind with
  | .text text => some text
  | _ => none

def isText (node : Node) : Bool := node.text?.isSome

/-- A text node with `text` behind its own and its range extended to the end of
`span`; other nodes take no text. -/
def appendText? (node : Node) (text : List Char) (span : Span) : Option Node :=
  match node.kind with
  | .text own => some { node with kind := .text (own ++ text), span.stop := span.stop }
  | _ => none

/-- What a node says itself, if it is a text node. -/
def ownText (node : Node) : List Char := node.text?.getD []

end Node

/-! ### Text of a tree -/

mutual

/-- The text of every text node of the tree, in order. -/
def Node.textContent : Node → List Char
  | ⟨kind, _, children⟩ =>
    (match kind with
      | .text text => text
      | _ => []) ++ flattenText children

/-- The text of every text node of the trees, in order. -/
def flattenText : List Node → List Char
  | [] => []
  | node :: rest => node.textContent ++ flattenText rest

end

theorem flattenText_append (a b : List Node) : flattenText (a ++ b) = flattenText a ++ flattenText b := by
  induction a with
  | nil => rfl
  | cons node rest ih => simp [flattenText, ih]

/-! ### Equality -/

mutual

/-- Two trees are equal when kinds, ranges and children are. -/
def Node.decideEq : (a b : Node) → Decidable (a = b)
  | ⟨kind, span, children⟩, ⟨kind', span', children'⟩ =>
    match (inferInstance : Decidable (kind = kind')), (inferInstance : Decidable (span = span')),
        Node.decideEqList children children' with
    | isTrue h, isTrue h', isTrue h'' => isTrue (by rw [h, h', h''])
    | isFalse h, _, _ => isFalse fun e => h (congrArg Node.kind e)
    | _, isFalse h, _ => isFalse fun e => h (congrArg Node.span e)
    | _, _, isFalse h => isFalse fun e => h (congrArg Node.children e)

def Node.decideEqList : (a b : List Node) → Decidable (a = b)
  | [], [] => isTrue rfl
  | [], _ :: _ => isFalse nofun
  | _ :: _, [] => isFalse nofun
  | a :: as, b :: bs =>
    match Node.decideEq a b, Node.decideEqList as bs with
    | isTrue h, isTrue h' => isTrue (by rw [h, h'])
    | isFalse h, _ => isFalse fun e => h (List.cons.inj e).1
    | _, isFalse h => isFalse fun e => h (List.cons.inj e).2

end

instance : DecidableEq Node := Node.decideEq

end InlineMarkdown
