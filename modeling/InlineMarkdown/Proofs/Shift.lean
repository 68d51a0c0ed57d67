import InlineMarkdown.Proofs.Comparison

/-! Moving what was parsed to another place of the source.

A text that stands behind others starts some lines and some bytes further on, and if the
others end with a line end it starts a line of its own. `Shift` moves a position by so much,
and with it spans and nodes. Walking over a text commutes with the move, so to move a tree is to
look at it under an aspect (`Shift.moved`). -/
namespace InlineMarkdown

/-- How much further on a text starts: so many lines and so many bytes. -/
structure Shift where
  lines : Nat
  bytes : Nat
deriving DecidableEq, Repr

variable {s : Shift}

/-! ### Positions -/

def Position.shift (s : Shift) (p : Position) : Position :=
  ⟨p.line + s.lines, p.column, p.offset + s.bytes⟩

def Span.shift (s : Shift) (span : Span) : Span := ⟨span.start.shift s, span.stop.shift s⟩

@[simp] theorem Span.shift_mk (p q : Position) :
    Span.shift s ⟨p, q⟩ = ⟨p.shift s, q.shift s⟩ := rfl

theorem Position.next_shift (p : Position) (c : Char) : (p.shift s).next c = (p.next c).shift s := by
  unfold next shift
  split <;> simp only [Position.mk.injEq, true_and] <;> omega

theorem Position.advance_shift (p : Position) (text : List Char) :
    (p.shift s).advance text = (p.advance text).shift s := by
  induction text generalizing p with
  | nil => rfl
  | cons c text ih => rw [advance_cons, next_shift, ih, advance_cons]

/-! ### Nodes -/

mutual

/-- The tree with all its spans moved. -/
def Node.shift (s : Shift) : Node → Node
  | ⟨kind, span, children⟩ => ⟨kind, span.shift s, shiftNodes s children⟩

/-- The trees with all their spans moved. -/
def shiftNodes (s : Shift) : List Node → List Node
  | [] => []
  | node :: rest => node.shift s :: shiftNodes s rest

end

theorem shiftNodes_eq_map (nodes : List Node) : shiftNodes s nodes = nodes.map (Node.shift s) := by
  induction nodes with
  | nil => rfl
  | cons node rest ih => simp [shiftNodes, ih]

theorem Node.shift_mk (kind : NodeKind) (span : Span) (children : List Node) :
    Node.shift s ⟨kind, span, children⟩ = ⟨kind, span.shift s, children.map (Node.shift s)⟩ := by
  rw [Node.shift, shiftNodes_eq_map]

theorem Node.ofText_shift (text : List Char) (span : Span) :
    Node.ofText text (span.shift s) = (Node.ofText text span).shift s := by
  unfold ofText
  rw [shift_mk]
  rfl

namespace Shift

/-- What is seen of a tree that is moved. -/
def moved (s : Shift) : Aspect where
  char := id
  target := id
  place := Position.shift s
  isSpace_char := Aspect.plain.isSpace_char
  place_next := Position.next_shift

theorem map_moved (s : Shift) (nodes : List Node) :
    nodes.map s.moved.node = nodes.map (Node.shift s) := by
  induction nodes using trees_induction with
  | nil => rfl
  | cons kind span children rest ihChildren ihRest =>
    have hkind : s.moved.kind kind = kind := by cases kind <;> simp [Aspect.kind, moved]
    rw [List.map_cons, List.map_cons, Aspect.node_mk, ihChildren, ihRest, hkind, Node.shift_mk]
    rfl

theorem moved_node (s : Shift) (node : Node) : s.moved.node node = node.shift s := by
  simpa using s.map_moved [node]

/-- Trees, and what they are moved to. -/
def comparison (s : Shift) : Comparison := ⟨s.moved, .plain, rfl, rfl⟩

end Shift
end InlineMarkdown
