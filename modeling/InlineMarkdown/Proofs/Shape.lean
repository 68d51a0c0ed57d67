import InlineMarkdown.Tree.Coalesce

/-! Trees without their spans.

Two trees have the same shape when they differ in their spans alone. Text that is told from
its neighbours is not joined to anything, so that a tree without neighbouring texts is
what joining them leaves of it (`Tidy`). -/
namespace InlineMarkdown

mutual

/-- The tree without its spans. -/
def Node.shape : Node → Node
  | ⟨kind, _, children⟩ => ⟨kind, {}, shapes children⟩

/-- The trees without their spans. -/
def shapes : List Node → List Node
  | [] => []
  | node :: rest => node.shape :: shapes rest

end

@[simp] theorem shapes_nil : shapes [] = [] := rfl

@[simp] theorem shapes_cons (node : Node) (rest : List Node) :
    shapes (node :: rest) = node.shape :: shapes rest := rfl

theorem Node.shape_eq (node : Node) : node.shape = ⟨node.kind, {}, shapes node.children⟩ := by
  cases node
  rw [Node.shape]

@[simp] theorem shapes_append (a b : List Node) : shapes (a ++ b) = shapes a ++ shapes b := by
  induction a with
  | nil => rfl
  | cons node rest ih => simp [ih]

theorem shapes_eq_cons {nodes : List Node} {shape : Node} {rest : List Node}
    (h : shapes nodes = shape :: rest) :
    ∃ node tail, nodes = node :: tail ∧ node.shape = shape ∧ shapes tail = rest := by
  cases nodes with
  | nil => exact nomatch h
  | cons node tail =>
    obtain ⟨hnode, htail⟩ := List.cons.inj h
    exact ⟨node, tail, rfl, hnode, htail⟩

theorem shapes_eq_nil {nodes : List Node} (h : shapes nodes = []) : nodes = [] := by
  cases nodes with
  | nil => rfl
  | cons => exact nomatch h

/-! ### What shapes keep -/

theorem kind_of_shape {node other : Node} (h : node.shape = other.shape) : node.kind = other.kind := by
  rw [node.shape_eq, other.shape_eq] at h
  have hkind := congrArg Node.kind h
  exact hkind

theorem children_of_shape {node other : Node} (h : node.shape = other.shape) :
    shapes node.children = shapes other.children := by
  rw [node.shape_eq, other.shape_eq] at h
  have hchildren := congrArg Node.children h
  exact hchildren

mutual

theorem textContent_shape : (node : Node) → node.shape.textContent = node.textContent
  | ⟨kind, span, children⟩ => by
    unfold Node.shape Node.textContent
    rw [flattenText_shapes children]

theorem flattenText_shapes : (nodes : List Node) → flattenText (shapes nodes) = flattenText nodes
  | [] => rfl
  | node :: rest => by
    simp only [shapes_cons, flattenText]
    rw [textContent_shape node, flattenText_shapes rest]

end

theorem flattenText_of_shapes {nodes others : List Node} (h : shapes nodes = shapes others) :
    flattenText nodes = flattenText others := by
  rw [← flattenText_shapes nodes, h, flattenText_shapes]

/-! ### Tidy trees -/

/-- Joining texts at every depth changes nothing. -/
structure Tidy (nodes : List Node) : Prop where
  each : coalesceEach nodes = nodes
  top : joinText nodes = nodes

theorem Tidy.coalesce {nodes : List Node} (h : Tidy nodes) : coalesce nodes = nodes := by
  unfold InlineMarkdown.coalesce
  rw [h.each, h.top]

theorem Tidy.nil : Tidy [] := ⟨rfl, rfl⟩

/-- A node in front of tidy ones, of which the first is not text if the node is. -/
theorem Tidy.cons {node : Node} {rest : List Node} (hchildren : Tidy node.children)
    (hrest : Tidy rest) (hapart : ∀ next ∈ rest.head?, node.isText = false ∨ next.isText = false) :
    Tidy (node :: rest) := by
  have hnode : node.coalesce = node := by
    obtain ⟨kind, span, children⟩ := node
    unfold Node.coalesce
    rw [hchildren.each, hchildren.top]
  refine ⟨by rw [coalesceEach, hnode, hrest.each], ?_⟩
  cases rest with
  | nil => rfl
  | cons next rest =>
    have hstop : next.text?.bind (node.appendText? · next.span) = none := by
      rcases hapart next rfl with h | h
      · cases htext : next.text? with
        | none => rfl
        | some text =>
          obtain ⟨kind, span, children⟩ := node
          cases kind <;> first | rfl | cases h
      · have : next.text? = none := by simpa [Node.isText] using h
        rw [this]
        rfl
    have hjoin := hrest.top
    simp only [joinText] at hjoin ⊢
    rw [absorb, hstop]
    dsimp only
    rw [hjoin]

end InlineMarkdown
