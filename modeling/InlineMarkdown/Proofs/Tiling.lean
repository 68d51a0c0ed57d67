import InlineMarkdown.Markdown

/-! Nodes over a source text.

A span that stands for a slice of the source is the walk over what comes before the
slice and then over the slice itself (`Slice`). Nodes tile a range when each starts where
the one before it ends, as a full position. `Placed` says of a tree that every span in it
is a slice and that what wraps its children leaves them exactly the part between its
marks. Joining texts keeps both. -/
namespace InlineMarkdown

/-! ### Slices -/

/-- From `p` to `q` the source reads `text`. -/
def Slice (source : List Char) (p q : Position) (text : List Char) : Prop :=
  ∃ before after, source = before ++ (text ++ after) ∧ p = Position.advance {} before ∧
    q = p.advance text

/-- `p` is the walk over what comes before it. -/
def Position.Marks (source : List Char) (p : Position) : Prop :=
  ∃ before after, source = before ++ after ∧ byteLength before = p.offset ∧
    p = Position.advance {} before

theorem eq_nil_of_byteLength_eq_zero {text : List Char} (h : byteLength text = 0) : text = [] := by
  cases text with
  | nil => rfl
  | cons c text =>
    have := c.utf8Size_pos
    simp at h
    omega

/-- A text is cut in one way only at a number of bytes. -/
theorem append_inj_of_byteLength {a b x y : List Char} (h : a ++ x = b ++ y)
    (hlength : byteLength a = byteLength b) : a = b := by
  induction a generalizing b with
  | nil =>
    cases b with
    | nil => rfl
    | cons c b =>
      have := c.utf8Size_pos
      simp at hlength
      omega
  | cons c a ih =>
    cases b with
    | nil =>
      have := c.utf8Size_pos
      simp at hlength
      omega
    | cons d b =>
      obtain ⟨rfl, hrest⟩ := List.cons.inj h
      simp at hlength
      rw [ih hrest hlength]

namespace Slice
variable {source text text' : List Char} {p q r : Position}

theorem point (h : Slice source p q text) : Slice source p p [] := by
  obtain ⟨before, after, hsource, hp, -⟩ := h
  exact ⟨before, text ++ after, hsource, hp, rfl⟩

theorem point_stop (h : Slice source p q text) : Slice source q q [] := by
  obtain ⟨before, after, hsource, hp, hq⟩ := h
  refine ⟨before ++ text, after, by simp [hsource], ?_, rfl⟩
  rw [hq, hp, Position.advance_append]

theorem marks_start (h : Slice source p q text) : p.Marks source := by
  obtain ⟨before, after, hsource, hp, -⟩ := h
  exact ⟨before, text ++ after, hsource, by simp [hp], hp⟩

theorem marks_stop (h : Slice source p q text) : q.Marks source := by
  obtain ⟨before, after, hsource, hp, hq⟩ := h
  have hstop : q = Position.advance {} (before ++ text) := by
    rw [hq, hp, Position.advance_append]
  exact ⟨before ++ text, after, by simp [hsource], by simp [hstop], hstop⟩

/-- Slices that meet are one slice. -/
theorem append (h : Slice source p q text) (h' : Slice source q r text') :
    Slice source p r (text ++ text') := by
  obtain ⟨before, after, hsource, hp, hq⟩ := h
  obtain ⟨before', after', hsource', hq', hr⟩ := h'
  have hcut : before ++ text = before' := by
    refine append_inj_of_byteLength (x := after) (y := text' ++ after') ?_ ?_
    · rw [List.append_assoc, ← hsource, ← hsource']
    · have hoffset := congrArg Position.offset (hq.symm.trans hq')
      simpa [hp] using hoffset
  refine ⟨before, after', ?_, hp, ?_⟩
  · rw [hsource', ← hcut]
    simp
  · rw [hr, hq, Position.advance_append]

/-- Where one slice can be cut there are two. -/
theorem split (h : Slice source p r (text ++ text')) :
    Slice source p (p.advance text) text ∧ Slice source (p.advance text) r text' := by
  obtain ⟨before, after, hsource, hp, hr⟩ := h
  refine ⟨⟨before, text' ++ after, by simp [hsource], hp, rfl⟩, before ++ text, after, ?_, ?_, ?_⟩
  · simp [hsource]
  · rw [hp, Position.advance_append]
  · rw [hr, Position.advance_append]

theorem stop_eq (h : Slice source p q text) : q = p.advance text := by
  obtain ⟨_, _, _, _, hq⟩ := h
  exact hq

end Slice

/-! ### Tilings -/

/-- Each node starts where the one before it ends, from `a` to `b`. -/
def Tiles : List Node → (a b : Position) → Prop
  | [], a, b => a = b
  | node :: rest, a, b => node.span.start = a ∧ Tiles rest node.span.stop b

theorem tiles_append {nodes nodes' : List Node} {a b : Position} :
    Tiles (nodes ++ nodes') a b ↔ ∃ middle, Tiles nodes a middle ∧ Tiles nodes' middle b := by
  induction nodes generalizing a with
  | nil => simp [Tiles]
  | cons node rest ih => simp [Tiles, ih, and_assoc]

theorem tiles_singleton {node : Node} {a b : Position} :
    Tiles [node] a b ↔ node.span = ⟨a, b⟩ := by
  constructor
  · rintro ⟨rfl, rfl⟩
    rfl
  · intro h
    simp [Tiles, h]

/-- Only the spans count. -/
theorem tiles_map {f : Node → Node} (hf : ∀ node, (f node).span = node.span) {nodes : List Node}
    {a b : Position} : Tiles (nodes.map f) a b ↔ Tiles nodes a b := by
  induction nodes generalizing a with
  | nil => rfl
  | cons node rest ih => simp [Tiles, hf, ih]

/-- The span of the node is a slice of the source. -/
def Node.Covers (source : List Char) (node : Node) : Prop :=
  ∃ text, Slice source node.span.start node.span.stop text

theorem Tiles.slice {source : List Char} {nodes : List Node} {a b : Position}
    (h : Tiles nodes a b) (hnodes : ∀ node ∈ nodes, node.Covers source)
    (ha : Slice source a a []) : ∃ text, Slice source a b text := by
  induction nodes generalizing a with
  | nil =>
    obtain rfl := h
    exact ⟨[], ha⟩
  | cons node rest ih =>
    obtain ⟨rfl, hrest⟩ := h
    obtain ⟨text, htext⟩ := hnodes node (List.mem_cons_self ..)
    obtain ⟨text', htext'⟩ := ih hrest
      (fun node hnode => hnodes node (List.mem_cons_of_mem _ hnode)) htext.point_stop
    exact ⟨text ++ text', htext.append htext'⟩

/-! ### Placed trees -/

/-- The slice is `marker` `k` times on both sides, and the children, of which there is
one at least, tile what is between. -/
def Wrapped (source : List Char) (marker : Marker) (k : Nat) (span : Span)
    (children : List Node) : Prop :=
  children ≠ [] ∧ ∃ body,
    Slice source span.start span.stop (marker.run k ++ (body ++ marker.run k)) ∧
    Tiles children (span.start.advance (marker.run k)) (span.start.advance (marker.run k ++ body))

/-- The slice is a bracket, what the children tile, the closing bracket and more. -/
def Bracketed (source : List Char) (span : Span) (children : List Node) : Prop :=
  ∃ body rest, Slice source span.start span.stop ('[' :: (body ++ ']' :: rest)) ∧
    Tiles children (span.start.advance ['[']) (span.start.advance ('[' :: body))

/-- The span is that of an address in the source. -/
def IsAddress (source : List Char) (span : Span) : Prop :=
  ∃ token ∈ tokenize source, (token.kind = .autolink ∨ token.kind = .url) ∧ token.span = span

/-- What the span of a node leaves to its children. -/
def Framed (source : List Char) : NodeKind → Span → List Node → Prop
  | .emphasis, span, children => Wrapped source .asterisk 1 span children ∨
      Wrapped source .underscore 1 span children
  | .strong, span, children => Wrapped source .asterisk 2 span children ∨
      Wrapped source .underscore 2 span children
  | .strike, span, children => ∃ k, 2 ≤ k ∧ Wrapped source .tilde k span children
  | .reference .., span, children => Bracketed source span children
  | .link .., span, children => IsAddress source span ∨ Bracketed source span children
  | _, _, _ => True

/-- Every span in the tree is a slice of the source and frames what is below it, where
nodes meet without gap or overlap. -/
inductive Placed (source : List Char) : Node → Prop
  | mk {node : Node} : node.Covers source → Framed source node.kind node.span node.children →
      (∃ a b, Tiles node.children a b) → (∀ child ∈ node.children, Placed source child) →
      Placed source node

theorem Placed.covers {source : List Char} {node : Node} (h : Placed source node) :
    node.Covers source := by
  cases h with
  | mk hcovers _ _ _ => exact hcovers

theorem Placed.framed {source : List Char} {node : Node} (h : Placed source node) :
    Framed source node.kind node.span node.children := by
  cases h with
  | mk _ hframed _ _ => exact hframed

/-- A node without children is placed by its span. -/
theorem placed_leaf {source : List Char} {kind : NodeKind} {span : Span} {slice : List Char}
    (h : Slice source span.start span.stop slice) (hkind : Framed source kind span []) :
    Placed source ⟨kind, span, []⟩ :=
  .mk ⟨slice, h⟩ hkind ⟨{}, {}, rfl⟩ nofun

/-- A text can be made longer by the slice behind it. -/
theorem Placed.appendText {source text : List Char} {node joined : Node} {span : Span}
    {slice : List Char} (h : Placed source node) (hjoined : node.appendText? text span = some joined)
    (hspan : Slice source node.span.stop span.stop slice) :
    Placed source joined ∧ joined.span = ⟨node.span.start, span.stop⟩ := by
  obtain ⟨kind, ⟨start, stop⟩, children⟩ := node
  unfold Node.appendText? at hjoined
  cases kind with
  | text own =>
    obtain rfl := Option.some.inj hjoined
    cases h with
    | mk hcovers _ htiles hbelow =>
      obtain ⟨slice', hslice'⟩ := hcovers
      exact ⟨.mk ⟨slice' ++ slice, hslice'.append hspan⟩ trivial htiles hbelow, rfl⟩
  | _ => exact nomatch hjoined

/-! ### Joined texts -/

theorem absorb_ne_nil (last : Node) (nodes : List Node) : absorb last nodes ≠ [] := by
  induction nodes generalizing last with
  | nil => nofun
  | cons node rest ih =>
    unfold absorb
    split
    · exact ih _
    · nofun

theorem joinText_ne_nil {nodes : List Node} (h : nodes ≠ []) : joinText nodes ≠ [] := by
  cases nodes with
  | nil => exact absurd rfl h
  | cons node rest => exact absorb_ne_nil node rest

theorem absorb_placed {source : List Char} {last : Node} {nodes : List Node} {a b : Position}
    (htiles : Tiles (last :: nodes) a b) (hplaced : ∀ node ∈ last :: nodes, Placed source node) :
    Tiles (absorb last nodes) a b ∧ ∀ node ∈ absorb last nodes, Placed source node := by
  induction nodes generalizing last a with
  | nil => exact ⟨htiles, hplaced⟩
  | cons node rest ih =>
    have hlast := hplaced last (List.mem_cons_self ..)
    have hnode := hplaced node (List.mem_cons_of_mem _ (List.mem_cons_self ..))
    have hrest := fun n hn => hplaced n (List.mem_cons_of_mem _ (List.mem_cons_of_mem _ hn))
    obtain ⟨rfl, hstart, htiles⟩ := htiles
    unfold absorb
    split
    · rename_i joined hjoined
      obtain ⟨text, -, hjoined⟩ := Option.bind_eq_some_iff.1 hjoined
      obtain ⟨slice, hslice⟩ := hnode.covers
      rw [hstart] at hslice
      obtain ⟨hplaced, hspan⟩ := hlast.appendText hjoined hslice
      refine ih ⟨by rw [hspan], by rw [hspan]; exact htiles⟩ fun n hn => ?_
      rcases List.mem_cons.1 hn with rfl | hn
      · exact hplaced
      · exact hrest n hn
    · obtain ⟨htiles, hplaced⟩ := ih ⟨hstart, htiles⟩
        fun n hn => hplaced n (List.mem_cons_of_mem _ hn)
      refine ⟨⟨rfl, htiles⟩, fun n hn => ?_⟩
      rcases List.mem_cons.1 hn with rfl | hn
      · exact hlast
      · exact hplaced n hn

theorem joinText_placed {source : List Char} {nodes : List Node} {a b : Position}
    (htiles : Tiles nodes a b) (hplaced : ∀ node ∈ nodes, Placed source node) :
    Tiles (joinText nodes) a b ∧ ∀ node ∈ joinText nodes, Placed source node := by
  cases nodes with
  | nil => exact ⟨htiles, nofun⟩
  | cons node rest => exact absorb_placed htiles hplaced

theorem span_coalesce (node : Node) : node.coalesce.span = node.span := by
  obtain ⟨kind, span, children⟩ := node
  rfl

/-- Joining texts below a node leaves its children where they were. -/
theorem Framed.joinText {source : List Char} {kind : NodeKind} {span : Span}
    {children children' : List Node} (h : Framed source kind span children)
    (hne : children ≠ [] → children' ≠ [])
    (htiles : ∀ {a b}, Tiles children a b → Tiles children' a b) :
    Framed source kind span children' := by
  have hwrapped {marker : Marker} {k : Nat} (h : Wrapped source marker k span children) :
      Wrapped source marker k span children' := by
    obtain ⟨hchildren, body, hslice, htile⟩ := h
    exact ⟨hne hchildren, body, hslice, htiles htile⟩
  have hbracketed (h : Bracketed source span children) : Bracketed source span children' := by
    obtain ⟨body, rest, hslice, htile⟩ := h
    exact ⟨body, rest, hslice, htiles htile⟩
  cases kind with
  | emphasis | strong => exact h.imp hwrapped hwrapped
  | strike =>
    obtain ⟨k, hk, h⟩ := h
    exact ⟨k, hk, hwrapped h⟩
  | reference => exact hbracketed h
  | link => exact h.imp_right hbracketed
  | _ => trivial

theorem Placed.coalesce {source : List Char} {node : Node} (h : Placed source node) :
    Placed source node.coalesce := by
  induction h with
  | @mk node hcovers hframed htiles _ ih =>
    obtain ⟨kind, span, children⟩ := node
    unfold Node.coalesce
    rw [coalesceEach_eq_map]
    have hmap : ∀ n ∈ children.map Node.coalesce, Placed source n := by
      intro n hn
      obtain ⟨child, hchild, rfl⟩ := List.mem_map.1 hn
      exact ih child hchild
    have hjoined {a b : Position} (htiles : Tiles children a b) :=
      joinText_placed ((tiles_map span_coalesce).2 htiles) hmap
    obtain ⟨a, b, htiles⟩ := htiles
    refine .mk hcovers (hframed.joinText ?_ fun htiles => (hjoined htiles).1)
      ⟨a, b, (hjoined htiles).1⟩ (hjoined htiles).2
    intro hne
    exact joinText_ne_nil fun hnil => hne (List.map_eq_nil_iff.1 hnil)

/-- Joining texts at every depth leaves a tiling as it is. -/
theorem coalesce_placed {source : List Char} {nodes : List Node} {a b : Position}
    (htiles : Tiles nodes a b) (hplaced : ∀ node ∈ nodes, Placed source node) :
    Tiles (coalesce nodes) a b ∧ ∀ node ∈ coalesce nodes, Placed source node := by
  unfold coalesce
  rw [coalesceEach_eq_map]
  refine joinText_placed ((tiles_map span_coalesce).2 htiles) fun n hn => ?_
  obtain ⟨node, hnode, rfl⟩ := List.mem_map.1 hn
  exact (hplaced node hnode).coalesce

end InlineMarkdown
