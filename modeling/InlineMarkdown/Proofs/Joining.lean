import InlineMarkdown.Proofs.Shape
import Mathlib.Data.List.Chain

/-! What joining texts leaves.

Texts are joined from the left, but the outcome can be read from the right: the first tree
is joined to what joining leaves of the others (`coalesce_cons`). So induction over trees
shows that no two neighbours are both text afterwards, at any depth (`coalesce_separate`),
and that joining once more changes nothing (`coalesce_tidy`). Texts without children stay
without (`Bare.coalesce`). -/
namespace InlineMarkdown

/-! ### Trees at any depth -/

/-- What holds of no trees, and of a tree in front of others if it holds of its children and
of the others, holds of all trees. -/
theorem trees_induction {P : List Node → Prop} (nil : P [])
    (cons : ∀ kind span children rest, P children → P rest → P (⟨kind, span, children⟩ :: rest)) :
    ∀ nodes, P nodes
  | [] => nil
  | ⟨kind, span, children⟩ :: rest =>
    cons kind span children rest (trees_induction nil cons children) (trees_induction nil cons rest)

mutual

/-- The nodes below a node, each in front of those below it. -/
def Node.descendants : Node → List Node
  | ⟨_, _, children⟩ => treeNodes children

/-- The nodes of some trees. -/
def treeNodes : List Node → List Node
  | [] => []
  | node :: rest => node :: (node.descendants ++ treeNodes rest)

end

theorem Node.descendants_eq (node : Node) : node.descendants = treeNodes node.children := by
  cases node
  rw [Node.descendants]

theorem mem_treeNodes {nodes : List Node} {node : Node} :
    node ∈ treeNodes nodes ↔ ∃ root ∈ nodes, node = root ∨ node ∈ root.descendants := by
  induction nodes with
  | nil => simp [treeNodes]
  | cons root rest ih => simp [treeNodes, ih, or_assoc]

theorem forall_mem_treeNodes_cons {P : Node → Prop} {node : Node} {rest : List Node} :
    (∀ n ∈ treeNodes (node :: rest), P n) ↔
      P node ∧ (∀ n ∈ treeNodes node.children, P n) ∧ ∀ n ∈ treeNodes rest, P n := by
  simp only [treeNodes, node.descendants_eq, List.forall_mem_cons, List.forall_mem_append]

theorem treeNodes_append (a b : List Node) : treeNodes (a ++ b) = treeNodes a ++ treeNodes b := by
  induction a with
  | nil => rfl
  | cons node rest ih =>
    rw [List.cons_append, treeNodes, ih, treeNodes, List.cons_append, List.append_assoc]

/-! ### Neighbours -/

/-- No two neighbours are both text. -/
def Apart (nodes : List Node) : Prop :=
  nodes.IsChain fun a b => a.isText = false ∨ b.isText = false

theorem apart_cons {node : Node} {rest : List Node} : Apart (node :: rest) ↔
    (∀ next ∈ rest.head?, node.isText = false ∨ next.isText = false) ∧ Apart rest :=
  List.isChain_cons

/-- No two neighbours are both text, at any depth. -/
structure Separate (nodes : List Node) : Prop where
  top : Apart nodes
  below : ∀ node ∈ treeNodes nodes, Apart node.children

theorem Separate.nil : Separate [] := ⟨.nil, nofun⟩

theorem separate_cons {node : Node} {rest : List Node} : Separate (node :: rest) ↔
    (∀ next ∈ rest.head?, node.isText = false ∨ next.isText = false) ∧
      Separate node.children ∧ Separate rest := by
  constructor
  · rintro ⟨htop, hbelow⟩
    obtain ⟨hhead, hrest⟩ := apart_cons.1 htop
    obtain ⟨hnode, hchildren, hbehind⟩ := forall_mem_treeNodes_cons.1 hbelow
    exact ⟨hhead, ⟨hnode, hchildren⟩, hrest, hbehind⟩
  · rintro ⟨hhead, ⟨hnode, hchildren⟩, hrest, hbehind⟩
    exact ⟨apart_cons.2 ⟨hhead, hrest⟩, forall_mem_treeNodes_cons.2 ⟨hnode, hchildren, hbehind⟩⟩

theorem Separate.tidy {nodes : List Node} (h : Separate nodes) : Tidy nodes := by
  induction nodes using trees_induction with
  | nil => exact .nil
  | cons kind span children rest ihChildren ihRest =>
    obtain ⟨hhead, hchildren, hrest⟩ := separate_cons.1 h
    exact .cons (ihChildren hchildren) (ihRest hrest) hhead

theorem Separate.append {nodes others : List Node} (h : Separate nodes) (h' : Separate others)
    (hhead : ∀ next ∈ others.head?, next.isText = false) : Separate (nodes ++ others) := by
  induction nodes with
  | nil => exact h'
  | cons node rest ih =>
    obtain ⟨hfirst, hchildren, hrest⟩ := separate_cons.1 h
    refine separate_cons.2 ⟨fun next hnext => ?_, hchildren, ih hrest⟩
    cases rest with
    | nil => exact .inr (hhead next hnext)
    | cons => exact hfirst next hnext

/-! ### Joining from the right -/

/-- The node made longer by the text behind it, if both are text. -/
def Node.join? (node next : Node) : Option Node :=
  next.text?.bind (node.appendText? · next.span)

/-- The node in front of trees, joined to the first of them if both are text. -/
def joinOnto (node : Node) : List Node → List Node
  | [] => [node]
  | next :: rest => (node.join? next).elim (node :: next :: rest) (· :: rest)

@[simp] theorem joinOnto_cons (node next : Node) (rest : List Node) : joinOnto node (next :: rest) =
    (node.join? next).elim (node :: next :: rest) (· :: rest) := rfl

/-- Two nodes are joined when both are text. -/
theorem Node.join?_eq_some {node next joined : Node} :
    node.join? next = some joined ↔ ∃ own text, node.kind = .text own ∧ next.kind = .text text ∧
      joined = ⟨.text (own ++ text), ⟨node.span.start, next.span.stop⟩, node.children⟩ := by
  obtain ⟨kind, ⟨start, stop⟩, children⟩ := node
  obtain ⟨kind', span', children'⟩ := next
  cases kind' <;> cases kind <;> simp [join?, text?, appendText?, eq_comm]

theorem Node.join?_text {node next : Node} {own text : List Char} (hnode : node.kind = .text own)
    (hnext : next.kind = .text text) : node.join? next =
      some ⟨.text (own ++ text), ⟨node.span.start, next.span.stop⟩, node.children⟩ :=
  join?_eq_some.2 ⟨own, text, hnode, hnext, rfl⟩

theorem Node.join?_eq_none {node next : Node} :
    node.join? next = none ↔ node.isText = false ∨ next.isText = false := by
  obtain ⟨kind, ⟨start, stop⟩, children⟩ := node
  obtain ⟨kind', span', children'⟩ := next
  cases kind' <;> cases kind <;> simp [join?, text?, appendText?, isText]

theorem Node.isText_iff {node : Node} : node.isText = true ↔ ∃ text, node.kind = .text text := by
  obtain ⟨kind, span, children⟩ := node
  cases kind <;> simp [isText, text?]

theorem joinOnto_of_isText_eq_false {node : Node} (h : node.isText = false) (nodes : List Node) :
    joinOnto node nodes = node :: nodes := by
  cases nodes with
  | nil => rfl
  | cons next rest => simp only [joinOnto, Node.join?_eq_none.2 (.inl h), Option.elim_none]

/-- What is joined begins with a text if the node is one. -/
theorem exists_joinOnto (node : Node) (nodes : List Node) :
    ∃ head tail, joinOnto node nodes = head :: tail ∧ head.isText = node.isText := by
  cases nodes with
  | nil => exact ⟨node, [], rfl, rfl⟩
  | cons next rest =>
    cases hjoin : node.join? next with
    | none => exact ⟨node, next :: rest, by simp [joinOnto, hjoin], rfl⟩
    | some joined =>
      refine ⟨joined, rest, by simp [joinOnto, hjoin], ?_⟩
      obtain ⟨own, text, hnode, -, rfl⟩ := Node.join?_eq_some.1 hjoin
      rw [Node.isText_iff.2 ⟨own, hnode⟩]
      rfl

/-- Two texts and what is behind them are joined in either order. -/
theorem joinOnto_joinOnto {last node joined : Node} (h : last.join? node = some joined)
    (nodes : List Node) : joinOnto last (joinOnto node nodes) = joinOnto joined nodes := by
  obtain ⟨own, text, hlast, hnode, rfl⟩ := Node.join?_eq_some.1 h
  cases nodes with
  | nil => simp [joinOnto, h]
  | cons next rest =>
    cases hnext : next.isText with
    | false => simp [joinOnto, h, Node.join?_eq_none.2 (.inr hnext)]
    | true =>
      obtain ⟨more, hmore⟩ := Node.isText_iff.1 hnext
      rw [joinOnto_cons, joinOnto_cons, Node.join?_text hnode hmore, Node.join?_text rfl hmore]
      simp only [Option.elim_some, joinOnto_cons]
      rw [Node.join?_text hlast rfl, List.append_assoc]
      rfl

theorem absorb_cons (last node : Node) (rest : List Node) : absorb last (node :: rest) =
    (last.join? node).elim (last :: absorb node rest) (absorb · rest) := by
  rw [absorb, Node.join?]
  cases node.text?.bind (last.appendText? · node.span) <;> rfl

theorem absorb_eq_joinOnto (last : Node) (nodes : List Node) :
    absorb last nodes = joinOnto last (joinText nodes) := by
  induction nodes generalizing last with
  | nil => rfl
  | cons node rest ih =>
    rw [absorb_cons]
    show _ = joinOnto last (absorb node rest)
    rw [ih node]
    cases hjoin : last.join? node with
    | some joined =>
      rw [joinOnto_joinOnto hjoin]
      exact ih joined
    | none =>
      -- What stands behind begins with a text only if the node is one.
      obtain ⟨head, tail, hhead, htext⟩ := exists_joinOnto node (joinText rest)
      have hnone : last.join? head = none := by
        rw [Node.join?_eq_none, htext]
        exact Node.join?_eq_none.1 hjoin
      rw [hhead, joinOnto_cons, hnone]
      rfl

/-! ### Joining at every depth -/

theorem Node.coalesce_eq (node : Node) :
    node.coalesce = { node with children := InlineMarkdown.coalesce node.children } := by
  cases node
  rw [Node.coalesce, InlineMarkdown.coalesce]

theorem Node.coalesce_of_tidy {node : Node} (h : Tidy node.children) : node.coalesce = node := by
  rw [node.coalesce_eq, h.coalesce]
  cases node
  rfl

theorem coalesce_cons (node : Node) (rest : List Node) :
    coalesce (node :: rest) = joinOnto node.coalesce (coalesce rest) :=
  absorb_eq_joinOnto node.coalesce (coalesceEach rest)

/-- Joined trees stay separate with another in front of them, if they are below it. -/
theorem Separate.joinOnto {node : Node} {nodes : List Node} (hnode : Separate node.children)
    (h : Separate nodes) : Separate (joinOnto node nodes) := by
  cases nodes with
  | nil => exact separate_cons.2 ⟨nofun, hnode, .nil⟩
  | cons next rest =>
    obtain ⟨hhead, -, hrest⟩ := separate_cons.1 h
    cases hjoin : node.join? next with
    | none =>
      simp only [joinOnto_cons, hjoin, Option.elim_none]
      refine separate_cons.2 ⟨fun n hn => ?_, hnode, h⟩
      obtain rfl := Option.some.inj hn
      exact Node.join?_eq_none.1 hjoin
    | some joined =>
      obtain ⟨own, text, hown, htext, rfl⟩ := Node.join?_eq_some.1 hjoin
      simp only [joinOnto_cons, hjoin, Option.elim_some]
      rw [Node.isText_iff.2 ⟨text, htext⟩] at hhead
      exact separate_cons.2 ⟨hhead, hnode, hrest⟩

/-- Joining leaves no two neighbours that are both text, at any depth. -/
theorem coalesce_separate (nodes : List Node) : Separate (coalesce nodes) := by
  induction nodes using trees_induction with
  | nil => exact .nil
  | cons kind span children rest ihChildren ihRest =>
    rw [coalesce_cons, Node.coalesce_eq]
    exact .joinOnto ihChildren ihRest

/-- Of nothing but texts joining makes nothing else. -/
theorem coalesce_isText {nodes : List Node} (h : ∀ node ∈ nodes, node.isText = true) :
    ∀ node ∈ coalesce nodes, node.isText = true := by
  induction nodes with
  | nil => exact nofun
  | cons node rest ih =>
    obtain ⟨hnode, hrest⟩ := List.forall_mem_cons.1 h
    obtain ⟨own, hown⟩ := Node.isText_iff.1 hnode
    have hkind : node.coalesce.kind = .text own := by
      rw [Node.coalesce_eq]
      exact hown
    have hjoined := ih hrest
    rw [coalesce_cons]
    generalize coalesce rest = nodes at hjoined
    cases nodes with
    | nil => exact List.forall_mem_cons.2 ⟨Node.isText_iff.2 ⟨own, hkind⟩, nofun⟩
    | cons next behind =>
      obtain ⟨hnext, hbehind⟩ := List.forall_mem_cons.1 hjoined
      obtain ⟨text, htext⟩ := Node.isText_iff.1 hnext
      rw [joinOnto_cons, Node.join?_text hkind htext]
      exact List.forall_mem_cons.2 ⟨rfl, hbehind⟩

/-- Joining once more changes nothing. -/
theorem coalesce_tidy (nodes : List Node) : Tidy (coalesce nodes) :=
  (coalesce_separate nodes).tidy

/-! ### Texts without children -/

/-- No text has nodes below it. -/
def Bare (nodes : List Node) : Prop :=
  ∀ node ∈ treeNodes nodes, node.isText = true → node.children = []

theorem Bare.nil : Bare [] := nofun

theorem bare_cons {node : Node} {rest : List Node} : Bare (node :: rest) ↔
    (node.isText = true → node.children = []) ∧ Bare node.children ∧ Bare rest :=
  forall_mem_treeNodes_cons

theorem bare_append {a b : List Node} : Bare (a ++ b) ↔ Bare a ∧ Bare b := by
  unfold Bare
  rw [treeNodes_append]
  exact List.forall_mem_append

theorem bare_ofText (text : List Char) (span : Span) : Bare [Node.ofText text span] :=
  bare_cons.2 ⟨fun _ => rfl, .nil, .nil⟩

theorem Bare.joinOnto {node : Node} {nodes : List Node} (h : Bare (node :: nodes)) :
    Bare (joinOnto node nodes) := by
  cases nodes with
  | nil => exact h
  | cons next rest =>
    rw [joinOnto_cons]
    cases hjoin : node.join? next with
    | none => exact h
    | some joined =>
      obtain ⟨own, text, hown, -, rfl⟩ := Node.join?_eq_some.1 hjoin
      obtain ⟨hnode, hchildren, hrest⟩ := bare_cons.1 h
      exact bare_cons.2 ⟨fun _ => hnode (Node.isText_iff.2 ⟨own, hown⟩), hchildren,
        (bare_cons.1 hrest).2.2⟩

theorem Bare.coalesced {node : Node} {rest : List Node}
    (hnode : node.isText = true → node.children = []) (hchildren : Bare (coalesce node.children))
    (hrest : Bare rest) : Bare (node.coalesce :: rest) := by
  rw [Node.coalesce_eq]
  refine bare_cons.2 ⟨fun htext => ?_, hchildren, hrest⟩
  show InlineMarkdown.coalesce node.children = []
  rw [hnode htext]
  rfl

theorem Bare.coalesce {nodes : List Node} (h : Bare nodes) : Bare (coalesce nodes) := by
  induction nodes using trees_induction with
  | nil => exact .nil
  | cons kind span children rest ihChildren ihRest =>
    obtain ⟨hnode, hchildren, hrest⟩ := bare_cons.1 h
    rw [coalesce_cons]
    exact .joinOnto (.coalesced hnode (ihChildren hchildren) (ihRest hrest))

end InlineMarkdown
