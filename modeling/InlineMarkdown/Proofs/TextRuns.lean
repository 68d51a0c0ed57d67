import InlineMarkdown.Proofs.Joining
import InlineMarkdown.Render.Plain

/-! Runs of texts.

Joining makes one text of every maximal run of neighbouring texts and leaves all other nodes where
they are, at every depth (`Joins`). That says what joining does (`joins_iff`), and what it keeps is
read off run by run: texts that are put together say what they said one by one, and nothing else
has moved. -/
namespace InlineMarkdown

variable {nodes joined children : List Node} {node first : Node}

/-! ### Joined runs -/

/-- The text that a run of texts becomes. -/
def textRun (first : Node) (more children : List Node) : Node :=
  ⟨.text ((first :: more).flatMap (·.ownText)),
    ⟨first.span.start, ((first :: more).getLast (List.cons_ne_nil first more)).span.stop⟩, children⟩

/-- The second list is the first with each maximal run of neighbouring texts made one text, at every
depth. Of the children of the texts in a run those of the first are left. -/
inductive Joins : (nodes joined : List Node) → Prop
  | nil : Joins [] []
  | other {node : Node} {children rest joined : List Node} : node.isText = false →
      Joins node.children children → Joins rest joined →
      Joins (node :: rest) ({ node with children } :: joined)
  | run {first : Node} {more children rest joined : List Node} :
      (∀ node ∈ first :: more, node.isText = true) → (∀ next ∈ rest.head?, next.isText = false) →
      Joins first.children children → Joins rest joined →
      Joins (first :: (more ++ rest)) (textRun first more children :: joined)

theorem textRun_nil (h : node.isText = true) (children : List Node) :
    textRun node [] children = { node with children } := by
  obtain ⟨text, htext⟩ := Node.isText_iff.1 h
  obtain ⟨kind, span, own⟩ := node
  obtain rfl : kind = .text text := htext
  simp [textRun, Node.ownText, Node.text?]

/-- A text in front of a run is joined to it. -/
theorem join?_textRun (h : node.isText = true) (first : Node) (more children below : List Node) :
    Node.join? { node with children } (textRun first more below) =
      some (textRun node (first :: more) children) := by
  obtain ⟨text, htext⟩ := Node.isText_iff.1 h
  have hkind : Node.kind { node with children } = .text text := htext
  have hown : node.ownText = text := by simp [Node.ownText, Node.text?, htext]
  rw [Node.join?_text hkind rfl]
  simp [textRun, hown]

/-- A node in front of joined ones, with its own joined below it. -/
theorem Joins.cons (hchildren : Joins node.children children) (h : Joins nodes joined) :
    Joins (node :: nodes) (joinOnto { node with children } joined) := by
  cases hnode : node.isText with
  | false =>
    have hother : Node.isText { node with children } = false := hnode
    rw [joinOnto_of_isText_eq_false hother]
    exact .other hnode hchildren h
  | true =>
    have halone : ∀ other ∈ [node], other.isText = true := by simpa using hnode
    cases h with
    | nil =>
      rw [joinOnto, ← textRun_nil hnode]
      exact .run halone (by simp) hchildren .nil
    | @other next below rest behind hother hbelow hrest =>
      have hapart : Node.join? { node with children } { next with children := below } = none :=
        Node.join?_eq_none.2 (.inr hother)
      rw [joinOnto_cons, hapart, Option.elim_none, ← textRun_nil hnode]
      refine .run halone (fun head hhead => ?_) hchildren (.other hother hbelow hrest)
      obtain rfl := Option.some.inj hhead
      exact hother
    | run htexts hends _ hrest =>
      rw [joinOnto_cons, join?_textRun hnode, Option.elim_some]
      exact .run (List.forall_mem_cons.2 ⟨hnode, htexts⟩) hends hchildren hrest

/-- Joining does what it should. -/
theorem joins_coalesce (nodes : List Node) : Joins nodes (coalesce nodes) := by
  induction nodes using trees_induction with
  | nil => exact .nil
  | cons kind span children rest ihChildren ihRest =>
    rw [coalesce_cons, Node.coalesce_eq]
    exact ihChildren.cons ihRest

/-- A run and what is behind it are joined apart from each other. -/
theorem coalesce_run {more rest : List Node} (htexts : ∀ node ∈ first :: more, node.isText = true)
    (hends : ∀ next ∈ rest.head?, next.isText = false) :
    coalesce (first :: (more ++ rest)) =
      textRun first more (coalesce first.children) :: coalesce rest := by
  induction more generalizing first with
  | nil =>
    rw [textRun_nil (htexts first List.mem_cons_self), List.nil_append, coalesce_cons,
      Node.coalesce_eq]
    cases rest with
    | nil => rfl
    | cons next rest =>
      have hnext : next.coalesce.isText = false := by
        rw [Node.coalesce_eq]
        exact hends next rfl
      rw [coalesce_cons, joinOnto_of_isText_eq_false hnext, joinOnto_cons,
        Node.join?_eq_none.2 (.inr hnext), Option.elim_none]
  | cons second more ih =>
    obtain ⟨hfirst, hmore⟩ := List.forall_mem_cons.1 htexts
    rw [coalesce_cons, Node.coalesce_eq, List.cons_append, ih hmore, joinOnto_cons,
      join?_textRun hfirst, Option.elim_some]

/-- The runs of the trees determine what joining makes of them. -/
theorem joins_iff : Joins nodes joined ↔ joined = coalesce nodes := by
  constructor
  · intro h
    induction h with
    | nil => rfl
    | @other node _ _ _ hother _ _ ihChildren ihRest =>
      have hcoalesced : node.coalesce.isText = false := by
        rw [Node.coalesce_eq]
        exact hother
      rw [coalesce_cons, joinOnto_of_isText_eq_false hcoalesced, Node.coalesce_eq, ihChildren, ihRest]
    | run htexts hends _ _ ihChildren ihRest => rw [coalesce_run htexts hends, ihChildren, ihRest]
  · rintro rfl
    exact joins_coalesce nodes

/-! ### Text of joined trees -/

theorem plainText_joinOnto (node : Node) (nodes : List Node) :
    plainText (joinOnto node nodes) = plainText (node :: nodes) := by
  cases nodes with
  | nil => rfl
  | cons next rest =>
    rw [joinOnto_cons]
    cases hjoin : node.join? next with
    | none => rfl
    | some joined =>
      obtain ⟨own, text, hown, htext, rfl⟩ := Node.join?_eq_some.1 hjoin
      obtain ⟨kind, span, children⟩ := node
      obtain ⟨kind', span', children'⟩ := next
      subst hown htext
      simp [plainText, Node.plainText]

/-- The plain text of a node depends on the plain text of what is below it. -/
theorem plainText_withChildren (kind : NodeKind) (span : Span) {children others : List Node}
    (h : plainText children = plainText others) :
    Node.plainText ⟨kind, span, children⟩ = Node.plainText ⟨kind, span, others⟩ := by
  unfold Node.plainText
  rw [h]

theorem plainText_coalesce (nodes : List Node) : plainText (coalesce nodes) = plainText nodes := by
  induction nodes using trees_induction with
  | nil => rfl
  | cons kind span children rest ihChildren ihRest =>
    rw [coalesce_cons, Node.coalesce_eq, plainText_joinOnto, plainText, plainText, ihRest,
      plainText_withChildren kind span ihChildren]

theorem textContent_withChildren (kind : NodeKind) (span : Span) {children others : List Node}
    (h : flattenText children = flattenText others) :
    Node.textContent ⟨kind, span, children⟩ = Node.textContent ⟨kind, span, others⟩ := by
  unfold Node.textContent
  rw [h]

/-- Of the children of joined texts only the first one's are left, in front of the other texts. -/
theorem flattenText_joinOnto {node : Node} {nodes : List Node} (h : Bare (node :: nodes)) :
    flattenText (joinOnto node nodes) = flattenText (node :: nodes) := by
  cases nodes with
  | nil => rfl
  | cons next rest =>
    rw [joinOnto_cons]
    cases hjoin : node.join? next with
    | none => rfl
    | some joined =>
      obtain ⟨own, text, hown, htext, rfl⟩ := Node.join?_eq_some.1 hjoin
      obtain ⟨hnode, -, hnodes⟩ := bare_cons.1 h
      have hchildren := hnode (Node.isText_iff.2 ⟨own, hown⟩)
      have hbelow := (bare_cons.1 hnodes).1 (Node.isText_iff.2 ⟨text, htext⟩)
      obtain ⟨kind, span, children⟩ := node
      obtain ⟨kind', span', children'⟩ := next
      subst hown htext hchildren hbelow
      simp [flattenText, Node.textContent]

theorem flattenText_coalesce {nodes : List Node} (h : Bare nodes) :
    flattenText (coalesce nodes) = flattenText nodes := by
  induction nodes using trees_induction with
  | nil => rfl
  | cons kind span children rest ihChildren ihRest =>
    obtain ⟨hnode, hchildren, hrest⟩ := bare_cons.1 h
    have hjoined : Bare (Node.coalesce ⟨kind, span, children⟩ :: coalesce rest) :=
      .coalesced hnode hchildren.coalesce hrest.coalesce
    rw [coalesce_cons, flattenText_joinOnto hjoined, Node.coalesce_eq, flattenText, flattenText,
      ihRest hrest, textContent_withChildren kind span (ihChildren hchildren)]

/-! ### What joining does -/

/-- Joining normalizes trees and keeps what they say, whatever the trees. No two neighbours are both
text afterwards, at any depth, and joining once more changes nothing. The plain text is the same,
and so are the texts of all text nodes if no text has children. The outcome is the one in which
every maximal run of neighbouring texts has become one text, with the texts of the run, from the
first one's start to the last one's end. -/
theorem coalesce_normalizes (nodes : List Node) :
    Separate (coalesce nodes) ∧ coalesce (coalesce nodes) = coalesce nodes ∧
      plainText (coalesce nodes) = plainText nodes ∧
      (Bare nodes → flattenText (coalesce nodes) = flattenText nodes) ∧
      ∀ joined, Joins nodes joined ↔ joined = coalesce nodes :=
  ⟨coalesce_separate nodes, (coalesce_tidy nodes).coalesce, plainText_coalesce nodes,
    flattenText_coalesce, fun _ => joins_iff⟩

/-- Joined at two depths. -/
theorem coalesce_normalizes_strong :
    let nodes := [Node.ofText ['a'] {}, .ofText ['b'] {}, ⟨.strong, {}, [.ofText ['c'] {}]⟩]
    Bare nodes ∧ flattenText (coalesce nodes) = flattenText nodes := by
  have hbare : Bare [Node.ofText ['a'] {}, .ofText ['b'] {}, ⟨.strong, {}, [.ofText ['c'] {}]⟩] := by
    unfold Bare
    decide
  exact ⟨hbare, (coalesce_normalizes _).2.2.2.1 hbare⟩

end InlineMarkdown
