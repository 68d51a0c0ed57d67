import InlineMarkdown.Inline.Delimiter
import InlineMarkdown.Proofs.Joining
import InlineMarkdown.Text.Whitespace

/-! Aspects of nodes.

An `Aspect` keeps of a tree what matters for some purpose: it maps the characters of its texts,
the targets of its links and the places where nodes stand. Building trees respects every aspect:
what is seen of the result is decided by what is seen of the parts. This is shown for joining
texts (`Aspect.coalesce`) and for all that a draft is put together by (`Aspect.pushText`,
`Aspect.resolveUpTo`, `Aspect.finish`), there for two drafts that look the same. -/
namespace InlineMarkdown

theorem trim_map {f : Char → Char} (h : ∀ c, isSpace (f c) = isSpace c) (text : List Char) :
    trim (text.map f) = (trim text).map f := by
  have hleft (text : List Char) : trimLeft (text.map f) = (trimLeft text).map f := by
    unfold trimLeft
    rw [List.dropWhile_map]
    simp only [Function.comp_def, h]
  unfold trim trimRight
  rw [hleft, ← List.map_reverse]
  show (trimLeft _).reverse = ((trimLeft _).reverse).map _
  rw [hleft, List.map_reverse]

/-- What is seen of a tree. White space is seen as white space, and nothing else is. -/
structure Aspect where
  /-- A character of a text, an identifier or an alternative text. -/
  char : Char → Char
  /-- An address or a title. -/
  target : List Char → List Char
  place : Position → Position
  isSpace_char (c : Char) : isSpace (char c) = isSpace c
  place_next (p : Position) (c : Char) : (place p).next c = place (p.next c)

namespace Aspect

/-- Everything as it is. -/
def plain : Aspect where
  char := id
  target := id
  place := id
  isSpace_char _ := rfl
  place_next _ _ := rfl

variable (seen : Aspect)

def kind : NodeKind → NodeKind
  | .text text => .text (text.map seen.char)
  | .link url title => .link (seen.target url) (seen.target title)
  | .image url alt title => .image (seen.target url) (alt.map seen.char) (seen.target title)
  | .reference name url title =>
    .reference (name.map seen.char) (seen.target url) (seen.target title)
  | .footnote name => .footnote (name.map seen.char)
  | .citation name => .citation (name.map seen.char)
  | other => other

/-- Nothing but text is seen as text. -/
theorem text_of_kind {k : NodeKind} {text : List Char} (h : seen.kind k = .text text) :
    ∃ own, k = .text own := by
  cases k with
  | text own => exact ⟨own, rfl⟩
  | _ => cases h

def span (span : Span) : Span := ⟨seen.place span.start, seen.place span.stop⟩

mutual

/-- What is seen of the tree. -/
def node : Node → Node
  | ⟨kind, span, children⟩ => ⟨seen.kind kind, seen.span span, nodes children⟩

/-- What is seen of the trees. -/
def nodes : List Node → List Node
  | [] => []
  | n :: rest => node n :: nodes rest

end

theorem nodes_eq_map (nodes : List Node) : seen.nodes nodes = nodes.map seen.node := by
  induction nodes with
  | nil => rfl
  | cons node rest ih => simp [Aspect.nodes, ih]

theorem node_mk (kind : NodeKind) (span : Span) (children : List Node) :
    seen.node ⟨kind, span, children⟩ =
      ⟨seen.kind kind, seen.span span, children.map seen.node⟩ := by
  rw [node, nodes_eq_map]

theorem node_eq (n : Node) : seen.node n =
    ⟨seen.kind n.kind, seen.span n.span, n.children.map seen.node⟩ := by
  cases n
  rw [node_mk]

theorem kind_plain (kind : NodeKind) : plain.kind kind = kind := by
  cases kind <;> simp [Aspect.kind, plain]

theorem map_plain (nodes : List Node) : nodes.map plain.node = nodes := by
  induction nodes using trees_induction with
  | nil => rfl
  | cons kind span children rest ihChildren ihRest =>
    rw [List.map_cons, node_mk, ihChildren, ihRest, kind_plain]
    rfl

theorem node_plain (n : Node) : plain.node n = n := by
  simpa using map_plain [n]

theorem place_advance (p : Position) (text : List Char) :
    (seen.place p).advance text = seen.place (p.advance text) := by
  induction text generalizing p with
  | nil => rfl
  | cons c text ih => rw [Position.advance_cons, seen.place_next, ih, Position.advance_cons]

theorem span_covering (p : Position) (text : List Char) :
    seen.span (Span.covering p text) = Span.covering (seen.place p) text := by
  unfold Span.covering span
  rw [place_advance]

theorem node_ofText (text : List Char) (span : Span) :
    seen.node (Node.ofText text span) = Node.ofText (text.map seen.char) (seen.span span) := by
  unfold Node.ofText
  rw [node_mk]
  rfl

/-! ### Texts -/

theorem appendText? (n : Node) (text : List Char) (span : Span) :
    (seen.node n).appendText? (text.map seen.char) (seen.span span) =
      (n.appendText? text span).map seen.node := by
  obtain ⟨kind, place, children⟩ := n
  rw [node_mk]
  cases kind with
  | text own => simp [Node.appendText?, kind, node_mk, Aspect.span]
  | _ =>
    unfold Node.appendText?
    dsimp only
    split
    · rename_i hshown
      obtain ⟨own, hown⟩ := seen.text_of_kind hshown
      cases hown
    · rfl

theorem text? (n : Node) : (seen.node n).text? = n.text?.map (·.map seen.char) := by
  rw [node_eq]
  unfold Node.text?
  dsimp only
  cases hkind : n.kind with
  | text own => rw [kind]; rfl
  | _ =>
    split
    · rename_i hshown
      obtain ⟨own, hown⟩ := seen.text_of_kind hshown
      cases hown
    · rfl

theorem join? (n next : Node) :
    (seen.node n).join? (seen.node next) = (n.join? next).map seen.node := by
  unfold Node.join?
  rw [text?, seen.node_eq next]
  cases next.text? with
  | none => rfl
  | some text => exact seen.appendText? n text next.span

theorem joinOnto (n : Node) (nodes : List Node) :
    InlineMarkdown.joinOnto (seen.node n) (nodes.map seen.node) =
      (InlineMarkdown.joinOnto n nodes).map seen.node := by
  cases nodes with
  | nil => rfl
  | cons next rest =>
    simp only [List.map_cons, joinOnto_cons, join?]
    cases n.join? next <;> rfl

/-- Texts are joined alike however they are looked at. -/
theorem coalesce (nodes : List Node) :
    InlineMarkdown.coalesce (nodes.map seen.node) =
      (InlineMarkdown.coalesce nodes).map seen.node := by
  induction nodes using trees_induction with
  | nil => rfl
  | cons kind span children rest ihChildren ihRest =>
    have hnode : (seen.node ⟨kind, span, children⟩).coalesce =
        seen.node (Node.coalesce ⟨kind, span, children⟩) := by
      rw [node_mk, Node.coalesce_eq, Node.coalesce_eq, node_mk, ihChildren]
    rw [List.map_cons, coalesce_cons, coalesce_cons, hnode, ihRest, joinOnto]

theorem textContent (n : Node) (h : InlineMarkdown.flattenText (n.children.map seen.node) =
    (InlineMarkdown.flattenText n.children).map seen.char) :
    (seen.node n).textContent = n.textContent.map seen.char := by
  have hown (n : Node) : n.textContent = n.ownText ++ InlineMarkdown.flattenText n.children := by
    obtain ⟨kind, span, children⟩ := n
    cases kind <;> simp [Node.textContent, Node.ownText, Node.text?]
  have hshown : (seen.node n).ownText = n.ownText.map seen.char := by
    unfold Node.ownText
    rw [text?]
    cases n.text? <;> rfl
  rw [hown, hown, hshown, List.map_append, ← h, node_eq]

/-- Trees say what is seen of their texts. -/
theorem flattenText (nodes : List Node) :
    InlineMarkdown.flattenText (nodes.map seen.node) =
      (InlineMarkdown.flattenText nodes).map seen.char := by
  induction nodes using trees_induction with
  | nil => rfl
  | cons kind span children rest ihChildren ihRest =>
    simp only [List.map_cons, InlineMarkdown.flattenText, List.map_append, ihRest,
      seen.textContent ⟨kind, span, children⟩ ihChildren]

theorem trim (text : List Char) :
    InlineMarkdown.trim (text.map seen.char) = (InlineMarkdown.trim text).map seen.char :=
  trim_map seen.isSpace_char text

/-! ### Drafts -/

def delimiter (delimiter : Delimiter) : Delimiter :=
  { delimiter with start := seen.place delimiter.start }

def draft (draft : Draft) : Draft :=
  ⟨draft.nodes.map seen.node, draft.stack.map seen.delimiter⟩

theorem draft_empty : seen.draft {} = {} := by
  simp [draft]

theorem push (d : Draft) (n : Node) :
    seen.draft (d.push n) = (seen.draft d).push (seen.node n) := by
  simp [Draft.push, draft]

theorem lastIsOpen (d : Draft) : (seen.draft d).lastIsOpen = d.lastIsOpen := by
  simp [Draft.lastIsOpen, draft, Function.comp_def, delimiter]

theorem pushText (d : Draft) (text : List Char) (span : Span) :
    seen.draft (d.pushText text span) =
      (seen.draft d).pushText (text.map seen.char) (seen.span span) := by
  have hlast : (seen.draft d).nodes.back?.bind
        (·.appendText? (text.map seen.char) (seen.span span)) =
      (d.nodes.back?.bind (·.appendText? text span)).map seen.node := by
    simp only [draft, Array.back?_map]
    cases d.nodes.back? with
    | none => rfl
    | some last => exact seen.appendText? last text span
  unfold Draft.pushText
  rw [lastIsOpen, hlast, ← node_ofText]
  cases d.lastIsOpen with
  | true => exact seen.push d _
  | false =>
    cases d.nodes.back?.bind (·.appendText? text span) with
    | none => exact seen.push d _
    | some joined => simp [draft]

theorem finish (d : Draft) : (seen.draft d).finish = d.finish.map seen.node := by
  unfold Draft.finish
  rw [← coalesce]
  simp [draft]

/-! ### Runs of delimiters -/

section Runs
variable {seen} {seen' : Aspect} {d d' : Draft}

theorem kind_wrapper (seen : Aspect) (marker : Marker) (used : Nat) :
    seen.kind (marker.wrapper used) = marker.wrapper used := by
  rcases marker.wrapper_cases used with h | h | ⟨-, h⟩ <;>
  · rw [h]
    rfl

theorem openRun (hchar : seen'.char = seen.char) (h : seen'.draft d' = seen.draft d)
    (marker : Marker) (count : Nat) {p p' : Position} (hp : seen'.place p' = seen.place p) :
    seen'.draft (d'.openRun marker count p') = seen.draft (d.openRun marker count p) := by
  have hopened (seen : Aspect) (d : Draft) (p : Position) : seen.draft (d.openRun marker count p) =
      { nodes := (seen.draft d).nodes.push (Node.ofText ((marker.run count).map seen.char)
          (Span.covering (seen.place p) (marker.run count)))
        stack := ⟨marker, count, (seen.draft d).nodes.size, seen.place p⟩ ::
          (seen.draft d).stack } := by
    simp [Draft.openRun, draft, node_ofText, span_covering, delimiter]
  rw [hopened, hopened, h, hp, hchar]

theorem closing? (h : seen'.draft d' = seen.draft d) (marker : Marker) (count : Nat) :
    (d'.closing? marker count).map
        (fun closed => (seen'.delimiter closed.1, closed.2.1.map seen'.delimiter, closed.2.2)) =
      (d.closing? marker count).map
        (fun closed => (seen.delimiter closed.1, closed.2.1.map seen.delimiter, closed.2.2)) := by
  have hshown (seen : Aspect) (d : Draft) : (d.closing? marker count).map
      (fun closed => (seen.delimiter closed.1, closed.2.1.map seen.delimiter, closed.2.2)) =
        (seen.draft d).closing? marker count := by
    have hstack : (seen.draft d).stack.dropWhile (·.marker != marker) =
        (d.stack.dropWhile (·.marker != marker)).map seen.delimiter := by
      simp only [draft, List.dropWhile_map]
      rfl
    unfold Draft.closing?
    rw [hstack]
    cases d.stack.dropWhile (·.marker != marker) with
    | nil => rfl
    | cons opener below => simp [delimiter, Function.comp_def]
  rw [hshown, hshown, h]

/-- What is seen of wrapped nodes, by what is seen of the draft and of the opener. -/
theorem draft_wrap (seen : Aspect) (d : Draft) (opener : Delimiter) (below : List Delimiter)
    (used : Nat) (stop : Position) : seen.draft (d.wrap opener below used stop) =
      let content :=
        ((seen.draft d).nodes.extract (opener.index + 1) (seen.draft d).nodes.size).toList
      let before := (seen.draft d).nodes.shrink opener.index
      let whole (start : Position) : Node :=
        ⟨opener.marker.wrapper used, ⟨start, seen.place stop⟩, content⟩
      if used < opener.count then
        let text := opener.marker.run (opener.count - used)
        let span := Span.covering (seen.delimiter opener).start text
        { nodes := (before.push (Node.ofText (text.map seen.char) span)).push (whole span.stop)
          stack := { seen.delimiter opener with count := opener.count - used } ::
            below.map seen.delimiter }
      else
        { nodes := before.push (whole (seen.delimiter opener).start)
          stack := below.map seen.delimiter } := by
  have hcontent (n : Nat) : ((seen.draft d).nodes.extract n (seen.draft d).nodes.size).toList =
      (d.nodes.extract n d.nodes.size).toList.map seen.node := by
    simp [draft]
  have hbefore (n : Nat) : (seen.draft d).nodes.shrink n = (d.nodes.shrink n).map seen.node := by
    simp [draft]
  unfold Draft.wrap
  simp only [hcontent, hbefore, delimiter]
  split
  · simp [draft, node_mk, kind_wrapper, node_ofText, ← span_covering, delimiter, span]
  · simp [draft, node_mk, kind_wrapper, span]

theorem wrap (hchar : seen'.char = seen.char) (h : seen'.draft d' = seen.draft d)
    {opener opener' : Delimiter} {below below' : List Delimiter}
    (hopener : seen'.delimiter opener' = seen.delimiter opener)
    (hbelow : below'.map seen'.delimiter = below.map seen.delimiter) (used : Nat)
    {stop stop' : Position} (hstop : seen'.place stop' = seen.place stop) :
    seen'.draft (d'.wrap opener' below' used stop') =
      seen.draft (d.wrap opener below used stop) := by
  obtain ⟨marker, count, index, start⟩ := opener
  obtain ⟨marker', count', index', start'⟩ := opener'
  obtain ⟨rfl, rfl, rfl, -⟩ := Delimiter.mk.inj hopener
  rw [draft_wrap, draft_wrap, h, hopener, hbelow, hstop, hchar]

/-- A run of delimiters makes the same of drafts that look the same. -/
theorem resolveUpTo (hchar : seen'.char = seen.char) (h : seen'.draft d' = seen.draft d)
    (marker : Marker) (limit count : Nat) {p p' : Position} (hp : seen'.place p' = seen.place p) :
    seen'.draft (Draft.resolveUpTo marker limit count p' d') =
      seen.draft (Draft.resolveUpTo marker limit count p d) := by
  induction limit generalizing count d d' p p' with
  | zero => exact h
  | succ limit ih =>
    have hclosing := closing? h marker count
    unfold Draft.resolveUpTo
    split
    · exact h
    · rcases hclosed : d.closing? marker count with _ | ⟨opener, below, used⟩ <;>
        rcases hclosed' : d'.closing? marker count with _ | ⟨opener', below', used'⟩ <;>
        rw [hclosed, hclosed'] at hclosing
      · exact openRun hchar h marker count hp
      · exact nomatch hclosing
      · exact nomatch hclosing
      · simp only [Option.map_some, Option.some.injEq, Prod.mk.injEq] at hclosing
        obtain ⟨hopener, hbelow, rfl⟩ := hclosing
        have hstop : seen'.place (p'.advance (marker.run used')) =
            seen.place (p.advance (marker.run used')) := by
          rw [← place_advance, ← place_advance, hp]
        exact ih (wrap hchar h hopener hbelow used' hstop) _ hstop

end Runs

end Aspect
end InlineMarkdown
