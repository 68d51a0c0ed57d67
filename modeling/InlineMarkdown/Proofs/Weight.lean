import InlineMarkdown.Proofs.Joining
import InlineMarkdown.Proofs.Stack
import Mathlib.Algebra.Ring.Nat

/-! Weights of trees.

A weight counts something in nodes, in texts character by character. So it does not matter how
text is cut into nodes: joining texts keeps the total (`Weight.total_coalesce`), as long as no
text has nodes below it (`Bare`). What a draft weighs changes only by what is added to it, and by
what closing an open run uses up (`Weight.total_wrap`): the markers used leave the text, and the
node that wraps what is behind them comes in. -/
namespace InlineMarkdown

/-! ### Weights -/

/-- Something that is counted in nodes, in texts character by character. -/
structure Weight where
  of : NodeKind → Nat
  nil : of (.text []) = 0
  append (a b : List Char) : of (.text (a ++ b)) = of (.text a) + of (.text b)

namespace Weight
variable {w : Weight}

/-- Counts the nodes of a kind that is no text. -/
def nodes (kind : NodeKind) (h : ∀ text, kind ≠ .text text) : Weight where
  of other := if other = kind then 1 else 0
  nil := if_neg (h []).symm
  append a b := by rw [if_neg (h _).symm, if_neg (h a).symm, if_neg (h b).symm]

theorem nodes_text {kind : NodeKind} (h : ∀ text, kind ≠ .text text) (text : List Char) :
    (nodes kind h).of (.text text) = 0 := if_neg (h text).symm

/-- Counts a character in texts. -/
def chars (c : Char) : Weight where
  of kind :=
    match kind with
    | .text text => text.count c
    | _ => 0
  nil := rfl
  append _ _ := List.count_append

/-- What some trees weigh. -/
def total (w : Weight) (nodes : List Node) : Nat := ((treeNodes nodes).map (w.of ·.kind)).sum

theorem total_nil (w : Weight) : w.total [] = 0 := rfl

theorem total_cons (w : Weight) (node : Node) (rest : List Node) :
    w.total (node :: rest) = w.of node.kind + w.total node.children + w.total rest := by
  simp only [total, treeNodes, node.descendants_eq, List.map_cons, List.map_append, List.sum_cons,
    List.sum_append, Nat.add_assoc]

theorem total_append (w : Weight) (a b : List Node) : w.total (a ++ b) = w.total a + w.total b := by
  rw [total, treeNodes_append, List.map_append, List.sum_append]
  rfl

theorem total_ofText (w : Weight) (text : List Char) (span : Span) :
    w.total [Node.ofText text span] = w.of (.text text) := by
  rw [total_cons]
  rfl

/-- Texts that weigh nothing weigh nothing together. -/
theorem sum_texts_eq_zero {texts : List (List Char)} (h : ∀ text ∈ texts, w.of (.text text) = 0) :
    (texts.map fun text => w.of (.text text)).sum = 0 := by
  apply List.sum_eq_zero_iff_forall_eq_nat.2
  intro n hn
  obtain ⟨text, htext, rfl⟩ := List.mem_map.1 hn
  exact h text htext

/-- Counting a kind is counting the nodes of that kind. -/
theorem total_nodes {kind : NodeKind} (h : ∀ text, kind ≠ .text text) (trees : List Node) :
    (nodes kind h).total trees = (treeNodes trees).countP (·.kind == kind) := by
  unfold total
  induction treeNodes trees with
  | nil => rfl
  | cons node rest ih =>
    rw [List.map_cons, List.sum_cons, ih, List.countP_cons, Nat.add_comm]
    simp only [nodes, beq_iff_eq]

/-- Counting a character in the texts of trees is counting it in their text. -/
theorem total_chars (c : Char) (trees : List Node) :
    (chars c).total trees = (flattenText trees).count c := by
  induction trees using trees_induction with
  | nil => rfl
  | cons kind span children rest ihChildren ihRest =>
    have hnode : (Node.textContent ⟨kind, span, children⟩).count c =
        (chars c).of kind + (flattenText children).count c := by
      cases kind <;> simp [Node.textContent, chars]
    rw [total_cons, flattenText, List.count_append, hnode, ← ihChildren, ← ihRest]

theorem total_joinOnto (w : Weight) {node : Node} {nodes : List Node} (h : Bare nodes) :
    w.total (joinOnto node nodes) = w.total (node :: nodes) := by
  cases nodes with
  | nil => rfl
  | cons next rest =>
    rw [joinOnto_cons]
    cases hjoin : node.join? next with
    | none => rfl
    | some joined =>
      obtain ⟨own, text, hown, htext, rfl⟩ := Node.join?_eq_some.1 hjoin
      have hchildren := (bare_cons.1 h).1 (Node.isText_iff.2 ⟨text, htext⟩)
      -- Only the first of two joined texts keeps its children, but the other has none.
      show w.total (_ :: rest) = _
      rw [total_cons, total_cons, total_cons, hown, htext, hchildren, total_nil, w.append]
      dsimp only
      omega

/-- Joining texts keeps what trees weigh. -/
theorem total_coalesce (w : Weight) {nodes : List Node} (h : Bare nodes) :
    w.total (coalesce nodes) = w.total nodes := by
  induction nodes using trees_induction with
  | nil => rfl
  | cons kind span children rest ihChildren ihRest =>
    obtain ⟨-, hchildren, hrest⟩ := bare_cons.1 h
    rw [coalesce_cons, Node.coalesce_eq, w.total_joinOnto hrest.coalesce, total_cons, total_cons,
      ihChildren hchildren, ihRest hrest]

/-- What a run of a marker weighs as text. -/
def ofRun (w : Weight) (marker : Marker) (count : Nat) : Nat := w.of (.text (marker.run count))

theorem ofRun_zero (w : Weight) (marker : Marker) : w.ofRun marker 0 = 0 := w.nil

end Weight

/-! ### Drafts -/

namespace Draft
variable {draft : Draft} {marker : Marker} {opener : Delimiter} {count used : Nat}

/-- What the nodes of a draft weigh. -/
def weight (draft : Draft) (w : Weight) : Nat := w.total draft.nodes.toList

theorem weight_push (draft : Draft) (node : Node) (w : Weight) :
    (draft.push node).weight w = draft.weight w + w.total [node] := by
  rw [weight, push, Array.toList_push, w.total_append]
  rfl

/-- Where the last node takes more text, the others stay. -/
theorem toList_of_back? {last : Node} (h : draft.nodes.back? = some last) :
    draft.nodes.toList = draft.nodes.pop.toList ++ [last] := by
  have hlast : draft.nodes.toList.getLast? = some last := by
    rw [← h, Array.getLast?_toList]
  obtain ⟨front, hfront⟩ := List.getLast?_eq_some_iff.1 hlast
  rw [Array.toList_pop, hfront, List.dropLast_concat]

theorem weight_pushText (draft : Draft) (text : List Char) (span : Span) (w : Weight) :
    (draft.pushText text span).weight w = draft.weight w + w.of (.text text) := by
  rcases pushText_cases draft text span with hpush | ⟨last, joined, -, hlast, hjoined, hpush⟩
  · rw [hpush, weight_push, w.total_ofText]
  · obtain ⟨kind, old, children⟩ := last
    cases kind with
    | text own =>
      obtain rfl := Option.some.inj hjoined
      rw [hpush, weight, weight, Array.toList_push, toList_of_back? hlast, w.total_append,
        w.total_append, w.total_cons, w.total_cons, w.append]
      dsimp only
      omega
    | _ => cases hjoined

theorem bare_pushText (h : Bare draft.nodes.toList) (text : List Char) (span : Span) :
    Bare (draft.pushText text span).nodes.toList := by
  rcases pushText_cases draft text span with hpush | ⟨last, joined, -, hlast, hjoined, hpush⟩
  · rw [hpush, push, Array.toList_push]
    exact bare_append.2 ⟨h, bare_ofText text span⟩
  · rw [toList_of_back? hlast] at h
    obtain ⟨hfront, hlast⟩ := bare_append.1 h
    obtain ⟨kind, old, children⟩ := last
    cases kind with
    | text own =>
      obtain rfl := Option.some.inj hjoined
      obtain ⟨hchildren, hbelow, -⟩ := bare_cons.1 hlast
      rw [hpush, Array.toList_push]
      exact bare_append.2 ⟨hfront, bare_cons.2 ⟨fun _ => hchildren rfl, hbelow, .nil⟩⟩
    | _ => cases hjoined

theorem weight_openRun (draft : Draft) (marker : Marker) (count : Nat) (place : Position)
    (w : Weight) : (draft.openRun marker count place).weight w = draft.weight w + w.ofRun marker count := by
  rw [openRun, weight, Array.toList_push, w.total_append, w.total_ofText]
  rfl

theorem bare_openRun (h : Bare draft.nodes.toList) (marker : Marker) (count : Nat)
    (place : Position) : Bare (draft.openRun marker count place).nodes.toList := by
  rw [openRun, Array.toList_push]
  exact bare_append.2 ⟨h, bare_ofText _ _⟩

/-- Closing a run with some of its markers: what is left of the run stays text, and the node that
wraps what is behind it comes in. -/
theorem weight_wrap (h : Stacked draft) (hopener : opener ∈ draft.stack) (below : List Delimiter)
    (used : Nat) (stop : Position) (w : Weight) :
    (draft.wrap opener below used stop).weight w + w.ofRun opener.marker opener.count =
      draft.weight w + w.ofRun opener.marker (opener.count - used) +
        w.of (opener.marker.wrapper used) := by
  have hindex : opener.index ≤ draft.nodes.size := Nat.le_of_lt (h.stands hopener).lt
  have hnodes : draft.weight w = (draft.cut opener below).weight w +
      w.ofRun opener.marker opener.count + w.total (draft.nodes.toList.drop (opener.index + 1)) := by
    conv => lhs; rw [weight, h.toList_nodes hopener, w.total_append, w.total_cons]
    rw [weight, cut, Array.toList_shrink, ← Nat.add_assoc]
    rfl
  have hwrapped (start : Position) : w.total [draft.wrapped opener used start stop] =
      w.of (opener.marker.wrapper used) + w.total (draft.nodes.toList.drop (opener.index + 1)) := by
    rw [w.total_cons]
    rfl
  rcases Nat.lt_or_ge used opener.count with hlt | hle
  · rw [wrap_of_lt hindex hlt, weight_push, weight_openRun, hwrapped, hnodes]
    omega
  · rw [wrap_of_le hle, weight_push, hwrapped, hnodes, Nat.sub_eq_zero_of_le hle, w.ofRun_zero]
    omega

theorem bare_wrap (h : Stacked draft) (hopener : opener ∈ draft.stack)
    (hbare : Bare draft.nodes.toList) (below : List Delimiter) (used : Nat) (stop : Position) :
    Bare (draft.wrap opener below used stop).nodes.toList := by
  have hindex : opener.index ≤ draft.nodes.size := Nat.le_of_lt (h.stands hopener).lt
  rw [h.toList_nodes hopener] at hbare
  obtain ⟨hcut, hbehind⟩ := bare_append.1 hbare
  rw [← Array.toList_shrink] at hcut
  have hwrapped (start : Position) : Bare [draft.wrapped opener used start stop] := by
    refine bare_cons.2 ⟨fun htext => ?_, (bare_cons.1 hbehind).2.2, .nil⟩
    rw [wrapped, wrapper_isText] at htext
    cases htext
  rcases Nat.lt_or_ge used opener.count with hlt | hle
  · rw [wrap_of_lt hindex hlt, push, Array.toList_push]
    exact bare_append.2 ⟨bare_openRun hcut _ _ _, hwrapped _⟩
  · rw [wrap_of_le hle, push, Array.toList_push]
    exact bare_append.2 ⟨hcut, hwrapped _⟩

theorem weight_finish (h : Bare draft.nodes.toList) (w : Weight) :
    w.total draft.finish = draft.weight w :=
  w.total_coalesce h

end Draft
end InlineMarkdown
