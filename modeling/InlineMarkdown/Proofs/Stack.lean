import InlineMarkdown.Inline.Delimiter

/-! Open runs stand among the nodes.

Throughout a parse the open runs of a draft are `Stacked`: each stands among the nodes as
literal text, exactly as many markers as can still be used, and those opened later stand
further on. What a run closes is never empty as long as no open run of its marker is the
last of the nodes (`Settled`). -/
namespace InlineMarkdown

namespace Delimiter

/-- The literal text that stands for an open run. -/
def text (delimiter : Delimiter) : List Char := delimiter.marker.run delimiter.count

def placeholder (delimiter : Delimiter) : Node :=
  Node.ofText delimiter.text (Span.covering delimiter.start delimiter.text)

/-- The open run has a marker left and stands among the nodes. -/
structure Stands (delimiter : Delimiter) (nodes : Array Node) : Prop where
  pos : 0 < delimiter.count
  held : nodes[delimiter.index]? = some delimiter.placeholder

theorem Stands.lt {delimiter : Delimiter} {nodes : Array Node} (h : delimiter.Stands nodes) :
    delimiter.index < nodes.size :=
  (Array.getElem?_eq_some_iff.1 h.held).1

end Delimiter

/-- How many markers each open run of a kind has, the last run first. -/
def openCounts (marker : Marker) (stack : List Delimiter) : List Nat :=
  (stack.filter (·.marker == marker)).map (·.count)

theorem openCounts_cons (marker : Marker) {d : Delimiter} (h : d.marker = marker)
    (stack : List Delimiter) : openCounts marker (d :: stack) = d.count :: openCounts marker stack := by
  rw [openCounts, List.filter_cons_of_pos (by simpa using h), List.map_cons]
  rfl

theorem openCounts_cons_of_ne {marker : Marker} {d : Delimiter} (h : d.marker ≠ marker)
    (stack : List Delimiter) : openCounts marker (d :: stack) = openCounts marker stack := by
  rw [openCounts, List.filter_cons_of_neg (by simpa using h)]
  rfl

theorem openCounts_append (marker : Marker) (above below : List Delimiter) :
    openCounts marker (above ++ below) = openCounts marker above ++ openCounts marker below := by
  rw [openCounts, List.filter_append, List.map_append]
  rfl

/-- Either no run of a kind is open, or the last one that is has others of the kind only below. -/
theorem openCounts_cases (marker : Marker) (stack : List Delimiter) :
    (stack.dropWhile (·.marker != marker) = [] ∧ openCounts marker stack = []) ∨
      ∃ opener below, stack.dropWhile (·.marker != marker) = opener :: below ∧
        opener.marker = marker ∧ openCounts marker stack = opener.count :: openCounts marker below := by
  induction stack with
  | nil => exact .inl ⟨rfl, rfl⟩
  | cons d stack ih =>
    by_cases hmarker : d.marker = marker
    · rw [List.dropWhile_cons_of_neg (by simpa using hmarker), openCounts_cons marker hmarker]
      exact .inr ⟨d, stack, rfl, hmarker, rfl⟩
    · rwa [List.dropWhile_cons_of_pos (by simpa using hmarker), openCounts_cons_of_ne hmarker]

theorem wrapper_isText (marker : Marker) (used : Nat) (span : Span) (children : List Node) :
    Node.isText ⟨marker.wrapper used, span, children⟩ = false := by
  rcases marker.wrapper_cases used with h | h | ⟨-, h⟩ <;>
  · rw [h]
    rfl

namespace Draft
variable {draft : Draft} {marker : Marker} {opener d : Delimiter} {below : List Delimiter}
  {count used : Nat}

/-- Every open run stands among the nodes, the later ones further on. -/
structure Stacked (draft : Draft) : Prop where
  stands {d : Delimiter} : d ∈ draft.stack → d.Stands draft.nodes
  sorted : draft.stack.Pairwise fun later earlier => earlier.index < later.index

/-- No open run of this marker is the last of the nodes. -/
def Settled (draft : Draft) (marker : Marker) : Prop :=
  ∀ d ∈ draft.stack, d.marker = marker → d.index + 1 < draft.nodes.size

theorem Stacked.empty : Stacked {} := ⟨nofun, .nil⟩

/-! ### Nodes and texts -/

/-- Where the nodes of open runs stay, so does the stack. -/
theorem Stacked.of_nodes (h : Stacked draft) {nodes : Array Node}
    (hnodes : ∀ d ∈ draft.stack, nodes[d.index]? = draft.nodes[d.index]?) :
    Stacked { draft with nodes } :=
  ⟨fun {d} hd => ⟨(h.stands hd).pos, (hnodes d hd).trans (h.stands hd).held⟩, h.sorted⟩

theorem Stacked.push (h : Stacked draft) (node : Node) : Stacked (draft.push node) :=
  h.of_nodes fun _ hd => Array.getElem?_push_lt (h.stands hd).lt ▸ by
    rw [Array.getElem?_eq_getElem (h.stands hd).lt]

theorem not_last_of_lastIsOpen (h : Stacked draft) (hopen : draft.lastIsOpen = false)
    (hd : d ∈ draft.stack) : d.index + 1 < draft.nodes.size := by
  have hlt := (h.stands hd).lt
  have hne := List.any_eq_false.1 hopen d hd
  simp at hne
  omega

/-- What adding literal text comes to: a node more, or a longer last one. -/
theorem pushText_cases (draft : Draft) (text : List Char) (span : Span) :
    draft.pushText text span = draft.push (Node.ofText text span) ∨
      ∃ last joined, draft.lastIsOpen = false ∧ draft.nodes.back? = some last ∧
        last.appendText? text span = some joined ∧
        draft.pushText text span = { draft with nodes := draft.nodes.pop.push joined } := by
  unfold pushText
  split
  · rename_i joined hjoined
    split at hjoined
    · exact nomatch hjoined
    · rename_i hopen
      obtain ⟨last, hlast, hjoined⟩ := Option.bind_eq_some_iff.1 hjoined
      exact .inr ⟨last, joined, eq_false_of_ne_true hopen, hlast, hjoined, rfl⟩
  · exact .inl rfl

theorem stack_pushText (draft : Draft) (text : List Char) (span : Span) :
    (draft.pushText text span).stack = draft.stack := by
  rcases pushText_cases draft text span with hpush | ⟨_, _, -, -, -, hpush⟩
  · rw [hpush]
    rfl
  · rw [hpush]

theorem Stacked.pushText (h : Stacked draft) (text : List Char) (span : Span) :
    Stacked (draft.pushText text span) := by
  rcases pushText_cases draft text span with hpush | ⟨last, joined, hopen, -, -, hpush⟩
  · rw [hpush]
    exact h.push _
  · rw [hpush]
    refine h.of_nodes fun d hd => ?_
    have hlt := not_last_of_lastIsOpen h hopen hd
    rw [Array.getElem?_push, Array.getElem?_pop, Array.size_pop]
    rw [if_neg (by omega), if_pos (by omega)]

theorem Stacked.openRun (h : Stacked draft) (place : Position) (hcount : 0 < count) :
    Stacked (draft.openRun marker count place) := by
  have hpush := h.push ((Delimiter.mk marker count draft.nodes.size place).placeholder)
  refine ⟨fun {d} hd => ?_, List.pairwise_cons.2 ⟨fun d hd => (h.stands hd).lt, h.sorted⟩⟩
  rcases List.mem_cons.1 hd with rfl | hd
  · exact ⟨hcount, Array.getElem?_push_size⟩
  · exact hpush.stands hd

/-! ### Closing a run -/

theorem closing?_eq_some (h : draft.closing? marker count = some (opener, below, used)) :
    ∃ above, draft.stack = above ++ opener :: below ∧ opener.marker = marker ∧
      marker.used? opener.count count = some used := by
  unfold closing? at h
  split at h
  · exact nomatch h
  · rename_i first rest hdrop
    obtain ⟨_, hused, heq⟩ := Option.map_eq_some_iff.1 h
    obtain ⟨rfl, rfl, rfl⟩ : first = opener ∧ rest = below ∧ _ = used := by simpa using heq
    refine ⟨draft.stack.takeWhile (·.marker != marker), ?_, ?_, hused⟩
    · rw [← hdrop, List.takeWhile_append_dropWhile]
    · have hhead := List.head?_dropWhile_not (·.marker != marker) draft.stack
      rw [hdrop] at hhead
      simpa using hhead

/-- A pair of runs uses up a marker at least. -/
theorem used_pos {opened closing : Nat} (h : marker.used? opened closing = some used) : 0 < used := by
  cases marker with
  | tilde =>
    simp only [Marker.used?] at h
    split at h
    · cases h
    · rename_i hlong
      obtain rfl := Option.some.inj h
      simp at hlong
      omega
  | asterisk | underscore =>
    obtain rfl := Option.some.inj h
    split <;> omega

/-- A pair of runs uses up a marker at least, and no more than either has. -/
theorem used_le {opened closing : Nat} (h : marker.used? opened closing = some used)
    (hopened : 0 < opened) (hclosing : 0 < closing) :
    0 < used ∧ used ≤ opened ∧ used ≤ closing := by
  cases marker with
  | tilde =>
    simp only [Marker.used?] at h
    split at h
    · exact nomatch h
    · rename_i hlong
      obtain rfl := Option.some.inj h
      simp at hlong
      omega
  | asterisk | underscore =>
    obtain rfl := Option.some.inj h
    split
    · rename_i hlong
      simp at hlong
      omega
    · omega

/-- The nodes in front of an open run, its placeholder and what it would wrap. -/
theorem Stacked.toList_nodes (h : Stacked draft) (hd : d ∈ draft.stack) :
    draft.nodes.toList = draft.nodes.toList.take d.index ++
      d.placeholder :: draft.nodes.toList.drop (d.index + 1) := by
  have hlt := (h.stands hd).lt
  have hheld := (h.stands hd).held
  rw [← Array.getElem?_toList] at hheld
  obtain ⟨hlt, hget⟩ := List.getElem?_eq_some_iff.1 hheld
  have hdrop := List.drop_eq_getElem_cons hlt
  rw [hget] at hdrop
  rw [← hdrop, List.take_append_drop]

/-- The draft without an open run and all behind it. -/
def cut (draft : Draft) (opener : Delimiter) (below : List Delimiter) : Draft :=
  { nodes := draft.nodes.shrink opener.index, stack := below }

/-- The node that wraps what is behind an open run. -/
def wrapped (draft : Draft) (opener : Delimiter) (used : Nat) (start stop : Position) : Node :=
  ⟨opener.marker.wrapper used, ⟨start, stop⟩, draft.nodes.toList.drop (opener.index + 1)⟩

theorem content_eq (draft : Draft) (n : Nat) :
    (draft.nodes.extract n draft.nodes.size).toList = draft.nodes.toList.drop n := by
  simp [List.take_of_length_le]

/-- A run that is longer than what closes it is opened again with what is left. -/
theorem wrap_of_lt (hopener : opener.index ≤ draft.nodes.size) (hused : used < opener.count)
    (stop : Position) : draft.wrap opener below used stop =
      ((draft.cut opener below).openRun opener.marker (opener.count - used) opener.start).push
        (draft.wrapped opener used
          (opener.start.advance (opener.marker.run (opener.count - used))) stop) := by
  have hsize : (draft.nodes.shrink opener.index).size = opener.index := by
    simp [Nat.min_eq_left hopener]
  unfold wrap openRun cut
  simp only [if_pos hused, hsize, content_eq]
  rfl

theorem wrap_of_le (hused : opener.count ≤ used) (stop : Position) :
    draft.wrap opener below used stop =
      (draft.cut opener below).push (draft.wrapped opener used opener.start stop) := by
  unfold wrap cut
  simp only [if_neg (Nat.not_lt.2 hused), content_eq]
  rfl

/-- The runs below one that is closed stand in front of it. -/
theorem Stacked.cut (h : Stacked draft) {above : List Delimiter}
    (hstack : draft.stack = above ++ opener :: below) : Stacked (draft.cut opener below) := by
  have hsorted := h.sorted
  rw [hstack] at hsorted
  obtain ⟨hbefore, hbelow⟩ := List.pairwise_cons.1 (List.pairwise_append.1 hsorted).2.1
  refine ⟨fun {d} hd => ?_, hbelow⟩
  have hstands : d.Stands draft.nodes := h.stands (by simp [hstack, show d ∈ below from hd])
  refine ⟨hstands.pos, ?_⟩
  show (draft.nodes.shrink opener.index)[d.index]? = _
  rw [← Array.getElem?_toList, Array.toList_shrink, List.getElem?_take_of_lt (hbefore d hd),
    Array.getElem?_toList]
  exact hstands.held

/-- Closing an open run leaves those opened before it, and what is left of itself. -/
theorem Stacked.wrap (h : Stacked draft) {above : List Delimiter}
    (hstack : draft.stack = above ++ opener :: below)
    (used : Nat) (stop : Position) : (draft.wrap opener below used stop).Stacked := by
  have hopener : opener ∈ draft.stack := hstack ▸ List.mem_append_right above List.mem_cons_self
  rcases Nat.lt_or_ge used opener.count with hlt | hle
  · rw [wrap_of_lt (Nat.le_of_lt (h.stands hopener).lt) hlt]
    exact ((h.cut hstack).openRun opener.start (Nat.sub_pos_of_lt hlt)).push _
  · rw [wrap_of_le hle]
    exact (h.cut hstack).push _

/-- Behind a new node no open run is the last. -/
theorem Stacked.settled_push (h : Stacked draft) (node : Node) (marker : Marker) :
    Settled (draft.push node) marker := by
  intro d hd _
  have := (h.stands hd).lt
  simp only [Draft.push, Array.size_push]
  omega

end Draft
end InlineMarkdown
