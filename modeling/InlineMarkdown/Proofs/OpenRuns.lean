import InlineMarkdown.Proofs.Stack
import InlineMarkdown.Proofs.Step

/-! Open runs, between any two steps.

Of each marker only the most recent open run can still be closed (`Draft.Regular`): an earlier one
is left behind only where it is too short for any run to close it. So of asterisks and of
underscores no more than one run is open, since a run of those always closes the one in front of
it, and of tildes all but the last have a single marker.

The draft finds what a run closes by walking down its stack. `Draft.resolve?` does the same by
places alone, as one would with two arrays: it looks up the run and its placeholder, takes out what
stands behind, and gives up where a place is out of range. It never does, and it comes to the same
draft (`Draft.Stacked.resolve?`). -/
namespace InlineMarkdown

/-! ### Runs that are closed and runs that are not -/

namespace Marker
variable {marker : Marker} {opened closing used : Nat}

/-- No run closes an open one with so many markers left. -/
def Spent (marker : Marker) (opened : Nat) : Prop :=
  ∀ closing, marker.used? opened closing = none

/-- A run of so many markers closes any open one that can be closed at all. -/
def Closes (marker : Marker) (closing : Nat) : Prop :=
  ∀ opened, marker.used? opened closing = none → marker.Spent opened

theorem not_spent (h : marker ≠ tilde) (opened : Nat) : ¬ marker.Spent opened := by
  intro hspent
  cases (used?_of_ne_tilde h opened 0).symm.trans (hspent 0)

theorem lt_two_of_spent (h : tilde.Spent opened) : opened < 2 := by
  have hnone := h 2
  rcases Nat.lt_or_ge opened 2 with hlt | hle
  · exact hlt
  · have hlong : ¬ (decide (opened < 2) || decide (2 < 2)) = true := by
      simp only [Nat.not_lt.2 hle, Nat.lt_irrefl, decide_false, Bool.or_false, Bool.false_eq_true,
        not_false_eq_true]
    rw [used?, if_neg hlong] at hnone
    cases hnone

/-- Too few tildes close nothing; of the other markers one is enough. -/
theorem closes_of (h : marker = tilde → 2 ≤ closing) : marker.Closes closing := by
  intro opened hnone
  cases marker with
  | tilde =>
    have hlong := h rfl
    intro other
    simp only [used?] at hnone ⊢
    split at hnone
    · rename_i hshort
      have hopened : opened < 2 := by
        simp at hshort
        omega
      rw [if_pos (by simp [hopened])]
    · cases hnone
  | asterisk | underscore => cases hnone

/-- If an open run is closed in part, then what is left of the run that closes it is nothing, or
closes what can be closed. -/
theorem closes_rest (h : marker.used? opened closing = some used) (hpart : used < opened) :
    closing - used = 0 ∨ marker.Closes (closing - used) := by
  by_cases hmarker : marker = tilde
  · subst hmarker
    simp only [used?] at h
    split at h
    · cases h
    · obtain rfl := Option.some.inj h
      exact .inl (by omega)
  · exact .inr (closes_of fun htilde => absurd htilde hmarker)

end Marker

namespace Draft
variable {draft : Draft} {marker : Marker} {opener d : Delimiter} {above below : List Delimiter}
  {count limit used : Nat} {place : Position}

/-! ### Which open runs can be closed -/

/-- The open runs stand among the nodes, and of each marker only the most recent can be closed. -/
structure Regular (draft : Draft) : Prop where
  stacked : draft.Stacked
  spent (marker : Marker) : ∀ opened ∈ (openCounts marker draft.stack).tail, marker.Spent opened

theorem Regular.empty : Regular {} := ⟨.empty, fun _ => nofun⟩

theorem Regular.push (h : draft.Regular) (node : Node) : (draft.push node).Regular :=
  ⟨h.stacked.push node, h.spent⟩

theorem Regular.pushText (h : draft.Regular) (text : List Char) (span : Span) :
    (draft.pushText text span).Regular := by
  refine ⟨h.stacked.pushText text span, ?_⟩
  rw [stack_pushText]
  exact h.spent

/-- A run may be opened where no open run of its marker can be closed. -/
theorem Regular.openRun (h : draft.Regular) (hcount : 0 < count) (place : Position)
    (hspent : ∀ opened ∈ openCounts marker draft.stack, marker.Spent opened) :
    (draft.openRun marker count place).Regular := by
  refine ⟨h.stacked.openRun place hcount, fun m => ?_⟩
  show ∀ opened ∈ (openCounts m (⟨marker, count, draft.nodes.size, place⟩ :: draft.stack)).tail, _
  by_cases hmarker : marker = m
  · subst hmarker
    rw [openCounts_cons marker rfl]
    exact hspent
  · rw [openCounts_cons_of_ne hmarker]
    exact h.spent m

/-- What is not the most recent run of a part of the stack is not the most recent of all. -/
theorem mem_tail_openCounts {m : Marker} {opened : Nat} (hstack : draft.stack = above ++ below)
    (h : opened ∈ (openCounts m below).tail) : opened ∈ (openCounts m draft.stack).tail := by
  rw [hstack, openCounts_append]
  cases openCounts m above with
  | nil => exact h
  | cons => exact List.mem_append_right _ (List.mem_of_mem_tail h)

/-- Below an open run all of its marker are spent. -/
theorem Regular.spent_below (h : draft.Regular) (hstack : draft.stack = above ++ opener :: below) :
    ∀ opened ∈ openCounts opener.marker below, opener.marker.Spent opened := by
  intro opened hopened
  apply h.spent
  apply mem_tail_openCounts hstack
  rwa [openCounts_cons opener.marker rfl]

/-- An open run and all behind it can be taken away. -/
theorem Regular.cut (h : draft.Regular) (hstack : draft.stack = above ++ opener :: below) :
    (draft.cut opener below).Regular := by
  have hbelow : draft.stack = (above ++ [opener]) ++ below := by simp [hstack]
  exact ⟨h.stacked.cut hstack, fun m opened hopened =>
    h.spent m opened (mem_tail_openCounts hbelow hopened)⟩

/-- Closing a run leaves what is not used of it as the most recent of its marker. -/
theorem Regular.wrap (h : draft.Regular) (hstack : draft.stack = above ++ opener :: below)
    (used : Nat) (stop : Position) : (draft.wrap opener below used stop).Regular := by
  have hopener : opener ∈ draft.stack := hstack ▸ List.mem_append_right above List.mem_cons_self
  have hcut := h.cut hstack
  rcases Nat.lt_or_ge used opener.count with hlt | hle
  · rw [wrap_of_lt (Nat.le_of_lt (h.stacked.stands hopener).lt) hlt]
    exact (hcut.openRun (Nat.sub_pos_of_lt hlt) opener.start (h.spent_below hstack)).push _
  · rw [wrap_of_le hle]
    exact hcut.push _

/-- If a run closes nothing, then no open run of its marker can be closed. -/
theorem Regular.spent_of_closing? (h : draft.Regular) (hclosing : draft.closing? marker count = none)
    (hcloses : marker.Closes count) : ∀ opened ∈ openCounts marker draft.stack, marker.Spent opened := by
  rcases openCounts_cases marker draft.stack with ⟨-, hnone⟩ | ⟨opener, below, hdrop, -, hcounts⟩
  · rw [hnone]
    exact nofun
  · have hspent := h.spent marker
    rw [hcounts] at hspent ⊢
    intro opened hopened
    rcases List.mem_cons.1 hopened with rfl | hopened
    · rw [closing?, hdrop] at hclosing
      exact hcloses _ (Option.map_eq_none_iff.1 hclosing)
    · exact hspent opened hopened

/-- Resolving a run keeps the stack in order if the run closes what can be closed. In every round
that is still so, or nothing is left of the run, or it has used up the one open run of its marker
that could be closed. -/
theorem Regular.resolveUpTo (h : draft.Regular) (limit : Nat) (place : Position)
    (hrun : count = 0 ∨ marker.Closes count ∨
      ∀ opened ∈ openCounts marker draft.stack, marker.Spent opened) :
    (resolveUpTo marker limit count place draft).Regular := by
  induction limit generalizing count place draft with
  | zero => exact h
  | succ limit ih =>
    unfold Draft.resolveUpTo
    by_cases hcount : count = 0
    · rw [if_pos hcount]
      exact h
    rw [if_neg hcount]
    cases hclosing : draft.closing? marker count with
    | none =>
      apply h.openRun (Nat.pos_of_ne_zero hcount)
      rcases hrun with hzero | hcloses | hspent
      · exact absurd hzero hcount
      · exact h.spent_of_closing? hclosing hcloses
      · exact hspent
    | some found =>
      obtain ⟨opener, below, used⟩ := found
      obtain ⟨above, hstack, rfl, hused⟩ := closing?_eq_some hclosing
      apply ih (h.wrap hstack used _)
      rcases Nat.lt_or_ge used opener.count with hlt | hle
      · rcases Marker.closes_rest hused hlt with hrest | hrest
        · exact .inl hrest
        · exact .inr (.inl hrest)
      · rw [wrap_of_le hle]
        exact .inr (.inr (h.spent_below hstack))

theorem Regular.resolve (h : draft.Regular) (hcloses : marker.Closes count) (place : Position) :
    (draft.resolve marker count place).Regular :=
  h.resolveUpTo count place (.inr (.inl hcloses))

/-- Of a marker whose runs can always be closed no more than one is open. -/
theorem Regular.length_le (h : draft.Regular) (hmarker : marker ≠ .tilde) :
    (openCounts marker draft.stack).length ≤ 1 := by
  have hspent := h.spent marker
  cases hcounts : openCounts marker draft.stack with
  | nil => exact Nat.zero_le 1
  | cons first rest =>
    rw [hcounts] at hspent
    cases rest with
    | nil => exact Nat.le_refl 1
    | cons second => exact absurd (hspent second List.mem_cons_self) (Marker.not_spent hmarker _)

theorem pos_of_mem_openCounts (h : draft.Stacked) {opened : Nat}
    (hopened : opened ∈ openCounts marker draft.stack) : 0 < opened := by
  obtain ⟨d, hd, rfl⟩ := List.mem_map.1 hopened
  exact (h.stands (List.mem_filter.1 hd).1).pos

/-- Of the open runs of tildes all but the most recent have one left. -/
theorem Regular.tilde_eq_one (h : draft.Regular) {opened : Nat}
    (hopened : opened ∈ (openCounts .tilde draft.stack).tail) : opened = 1 := by
  have hpos := pos_of_mem_openCounts h.stacked (List.mem_of_mem_tail hopened)
  have hlt := Marker.lt_two_of_spent (h.spent .tilde opened hopened)
  omega

-- Three tildes, of which one is left when two close them, and then two that cannot close it.
example : openCounts .tilde
    ((openRun {} .tilde 3 {}).resolve .tilde 2 {} |>.resolve .tilde 2 {}).stack = [2, 1] := by
  decide

/-! ### Resolving a run by places -/

/-- What is in front of a place among the nodes, and what is there and behind it. -/
def drain? (nodes : Array Node) (place : Nat) : Option (Array Node × List Node) :=
  if place ≤ nodes.size then some (nodes.shrink place, nodes.toList.drop place) else none

/-- The nodes with another one at a place. -/
def replace? (nodes : Array Node) (place : Nat) (node : Node) : Option (Array Node) :=
  if h : place < nodes.size then some (nodes.set place node) else none

/-- Closes the open run at a place of the stack. What stands behind its placeholder is taken out,
the placeholder is shortened or goes too, and of the other open runs those in front of it stay. -/
def wrapAt? (draft : Draft) (slot used : Nat) (stop : Position) : Option Draft := do
  let opener ← draft.stack[slot]?
  let (nodes, content) ← drain? draft.nodes (opener.index + 1)
  let placeholder ← nodes[opener.index]?
  let node (start : Position) : Node := ⟨opener.marker.wrapper used, ⟨start, stop⟩, content⟩
  if used < opener.count then
    let text := opener.marker.run (opener.count - used)
    let span := Span.covering placeholder.span.start text
    let nodes ← replace? nodes opener.index (Node.ofText text span)
    let stack := draft.stack.set slot { opener with count := opener.count - used }
    return ⟨nodes.push (node span.stop), stack.filter (·.index ≤ opener.index)⟩
  else
    let nodes := (nodes.shrink opener.index).push (node placeholder.span.start)
    return ⟨nodes, (draft.stack.eraseIdx slot).filter (·.index ≤ opener.index)⟩

/-- Resolves a run by looking up the place of the open run that it closes. -/
def resolveUpTo? (marker : Marker) : (limit count : Nat) → Position → Draft → Option Draft
  | 0, _, _, draft => some draft
  | limit + 1, count, place, draft =>
    if count = 0 then some draft
    else match draft.stack.findIdx? (·.marker == marker) with
      | none => some (draft.openRun marker count place)
      | some slot => do
        let opener ← draft.stack[slot]?
        match marker.used? opener.count count with
        | none => return draft.openRun marker count place
        | some used =>
          let stop := place.advance (marker.run used)
          resolveUpTo? marker limit (count - used) stop (← draft.wrapAt? slot used stop)

/-- `resolve` by places; none if one of them is out of range. -/
def resolve? (draft : Draft) (marker : Marker) (count : Nat) (place : Position) : Option Draft :=
  resolveUpTo? marker count count place draft

theorem set_shrink {nodes : Array Node} {place : Nat} (h : place < (nodes.shrink (place + 1)).size)
    (node : Node) : (nodes.shrink (place + 1)).set place node = (nodes.shrink place).push node := by
  apply Array.toList_inj.1
  have hsize : place < nodes.toList.length := by
    rw [Array.size_shrink] at h
    exact Nat.lt_of_lt_of_le h (Nat.min_le_right ..)
  rw [Array.toList_set, Array.toList_push, Array.toList_shrink, Array.toList_shrink,
    List.take_succ_eq_append_getElem hsize]
  have hlength : (nodes.toList.take place).length = place :=
    List.length_take_of_le (Nat.le_of_lt hsize)
  rw [List.set_append_right _ _ (Nat.le_of_eq hlength), hlength, Nat.sub_self]
  rfl

theorem shrink_shrink (nodes : Array Node) (place : Nat) :
    (nodes.shrink (place + 1)).shrink place = nodes.shrink place := by
  apply Array.toList_inj.1
  simp

/-- The open runs whose placeholders stand no further on than that of an open run are the ones
opened before it. -/
theorem Stacked.filter_index (h : draft.Stacked) (hstack : draft.stack = above ++ opener :: below) :
    above.filter (·.index ≤ opener.index) = [] ∧
      below.filter (·.index ≤ opener.index) = below := by
  have hsorted := h.sorted
  rw [hstack] at hsorted
  obtain ⟨-, hbelow, habove⟩ := List.pairwise_append.1 hsorted
  constructor
  · rw [List.filter_eq_nil_iff]
    intro d hd
    have hlt := habove d hd opener List.mem_cons_self
    simpa using hlt
  · rw [List.filter_eq_self]
    intro d hd
    have hlt := (List.pairwise_cons.1 hbelow).1 d hd
    simpa using Nat.le_of_lt hlt

/-- The places of an open run are in range, and closing it there is closing it. -/
theorem Stacked.wrapAt? (h : draft.Stacked) (hstack : draft.stack = above ++ opener :: below)
    (used : Nat) (stop : Position) :
    draft.wrapAt? above.length used stop = some (draft.wrap opener below used stop) := by
  have hopener : opener ∈ draft.stack := hstack ▸ List.mem_append_right above List.mem_cons_self
  have hstands := h.stands hopener
  obtain ⟨habove, hbelow⟩ := h.filter_index hstack
  have hslot : draft.stack[above.length]? = some opener := by simp [hstack]
  have hdrain : drain? draft.nodes (opener.index + 1) = some (draft.nodes.shrink (opener.index + 1),
      draft.nodes.toList.drop (opener.index + 1)) := if_pos hstands.lt
  have hheld : (draft.nodes.shrink (opener.index + 1))[opener.index]? = some opener.placeholder := by
    rw [← Array.getElem?_toList, Array.toList_shrink, List.getElem?_take_of_lt (Nat.lt_succ_self _),
      Array.getElem?_toList]
    exact hstands.held
  simp only [Draft.wrapAt?, hslot, hdrain, hheld, Option.bind_eq_bind, Option.bind_some]
  by_cases hlt : used < opener.count
  · have hplace := (Array.getElem?_eq_some_iff.1 hheld).1
    have hleft : (draft.stack.set above.length { opener with count := opener.count - used }).filter
        (·.index ≤ opener.index) = { opener with count := opener.count - used } :: below := by
      rw [hstack, List.set_append_right _ _ (Nat.le_refl _), Nat.sub_self, List.set_cons_zero,
        List.filter_append, habove, List.nil_append, List.filter_cons_of_pos (by simp), hbelow]
    rw [if_pos hlt, hleft, Draft.replace?, dif_pos hplace, set_shrink]
    simp only [Draft.wrap, if_pos hlt, content_eq]
    rfl
  · have hgone : (draft.stack.eraseIdx above.length).filter (·.index ≤ opener.index) = below := by
      rw [hstack, List.eraseIdx_append_of_length_le (Nat.le_refl _), Nat.sub_self,
        List.eraseIdx_cons_zero, List.filter_append, habove, List.nil_append, hbelow]
    rw [if_neg hlt, hgone, shrink_shrink]
    simp only [Draft.wrap, if_neg hlt, content_eq]
    rfl

/-- Either no run of a marker is open, or the first that is found is the one that
`closing?` finds. -/
theorem findIdx?_cases (draft : Draft) (marker : Marker) :
    (draft.stack.findIdx? (·.marker == marker) = none ∧
        draft.stack.dropWhile (·.marker != marker) = []) ∨
      ∃ above opener below, draft.stack = above ++ opener :: below ∧ opener.marker = marker ∧
        draft.stack.findIdx? (·.marker == marker) = some above.length ∧
        draft.stack.dropWhile (·.marker != marker) = opener :: below := by
  induction draft.stack with
  | nil => exact .inl ⟨rfl, rfl⟩
  | cons d stack ih =>
    by_cases hmarker : d.marker = marker
    · refine .inr ⟨[], d, stack, rfl, hmarker, ?_, ?_⟩
      · rw [List.findIdx?_cons, if_pos (by simpa using hmarker)]
        rfl
      · rw [List.dropWhile_cons_of_neg (by simpa using hmarker)]
    · rw [List.findIdx?_cons, if_neg (by simpa using hmarker),
        List.dropWhile_cons_of_pos (by simpa using hmarker)]
      rcases ih with ⟨hnone, hdrop⟩ | ⟨above, opener, below, hstack, hopener, hfound, hdrop⟩
      · exact .inl ⟨by rw [hnone]; rfl, hdrop⟩
      · exact .inr ⟨d :: above, opener, below, by rw [hstack]; rfl, hopener, by rw [hfound]; rfl, hdrop⟩

/-- No place is out of range as a run is resolved. -/
theorem Stacked.resolveUpTo? (h : draft.Stacked) (marker : Marker) (limit count : Nat)
    (place : Position) :
    resolveUpTo? marker limit count place draft =
      some (resolveUpTo marker limit count place draft) := by
  induction limit generalizing count place draft with
  | zero => rfl
  | succ limit ih =>
    unfold Draft.resolveUpTo? Draft.resolveUpTo closing?
    by_cases hcount : count = 0
    · rw [if_pos hcount, if_pos hcount]
    rw [if_neg hcount, if_neg hcount]
    rcases draft.findIdx?_cases marker with
      ⟨hnone, hdrop⟩ | ⟨above, opener, below, hstack, rfl, hfound, hdrop⟩
    · rw [hnone, hdrop]
    · have hslot : draft.stack[above.length]? = some opener := by simp [hstack]
      rw [hfound, hdrop]
      simp only [hslot, Option.bind_eq_bind, Option.bind_some]
      cases opener.marker.used? opener.count count with
      | none => rfl
      | some used =>
        simp only [h.wrapAt? hstack, Option.bind_some, Option.map_some]
        exact ih (h.wrap hstack used _) _ _

theorem Stacked.resolve? (h : draft.Stacked) (marker : Marker) (count : Nat) (place : Position) :
    draft.resolve? marker count place = some (draft.resolve marker count place) :=
  h.resolveUpTo? marker count count place

/-! ### Steps -/

/-- What a step may make of a draft. -/
inductive Extends (draft : Draft) : Draft → Prop
  | same : Extends draft draft
  | push (node : Node) : Extends draft (draft.push node)
  | pushText (text : List Char) (span : Span) : Extends draft (draft.pushText text span)
  | resolve {marker : Marker} {count : Nat} (place : Position) :
      (marker = .tilde → 2 ≤ count) → Extends draft (draft.resolve marker count place)

theorem Regular.extends {draft' : Draft} (h : draft.Regular) (hextends : draft.Extends draft') :
    draft'.Regular := by
  cases hextends with
  | same => exact h
  | push node => exact h.push node
  | pushText text span => exact h.pushText text span
  | resolve place hlong => exact h.resolve (Marker.closes_of hlong) place

end Draft

namespace InlineParser
variable {parser : InlineParser} {inner : Option ParseContent} {stop : List Kind}
  {token : Token Kind} {draft : Draft} {c : Cursor}

theorem delimiterRun_extends (parser : InlineParser) (marker : Marker) (draft : Draft) (c : Cursor) :
    draft.Extends (parser.delimiterRun marker draft c).1 := by
  unfold delimiterRun
  rcases c.bumpRun marker.kind with ⟨run, d⟩
  dsimp only
  split
  · split
    · exact .pushText ..
    · rename_i hmeaning
      refine .resolve _ fun htilde => ?_
      simp [htilde] at hmeaning
      exact hmeaning.1
  · exact .same

theorem step_extends (parser : InlineParser) (inner : Option ParseContent) (token : Token Kind)
    (draft : Draft) (c : Cursor) : draft.Extends (parser.step inner token draft c).1 := by
  have hstepped := parser.stepped inner token draft c
  generalize parser.step inner token draft c = behind at hstepped ⊢
  cases hstepped with
  | run marker => exact parser.delimiterRun_extends marker draft c
  | node | leaf => exact .push _
  | text => exact .pushText ..

theorem steps_regular (parser : InlineParser) (inner : Option ParseContent) (stop : List Kind)
    (limit : Nat) (h : draft.Regular) (c : Cursor) :
    (parser.steps inner stop limit draft c).1.Regular :=
  steps_preserve (fun draft _ => draft.Regular)
    (fun _ _ _ hdraft _ _ => hdraft.extends (parser.step_extends ..)) limit h

/-- In any call, whatever parses what is inside, between any two steps the open runs stand among
the nodes, later ones further on, each as a text without children that is as many markers as it
has left. No more than one run of asterisks and one of underscores is open, and of the open runs
of tildes all but the most recent have one left. Whichever run comes next, no place is out of
range as it is resolved. -/
theorem steps_openRuns (options : InlineOptions) (inner : Option ParseContent) (stop : List Kind)
    (steps : Nat) (c : Cursor) :
    let draft := (({ options } : InlineParser).steps inner stop steps {} c).1
    -- the most recent run is the first of the stack
    (draft.stack.map (·.index)).Pairwise (· > ·) ∧
      (∀ d ∈ draft.stack, d.index < draft.nodes.size ∧ 1 ≤ d.count ∧
        ∃ span, draft.nodes[d.index]? = some ⟨.text (d.marker.run d.count), span, []⟩) ∧
      (∀ marker, marker ≠ .tilde → (openCounts marker draft.stack).length ≤ 1) ∧
      (∀ opened ∈ (openCounts .tilde draft.stack).tail, opened = 1) ∧
      ∀ marker count place,
        draft.resolve? marker count place = some (draft.resolve marker count place) := by
  intro draft
  have hregular : draft.Regular := steps_regular _ inner stop steps .empty c
  have hstacked := hregular.stacked
  refine ⟨List.pairwise_map.2 hstacked.sorted, fun d hd => ?_, fun _ => hregular.length_le,
    fun _ => hregular.tilde_eq_one, hstacked.resolve?⟩
  have hstands := hstacked.stands hd
  exact ⟨hstands.lt, hstands.pos, _, hstands.held⟩

end InlineParser
end InlineMarkdown
