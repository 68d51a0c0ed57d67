import InlineMarkdown.Proofs.Stack
import InlineMarkdown.Proofs.Tiling

/-! Where the nodes of a draft stand.

`Draft.Spanned` is what a parse keeps of its draft: the nodes tile what has been read so
far, each of them is placed, and open runs stand in the source as they stand among the
nodes. Each operation of the draft moves the end of the tiling over what it is given. A run
that is closed leaves to the new node what the two runs use up and all between them; the
rest of the opening run keeps its place in front of it. -/
namespace InlineMarkdown

/-! ### Wrappers -/

namespace Marker
variable {source : List Char} {marker : Marker} {opened closing used : Nat} {span : Span}
  {children : List Node}

theorem run_append (marker : Marker) (m n : Nat) :
    marker.run m ++ marker.run n = marker.run (m + n) :=
  List.replicate_append_replicate

/-- What a pair of runs wraps is framed by as many markers as the pair uses up. -/
theorem wrapper_framed (hused : marker.used? opened closing = some used)
    (h : Wrapped source marker used span children) :
    Framed source (marker.wrapper used) span children := by
  cases marker with
  | tilde =>
    simp only [used?] at hused
    split at hused
    · cases hused
    · rename_i hlong
      obtain rfl := Option.some.inj hused
      simp at hlong
      exact ⟨_, by omega, h⟩
  | asterisk =>
    obtain rfl := Option.some.inj hused
    by_cases hlong : (2 ≤ opened && 2 ≤ closing) = true
    · rw [if_pos hlong] at h ⊢
      exact .inl h
    · rw [if_neg hlong] at h ⊢
      exact .inl h
  | underscore =>
    obtain rfl := Option.some.inj hused
    by_cases hlong : (2 ≤ opened && 2 ≤ closing) = true
    · rw [if_pos hlong] at h ⊢
      exact .inr h
    · rw [if_neg hlong] at h ⊢
      exact .inr h

end Marker

namespace Draft
variable {source text slice : List Char} {a b b' : Position} {draft : Draft} {marker : Marker}
  {opener d : Delimiter} {above below : List Delimiter} {count used : Nat}

/-- From `a` to `b` the source has become the nodes of the draft. -/
structure Spanned (source : List Char) (a b : Position) (draft : Draft) : Prop where
  stacked : Stacked draft
  start : Slice source a a []
  tiles : Tiles draft.nodes.toList a b
  placed : ∀ node ∈ draft.nodes.toList, Placed source node
  opened : ∀ d ∈ draft.stack, Slice source d.start (d.start.advance d.text) d.text

/-! ### Nodes and texts -/

theorem Spanned.empty (ha : Slice source a a []) : Spanned source a a {} :=
  ⟨.empty, ha, rfl, nofun, nofun⟩

theorem Spanned.push (h : Spanned source a b draft) {node : Node} (hnode : Placed source node)
    (hspan : node.span = ⟨b, b'⟩) : Spanned source a b' (draft.push node) := by
  refine ⟨h.stacked.push node, h.start, ?_, fun n hn => ?_, h.opened⟩
  · simp only [Draft.push, Array.toList_push]
    exact tiles_append.2 ⟨b, h.tiles, tiles_singleton.2 hspan⟩
  · simp only [Draft.push, Array.toList_push, List.mem_append, List.mem_singleton] at hn
    rcases hn with hn | rfl
    · exact h.placed n hn
    · exact hnode

theorem Spanned.pushText (h : Spanned source a b draft) (hslice : Slice source b b' slice)
    (text : List Char) : Spanned source a b' (draft.pushText text ⟨b, b'⟩) := by
  rcases pushText_cases draft text ⟨b, b'⟩ with hpush | ⟨last, joined, hopen, hlast, hjoined, hpush⟩
  · rw [hpush]
    exact h.push (placed_leaf hslice trivial) rfl
  · have hstacked := h.stacked.pushText text ⟨b, b'⟩
    rw [hpush] at hstacked ⊢
    -- The last node gives way to the longer one.
    have hnodes : draft.nodes.toList = draft.nodes.pop.toList ++ [last] := by
      obtain ⟨nodes, hnodes⟩ := Array.back?_eq_some_iff.1 hlast
      simp [hnodes]
    have htiles := h.tiles
    rw [hnodes] at htiles
    obtain ⟨middle, hfront, hend⟩ := tiles_append.1 htiles
    have hspan := tiles_singleton.1 hend
    obtain ⟨hplaced, hjoinedSpan⟩ := (h.placed last (by rw [hnodes]; simp)).appendText hjoined
      (show Slice source last.span.stop b' slice by rw [hspan]; exact hslice)
    refine ⟨hstacked, h.start, ?_, fun n hn => ?_, h.opened⟩
    · rw [Array.toList_push]
      exact tiles_append.2 ⟨middle, hfront, tiles_singleton.2 (by rw [hjoinedSpan, hspan])⟩
    · rw [Array.toList_push, List.mem_append, List.mem_singleton] at hn
      rcases hn with hn | rfl
      · exact h.placed n (by rw [hnodes]; exact List.mem_append_left _ hn)
      · exact hplaced

theorem Spanned.openRun (h : Spanned source a b draft) (hcount : 0 < count)
    (hslice : Slice source b b' (marker.run count)) :
    Spanned source a b' (draft.openRun marker count b) := by
  obtain rfl := hslice.stop_eq
  have hnode : Placed source (Node.ofText (marker.run count) (Span.covering b (marker.run count))) :=
    placed_leaf hslice trivial
  have hpush := h.push hnode rfl
  refine ⟨h.stacked.openRun b hcount, h.start, hpush.tiles, hpush.placed, fun d hd => ?_⟩
  rcases List.mem_cons.1 hd with rfl | hd
  · exact hslice
  · exact h.opened d hd

/-! ### Closing a run -/

/-- The nodes in front of an open run tile what is in front of it, those behind it what is
behind it. -/
theorem Spanned.parts (h : Spanned source a b draft) (hd : d ∈ draft.stack) :
    Tiles (draft.nodes.toList.take d.index) a d.start ∧
      Tiles (draft.nodes.toList.drop (d.index + 1)) (d.start.advance d.text) b := by
  have htiles := h.tiles
  rw [h.stacked.toList_nodes hd] at htiles
  obtain ⟨middle, hfront, rfl, hbehind⟩ := tiles_append.1 htiles
  exact ⟨hfront, hbehind⟩

theorem Spanned.cut (h : Spanned source a b draft) (hstack : draft.stack = above ++ opener :: below) :
    Spanned source a opener.start (draft.cut opener below) := by
  have hopener : opener ∈ draft.stack := by simp [hstack]
  refine ⟨h.stacked.cut hstack, h.start, ?_, fun n hn => ?_, fun d hd => h.opened d ?_⟩
  · simp only [Draft.cut, Array.toList_shrink]
    exact (h.parts hopener).1
  · simp only [Draft.cut, Array.toList_shrink] at hn
    exact h.placed n (List.mem_of_mem_take hn)
  · simp [hstack, show d ∈ below from hd]

/-- What is behind an open run, together with the markers that a pair uses up on both sides,
makes a node that starts where these markers start. -/
theorem Spanned.wrapped (h : Spanned source a b draft) (hopener : opener ∈ draft.stack)
    (hbehind : opener.index + 1 < draft.nodes.size)
    (hused : opener.marker.used? opener.count count = some used) (hle : used ≤ opener.count)
    (hslice : Slice source b b' (opener.marker.run used)) :
    Placed source (draft.wrapped opener used
      (opener.start.advance (opener.marker.run (opener.count - used))) b') := by
  obtain ⟨-, htiles⟩ := h.parts hopener
  have hplaced : ∀ n ∈ draft.nodes.toList.drop (opener.index + 1), Placed source n := fun n hn =>
    h.placed n (List.mem_of_mem_drop hn)
  have hrun := h.opened opener hopener
  have htext : opener.text = opener.marker.run (opener.count - used) ++ opener.marker.run used := by
    rw [Marker.run_append, Nat.sub_add_cancel hle]
    rfl
  obtain ⟨body, hbody⟩ := htiles.slice (fun n hn => (hplaced n hn).covers) hrun.point_stop
  rw [htext, Position.advance_append] at htiles hbody
  rw [htext] at hrun
  have hfront := hrun.split.2
  rw [Position.advance_append] at hfront
  have hstop := hbody.stop_eq
  refine .mk ⟨_, (hfront.append (hbody.append hslice))⟩ ?_ ⟨_, _, htiles⟩ hplaced
  refine Marker.wrapper_framed hused ⟨?_, body, hfront.append (hbody.append hslice), ?_⟩
  · intro hnil
    have := List.drop_eq_nil_iff.1 hnil
    simp at this
    omega
  · rw [Position.advance_append]
    exact hstop ▸ htiles

theorem Spanned.wrap (h : Spanned source a b draft) (hstack : draft.stack = above ++ opener :: below)
    (hbehind : opener.index + 1 < draft.nodes.size)
    (hused : opener.marker.used? opener.count count = some used) (hle : used ≤ opener.count)
    (hslice : Slice source b b' (opener.marker.run used)) :
    Spanned source a b' (draft.wrap opener below used b') := by
  have hopener : opener ∈ draft.stack := by simp [hstack]
  have hnode := h.wrapped hopener hbehind hused hle hslice
  have hcut := h.cut hstack
  by_cases hlt : used < opener.count
  · rw [wrap_of_lt (Nat.le_of_lt (h.stacked.stands hopener).lt) hlt]
    have hrun := h.opened opener hopener
    rw [show opener.text = opener.marker.run (opener.count - used) ++ opener.marker.run used by
      rw [Marker.run_append, Nat.sub_add_cancel hle]; rfl] at hrun
    exact (hcut.openRun (Nat.sub_pos_of_lt hlt) hrun.split.1).push hnode rfl
  · obtain rfl : used = opener.count := by omega
    rw [wrap_of_le (Nat.le_refl _)]
    rw [Nat.sub_self] at hnode
    exact hcut.push hnode rfl

/-- Closing a run ends with a new node, so that no open run is the last. -/
theorem settled_wrap (h : Stacked draft) (hstack : draft.stack = above ++ opener :: below)
    (stop : Position) (m : Marker) : Settled (draft.wrap opener below used stop) m := by
  have hopener : opener ∈ draft.stack := by simp [hstack]
  by_cases hlt : used < opener.count
  · rw [wrap_of_lt (Nat.le_of_lt (h.stands hopener).lt) hlt]
    exact ((h.cut hstack).openRun _ (Nat.sub_pos_of_lt hlt)).settled_push _ m
  · rw [wrap_of_le (Nat.not_lt.1 hlt)]
    exact (h.cut hstack).settled_push _ m

theorem settled_openRun (h : Stacked draft) (place : Position) {m : Marker} (hm : m ≠ marker) :
    Settled (draft.openRun marker count place) m := by
  intro d hd hmarker
  rcases List.mem_cons.1 hd with rfl | hd
  · exact absurd hmarker.symm hm
  · have := (h.stands hd).lt
    simp only [Draft.openRun, Array.size_push]
    omega

theorem settled_pushText (h : Stacked draft) (text : List Char) (span : Span) (m : Marker) :
    Settled (draft.pushText text span) m := by
  rcases pushText_cases draft text span with hpush | ⟨last, joined, hopen, -, -, hpush⟩
  · rw [hpush]
    exact h.settled_push _ m
  · rw [hpush]
    intro d hd _
    have := not_last_of_lastIsOpen h hopen hd
    simp only [Array.size_push, Array.size_pop]
    omega

/-! ### Resolving a run -/

/-- A run is resolved where it stands. A run that is left open is one of its marker. -/
theorem Spanned.resolveUpTo {limit : Nat} (h : Spanned source a b draft) (hlimit : count ≤ limit)
    (hslice : Slice source b b' (marker.run count)) (hsettled : Settled draft marker)
    (hothers : count = 0 → ∀ m, Settled draft m) :
    Spanned source a b' (resolveUpTo marker limit count b draft) ∧
      ∀ m, m ≠ marker → Settled (resolveUpTo marker limit count b draft) m := by
  induction limit generalizing count b draft with
  | zero =>
    obtain rfl : count = 0 := by omega
    obtain rfl := hslice.stop_eq
    exact ⟨h, fun m _ => hothers rfl m⟩
  | succ limit ih =>
    unfold Draft.resolveUpTo
    by_cases hcount : count = 0
    · rw [if_pos hcount]
      subst hcount
      obtain rfl := hslice.stop_eq
      exact ⟨h, fun m _ => hothers rfl m⟩
    · rw [if_neg hcount]
      rcases hclosing : draft.closing? marker count with _ | ⟨opener, below, used⟩
      · exact ⟨h.openRun (Nat.pos_of_ne_zero hcount) hslice,
          fun m hm => settled_openRun h.stacked b hm⟩
      · obtain ⟨above, hstack, rfl, hused⟩ := closing?_eq_some hclosing
        have hopener : opener ∈ draft.stack := by simp [hstack]
        obtain ⟨hpos, hopened, hclosed⟩ :=
          used_le hused (h.stacked.stands hopener).pos (Nat.pos_of_ne_zero hcount)
        have hcut : opener.marker.run count =
            opener.marker.run used ++ opener.marker.run (count - used) := by
          rw [Marker.run_append, Nat.add_sub_cancel' hclosed]
        rw [hcut] at hslice
        have hwrap := h.wrap hstack (hsettled opener hopener rfl) hused hopened hslice.split.1
        exact ih hwrap (by omega) hslice.split.2 (settled_wrap h.stacked hstack _ _)
          fun _ m => settled_wrap h.stacked hstack _ m

theorem Spanned.resolve (h : Spanned source a b draft) (hcount : 0 < count)
    (hslice : Slice source b b' (marker.run count)) (hsettled : Settled draft marker) :
    Spanned source a b' (draft.resolve marker count b) ∧
      ∀ m, m ≠ marker → Settled (draft.resolve marker count b) m :=
  h.resolveUpTo (Nat.le_refl count) hslice hsettled fun hzero => absurd hzero (Nat.ne_of_gt hcount)

/-- The finished nodes stand where the draft stood. -/
theorem Spanned.finish (h : Spanned source a b draft) :
    Tiles draft.finish a b ∧ ∀ node ∈ draft.finish, Placed source node :=
  coalesce_placed h.tiles h.placed

end Draft
end InlineMarkdown
