import InlineMarkdown.Proofs.Yields

/-! The parser keeps to the grammar.

While content is parsed, the nodes of the draft are what the tokens so far yield, except that
open runs stand among them as literal text. `Pending` follows the stack: in front of an open
run is what was there when it was opened, and behind it what the tokens behind it yield. So
when the run is closed, what is behind it is ready to be wrapped (`Pending.cut`). Each
operation of the draft keeps this (`Draft.Reaches`), so does each step of the parser, and so
whatever content is parsed is yielded by the tokens that are passed (`atRoom_yields`). -/
namespace InlineMarkdown
open Attempt InlineParser

variable {options : InlineOptions} {tokens : Array (Token Kind)} {stands : Nat → Position → Prop}
  {room a p q : Nat}

/-! ### Open runs -/

/-- The run stands at index `i` and may be closed. -/
structure Opening (options : InlineOptions) (tokens : Array (Token Kind))
    (stands : Nat → Position → Prop) (d : Delimiter) (i : Nat) : Prop where
  pos : 0 < d.count
  on : d.marker = .tilde → options.strikethrough = true
  run : Run tokens d.marker i d.count
  stands : stands i d.start

theorem Opening.yields {d : Delimiter} {i : Nat} (h : Opening options tokens stands d i)
    (hmilestones : Milestones tokens stands) (room : Nat) :
    Yields options tokens stands room i (i + d.count) [d.placeholder] := by
  have htext : d.text = literal tokens i (i + d.count) := h.run.literal.symm
  have hstop := hmilestones.run h.run h.stands
  unfold Delimiter.placeholder
  rw [htext]
  refine .text (Nat.lt_add_of_pos_right h.pos) (h.run.le_size h.pos) h.run.eofFree h.stands ?_
    (.nil ..)
  rw [← htext]
  exact hstop

/-- From index `a` up to index `p` the tokens have become these nodes, and these runs are still
open, the most recent first. -/
inductive Pending (options : InlineOptions) (tokens : Array (Token Kind))
    (stands : Nat → Position → Prop) (room a : Nat) : (p : Nat) → List Node → List Delimiter → Prop
  | closed {p : Nat} {nodes : List Node} : Yields options tokens stands room a p nodes →
      Pending options tokens stands room a p nodes []
  | opened {i p : Nat} {d : Delimiter} {front behind : List Node} {stack : List Delimiter} :
      Pending options tokens stands room a i front stack → d.index = front.length →
      Opening options tokens stands d i →
      Yields options tokens stands room (i + d.count) p behind →
      Pending options tokens stands room a p (front ++ d.placeholder :: behind) (d :: stack)

namespace Pending
variable {nodes more : List Node} {stack : List Delimiter}

/-- Runs that are never closed are literal. -/
theorem yields (h : Pending options tokens stands room a p nodes stack)
    (hmilestones : Milestones tokens stands) : Yields options tokens stands room a p nodes := by
  induction h with
  | closed h => exact h
  | opened _ _ hopening hbehind ih =>
    exact ih.append ((hopening.yields hmilestones room).append hbehind)

theorem append (h : Pending options tokens stands room a p nodes stack)
    (hmore : Yields options tokens stands room p q more) :
    Pending options tokens stands room a q (nodes ++ more) stack := by
  cases h with
  | closed h => exact .closed (h.append hmore)
  | opened hfront hindex hopening hbehind =>
    rw [List.append_assoc, List.cons_append]
    exact .opened hfront hindex hopening (hbehind.append hmore)

/-- A last node that is no open run has a stretch of its own. -/
theorem unsnoc {last : Node} (h : Pending options tokens stands room a p (nodes ++ [last]) stack)
    (hlast : ∀ d ∈ stack, d.index ≠ nodes.length) :
    ∃ m, Pending options tokens stands room a m nodes stack ∧
      Yields options tokens stands room m p [last] := by
  generalize hall : nodes ++ [last] = all at h
  cases h with
  | closed h =>
    subst hall
    obtain ⟨m, hfront, hbehind⟩ := h.split
    exact ⟨m, .closed hfront, hbehind⟩
  | @opened i _ d front behind stack hfront hindex hopening hbehind =>
    rcases List.eq_nil_or_concat behind with rfl | ⟨behind, final, rfl⟩
    · have hlength := congrArg List.length hall
      simp only [List.length_append, List.length_cons, List.length_nil] at hlength
      exact absurd (hindex.trans (Nat.add_right_cancel hlength).symm) (hlast d List.mem_cons_self)
    · have hsplit : nodes ++ [last] = (front ++ d.placeholder :: behind) ++ [final] := by
        simpa using hall
      obtain ⟨rfl, hfinal⟩ := List.append_inj' hsplit rfl
      obtain rfl := List.singleton_inj.1 hfinal
      rw [List.concat_eq_append] at hbehind
      obtain ⟨m, hbefore, hend⟩ := hbehind.split
      exact ⟨m, .opened hfront hindex hopening hbefore, hend⟩

/-- An open run parts the nodes: those in front of it are as they were when it was opened, and
those behind it are yielded by the tokens behind it. -/
theorem cut {above below : List Delimiter} {opener : Delimiter}
    (h : Pending options tokens stands room a p nodes (above ++ opener :: below))
    (hmilestones : Milestones tokens stands) :
    ∃ i front behind, nodes = front ++ opener.placeholder :: behind ∧
      opener.index = front.length ∧ Opening options tokens stands opener i ∧
      Pending options tokens stands room a i front below ∧
      Yields options tokens stands room (i + opener.count) p behind := by
  induction above generalizing nodes p with
  | nil =>
    cases h with
    | opened hfront hindex hopening hbehind =>
      exact ⟨_, _, _, rfl, hindex, hopening, hfront, hbehind⟩
  | cons d above ih =>
    cases h with
    | opened hfront _ hopening hbehind =>
      -- Runs that were opened later are literal among what is behind.
      obtain ⟨i, front, between, rfl, hindex, hopener, hbelow, hbetween⟩ := ih hfront
      refine ⟨i, front, _, by rw [List.append_assoc, List.cons_append], hindex, hopener, hbelow, ?_⟩
      exact hbetween.append ((hopening.yields hmilestones room).append hbehind)

end Pending

/-! ### Drafts -/

/-- From index `a` up to index `p` the tokens have become the draft. -/
def Draft.Reaches (options : InlineOptions) (tokens : Array (Token Kind))
    (stands : Nat → Position → Prop) (room a : Nat) (draft : Draft) (p : Nat) : Prop :=
  Pending options tokens stands room a p draft.nodes.toList draft.stack

namespace Draft.Reaches
variable {draft : Draft} {marker : Marker} {count : Nat} {place : Position}

theorem empty : Draft.Reaches options tokens stands room a {} a := Pending.closed (.nil ..)

theorem push {node : Node} (h : draft.Reaches options tokens stands room a p)
    (hnode : Yields options tokens stands room p q [node]) :
    (draft.push node).Reaches options tokens stands room a q := by
  have happend := Pending.append h hnode
  unfold Reaches Draft.push
  rwa [Array.toList_push]

/-- Literal tokens make a text of their own, or the last text longer. -/
theorem pushText {span : Span} (h : draft.Reaches options tokens stands room a p) (hlt : p < q)
    (hle : q ≤ tokens.size) (heof : EofFree tokens p q) (hstart : stands p span.start)
    (hstop : stands q span.stop) :
    (draft.pushText (literal tokens p q) span).Reaches options tokens stands room a q := by
  rcases draft.pushText_cases (literal tokens p q) span with
    hpush | ⟨last, joined, hopen, hlast, hjoined, hpush⟩
  · rw [hpush]
    exact h.push (.text hlt hle heof hstart hstop (.nil ..))
  · obtain ⟨nodes, hnodes⟩ := Array.back?_eq_some_iff.1 hlast
    have hfront : draft.nodes.pop = nodes := by simp [hnodes]
    have hunsnoc : ∀ d ∈ draft.stack, d.index ≠ nodes.toList.length := by
      intro d hd hindex
      have hnot := List.any_eq_false.1 hopen d hd
      simp [hnodes, hindex] at hnot
    unfold Reaches at h
    rw [hnodes, Array.toList_push] at h
    obtain ⟨m, hbefore, hend⟩ := h.unsnoc hunsnoc
    rw [hpush]
    unfold Reaches
    rw [Array.toList_push, hfront]
    -- The longer text is the last one joined to the new one.
    have hjoin : last.join? (Node.ofText (literal tokens p q) span) = some joined := hjoined
    obtain ⟨own, _, hown, -, -⟩ := Node.join?_eq_some.1 hjoin
    obtain ⟨_, hlt', -, heof', hstart', hstop', hlast, hnil⟩ :=
      hend.uncons_text (Node.isText_iff.2 ⟨own, hown⟩)
    obtain rfl := hnil.eq_of_nil
    have hnew : Yields options tokens stands room _ q [Node.ofText (literal tokens _ q) span] :=
      .text hlt hle heof hstart hstop (.nil ..)
    have hlonger := Yields.joinOnto_text hlt' (Nat.le_trans (Nat.le_of_lt hlt) hle) heof' hstart'
      hstop' hnew
    rw [← hlast, joinOnto_cons, hjoin] at hlonger
    exact hbefore.append hlonger

theorem openRun (h : draft.Reaches options tokens stands room a p)
    (hopening : Opening options tokens stands ⟨marker, count, draft.nodes.size, place⟩ p) :
    (draft.openRun marker count place).Reaches options tokens stands room a (p + count) := by
  unfold Reaches Draft.openRun
  rw [Array.toList_push]
  exact .opened h (by simp) hopening (.nil ..)

/-! ### Closing a run -/

/-- Closing an open run wraps what is behind it. What the run has left over stays open. -/
theorem wrap {above below : List Delimiter} {opener : Delimiter} {used : Nat}
    (h : draft.Reaches options tokens stands room a p) (hmilestones : Milestones tokens stands)
    (hstack : draft.stack = above ++ opener :: below)
    (hused : opener.marker.used? opener.count count = some used) (hcount : 0 < count)
    (hclose : Run tokens opener.marker p used) (stop : Position) :
    (draft.wrap opener below used stop).Reaches options tokens stands room a (p + used) := by
  unfold Reaches at h
  rw [hstack] at h
  obtain ⟨i, front, behind, hnodes, hindex, hopener, hbelow, hbehind⟩ := h.cut hmilestones
  obtain ⟨hpos, hle, -⟩ := used_le hused hopener.pos hcount
  have hcut : (draft.cut opener below).Reaches options tokens stands room a i := by
    unfold Reaches Draft.cut
    rw [Array.toList_shrink, hnodes, hindex, List.take_left]
    exact hbelow
  have hrun : Run tokens opener.marker i ((opener.count - used) + used) := by
    rw [Nat.sub_add_cancel hle]
    exact hopener.run
  have hcontent : draft.nodes.toList.drop (opener.index + 1) = behind := by
    rw [hnodes, hindex]
    simp
  have hwrapped (start : Position) : Yields options tokens stands room (i + (opener.count - used))
      (p + used) [draft.wrapped opener used start stop] := by
    unfold Draft.wrapped
    rw [hcontent]
    refine .wrapper hopener.on hused hrun.split.2 ?_ hclose (.nil ..)
    rw [Nat.add_assoc, Nat.sub_add_cancel hle]
    exact hbehind
  by_cases hlt : used < opener.count
  · have hsize : (draft.cut opener below).nodes.size = opener.index := by
      rw [← Array.length_toList]
      simp [Draft.cut, hnodes, hindex]
    have hopening : Opening options tokens stands ⟨opener.marker, opener.count - used,
        (draft.cut opener below).nodes.size, opener.start⟩ i :=
      ⟨Nat.sub_pos_of_lt hlt, hopener.on, hrun.split.1, hopener.stands⟩
    have hindexLe : opener.index ≤ draft.nodes.size := by
      rw [← Array.length_toList, hnodes, hindex]
      simp
    rw [wrap_of_lt hindexLe hlt]
    exact (hcut.openRun hopening).push (hwrapped _)
  · obtain rfl : used = opener.count := by omega
    rw [wrap_of_le (Nat.le_refl _)]
    have hnode := hwrapped opener.start
    rw [Nat.sub_self] at hnode
    exact hcut.push hnode

theorem resolveUpTo {limit : Nat} (h : draft.Reaches options tokens stands room a p)
    (hmilestones : Milestones tokens stands) (hlimit : count ≤ limit)
    (hon : marker = .tilde → options.strikethrough = true) (hrun : Run tokens marker p count)
    (hplace : stands p place) :
    (resolveUpTo marker limit count place draft).Reaches options tokens stands room a
      (p + count) := by
  induction limit generalizing count p place draft with
  | zero =>
    obtain rfl : count = 0 := by omega
    exact h
  | succ limit ih =>
    unfold Draft.resolveUpTo
    by_cases hcount : count = 0
    · rw [if_pos hcount, hcount]
      exact h
    · rw [if_neg hcount]
      rcases hclosing : draft.closing? marker count with _ | ⟨opener, below, used⟩
      · exact h.openRun ⟨Nat.pos_of_ne_zero hcount, hon, hrun, hplace⟩
      · obtain ⟨above, hstack, rfl, hused⟩ := closing?_eq_some hclosing
        have hopener : 0 < opener.count := by
          unfold Reaches at h
          rw [hstack] at h
          obtain ⟨_, _, _, _, _, hopening, _⟩ := h.cut hmilestones
          exact hopening.pos
        obtain ⟨hpos, -, hle⟩ := used_le hused hopener (Nat.pos_of_ne_zero hcount)
        have hparts : Run tokens opener.marker p (used + (count - used)) := by
          rw [Nat.add_sub_cancel' hle]
          exact hrun
        have hwrap := h.wrap hmilestones hstack hused (Nat.pos_of_ne_zero hcount) hparts.split.1
          (place.advance (opener.marker.run used))
        have hrest := ih hwrap (by omega) hparts.split.2
          (hmilestones.run hparts.split.1 hplace)
        rwa [Nat.add_assoc, Nat.add_sub_cancel' hle] at hrest

theorem resolve (h : draft.Reaches options tokens stands room a p)
    (hmilestones : Milestones tokens stands)
    (hon : marker = .tilde → options.strikethrough = true) (hrun : Run tokens marker p count)
    (hplace : stands p place) :
    (draft.resolve marker count place).Reaches options tokens stands room a (p + count) :=
  h.resolveUpTo hmilestones (Nat.le_refl count) hon hrun hplace

theorem finish (h : draft.Reaches options tokens stands room a p)
    (hmilestones : Milestones tokens stands) :
    Yields options tokens stands room a p draft.finish :=
  (Pending.yields h hmilestones).coalesce

end Draft.Reaches

/-! ### Attempts -/

/-- The node is what a construct that starts at index `p` makes of the tokens up to index `e`,
with content that `parse` has parsed. -/
structure Built (options : InlineOptions) (parse : ParseContent) (kind : Kind)
    (tokens : Array (Token Kind)) (p e : Nat) (node : Node) : Prop where
  found : ∃ frame ∈ framesAt options kind, ∃ c : Cursor, c.tokens = tokens ∧
    c.position ≤ tokens.size ∧ frame.opening.view tokens p = (some (), c.position) ∧
    (frame.closing p (parse [.rightBracket] c).1).view tokens (parse [.rightBracket] c).2.position =
      (some node, e)

namespace Frame
variable {parse : ParseContent} {kind : Kind} {c d : Cursor} {node : Node}

theorem attempt_built {frame : Frame} (hframe : frame ∈ framesAt options kind)
    (hparse : parse.Orderly) (hc : c.position ≤ c.tokens.size)
    (h : frame.attempt parse c = (some node, d)) :
    Built options parse kind c.tokens c.position d.position node := by
  obtain ⟨q, _, _, hview, hopens, hcontent, hclosing⟩ :=
    exists_content (framesAt_regular hframe) hparse hc h
  refine ⟨frame, hframe, { c with position := q }, rfl, hopens, hview, ?_⟩
  rw [hcontent]
  exact hclosing

theorem Tries.built {frames : List Frame} (h : Tries parse frames c (some node) d)
    (hframes : ∀ frame ∈ frames, frame ∈ framesAt options kind) (hparse : parse.Orderly)
    (hc : c.position ≤ c.tokens.size) :
    Built options parse kind c.tokens c.position d.position node := by
  obtain ⟨frame, hmem, c', htokens, hposition, hattempt⟩ :=
    h.exists_hit (fun frame hframe => framesAt_regular (hframes frame hframe)) hparse hc
  rw [← htokens, ← hposition] at hc ⊢
  exact attempt_built (hframes frame hmem) hparse hc hattempt

end Frame

namespace InlineParser
open InlineMarkdown.Frame
variable {parser : InlineParser} {inner : Option ParseContent} {kind : Kind} {c d : Cursor}
  {node : Node}

/-- A node that an attempt yields has been built by a construct. -/
theorem attemptAt_built (hinner : ∀ parse ∈ inner, parse.Orderly)
    (hc : c.position ≤ c.tokens.size) (h : parser.attemptAt inner kind c = (some node, d)) :
    ∃ parse ∈ inner, Built parser.options parse kind c.tokens c.position d.position node := by
  cases attemptAt_matched h with
  | matched _ hparse htries _ =>
    exact ⟨_, hparse, htries.built (fun _ => id) (hinner _ hparse) hc⟩

end InlineParser

/-- What is parsed with room for so many levels is yielded by the tokens that are passed, and its
texts are joined at every depth. -/
def ParseContent.Yields (options : InlineOptions) (tokens : Array (Token Kind))
    (stands : Nat → Position → Prop) (room : Nat) (parse : ParseContent) : Prop :=
  ∀ (stop : List Kind) (c : Cursor), c.tokens = tokens → c.position ≤ tokens.size →
    InlineMarkdown.Yields options tokens stands room c.position (parse stop c).2.position
        (parse stop c).1 ∧
      Separate (parse stop c).1

theorem Built.yields {parse : ParseContent} {kind : Kind} {e : Nat} {node : Node}
    (h : Built options parse kind tokens p e node) (hkind : KindAt tokens p kind)
    (hparse : parse.Yields options tokens stands room) :
    Yields options tokens stands (room + 1) p e [node] := by
  obtain ⟨frame, hframe, c, htokens, hc, hopening, hclosing⟩ := h.found
  obtain ⟨hcontent, hseparate⟩ := hparse [.rightBracket] c htokens hc
  exact .bracket hkind hframe hopening hcontent hseparate.tidy hclosing (.nil ..)

/-! ### Steps -/

namespace InlineParser
variable {parser : InlineParser} {inner : Option ParseContent} {token : Token Kind} {draft : Draft}
  {c : Cursor}

/-- A run of delimiters is resolved, or literal if it can have no meaning. -/
theorem delimiterRun_reaches (marker : Marker) (hmilestones : Milestones c.tokens stands)
    (h : draft.Reaches parser.options c.tokens stands room a c.position)
    (hkind : KindAt c.tokens c.position marker.kind) :
    (parser.delimiterRun marker draft c).1.Reaches parser.options c.tokens stands room a
      (parser.delimiterRun marker draft c).2.position := by
  obtain ⟨n, first, last, hn, hpos, hfirst, hlast, -, hcases⟩ :=
    parser.delimiterRun_cases hkind draft
  have hrun : Run c.tokens marker c.position n := by
    rw [hn]
    exact fun _ => Cursor.kindAt_runFrom
  have hstart := hmilestones.start hfirst
  rcases hcases with hliteral | ⟨hon, hresolve⟩
  · have hstop := hmilestones.stop hlast
    have hnext : c.position + (n - 1) + 1 = c.position + n := by omega
    rw [hnext] at hstop
    rw [hliteral, ← hrun.literal]
    exact h.pushText (by omega) (hrun.le_size hpos) hrun.eofFree hstart hstop
  · rw [hresolve]
    exact h.resolve hmilestones hon hrun hstart

/-- A step takes the draft along with the cursor. -/
theorem step_reaches (hmilestones : Milestones c.tokens stands)
    (hinner : ∀ parse ∈ inner, parse.Orderly ∧
      ∃ less, room = less + 1 ∧ parse.Yields parser.options c.tokens stands less)
    (h : draft.Reaches parser.options c.tokens stands room a c.position)
    (htoken : c.peek = some token) (heof : token.isEof = false) :
    (parser.step inner token draft c).1.Reaches parser.options c.tokens stands room a
      (parser.step inner token draft c).2.position := by
  have hlt : c.position < c.tokens.size := lt_size_of_peek htoken
  have htext (hmarker : ∀ marker : Marker, token.kind ≠ marker.kind) :
      (draft.pushText token.text token.span).Reaches parser.options c.tokens stands room a
        (c.position + 1) := by
    rw [← Token.literal_of_ne hmarker, ← literal_succ htoken]
    exact h.pushText (Nat.lt_succ_self _) hlt (.succ htoken heof) (hmilestones.start htoken)
      (hmilestones.stop htoken)
  have horderly := fun parse hparse => (hinner parse hparse).1
  have hstepped := parser.stepped inner token draft c
  generalize parser.step inner token draft c = behind at hstepped ⊢
  cases hstepped with
  | run marker hkind => exact delimiterRun_reaches marker hmilestones h ⟨token, htoken, hkind⟩
  | node hattempt =>
    obtain ⟨parse, hparse, hbuilt⟩ := attemptAt_built horderly (Nat.le_of_lt hlt) hattempt
    obtain ⟨-, less, rfl, hyields⟩ := hinner parse hparse
    exact h.push (hbuilt.yields ⟨token, htoken, rfl⟩ hyields)
  | leaf hleaf => exact h.push (.leaf htoken (leaf_of_leaf? hleaf) (.nil ..))
  | @text d hmarker hattempt =>
    show (draft.pushText token.text token.span).Reaches _ _ _ _ _ (d.position + 1)
    rw [(attemptAt_leads horderly (Nat.le_of_lt hlt) hattempt).2 rfl]
    exact htext hmarker

/-! ### Levels -/

theorem steps_reaches (hmilestones : Milestones c.tokens stands)
    (hinner : ∀ parse ∈ inner, parse.Orderly ∧
      ∃ less, room = less + 1 ∧ parse.Yields parser.options c.tokens stands less)
    (stop : List Kind) (limit : Nat)
    (h : draft.Reaches parser.options c.tokens stands room a c.position) :
    (parser.steps inner stop limit draft c).1.Reaches parser.options c.tokens stands room a
      (parser.steps inner stop limit draft c).2.position := by
  refine (steps_preserve (fun draft d => d.tokens = c.tokens ∧
    draft.Reaches parser.options c.tokens stands room a d.position) ?_ limit ⟨rfl, h⟩).2
  rintro draft d token ⟨htokens, hreaches⟩ htoken hstops
  rw [← htokens] at hmilestones hinner hreaches ⊢
  have hleads := (parser.step_leads (fun p hp => (hinner p hp).1) htoken draft).1
  exact ⟨hleads.tokens, step_reaches hmilestones hinner hreaches htoken (isEof_of_stopsAt hstops)⟩

theorem level_yields (hmilestones : Milestones tokens stands)
    (hinner : ∀ parse ∈ inner, parse.Orderly ∧
      ∃ less, room = less + 1 ∧ parse.Yields parser.options tokens stands less) :
    ParseContent.Yields parser.options tokens stands room (parser.level inner) := by
  rintro stop c rfl -
  have hreaches := steps_reaches hmilestones hinner stop c.remaining (Draft.Reaches.empty (a := c.position))
  exact ⟨hreaches.finish hmilestones, coalesce_separate _⟩

/-- Whatever is parsed is yielded by the tokens that are passed. -/
theorem atRoom_yields (parser : InlineParser) (hmilestones : Milestones tokens stands)
    (room : Nat) : ParseContent.Yields parser.options tokens stands room (parser.atRoom room) := by
  induction room with
  | zero => exact level_yields hmilestones nofun
  | succ room ih =>
    refine level_yields hmilestones fun parse hparse => ?_
    obtain rfl := Option.some.inj hparse
    exact ⟨parser.atRoom_orderly room, room, rfl, ih⟩

end InlineParser

end InlineMarkdown
