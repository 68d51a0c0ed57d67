import InlineMarkdown.Proofs.Layout
import InlineMarkdown.Proofs.Progress
import InlineMarkdown.Proofs.Spans

/-! Where the inline parser puts its nodes.

The tokens are laid over a source, with a mark in front of each. A construct at a bracket
spans from the mark in front of its first token to the mark behind its last (`Builds`), and
content tiles what is between the marks where its parse starts and where it ends
(`ParseContent.Places`). Step by step the draft keeps up with the cursor (`Draft.Abreast`):
no open run is the last node at a marker of its own kind, since runs are read as a whole. -/
namespace InlineMarkdown
open Attempt

variable {source : List Char} {tokens : Array (Token Kind)} {mark : Nat → Position}

/-! ### Spans of several tokens -/

/-- The span since a token, up to one that is further on. -/
theorem Laid.spanSince {c : Cursor} (h : Laid source c.tokens mark) {start : Nat}
    (hlt : start < c.position) (hwithin : c.position ≤ c.tokens.size) :
    c.spanSince start = ⟨mark start, mark c.position⟩ := by
  have hfirst := Array.getElem?_eq_getElem (Nat.lt_of_lt_of_le hlt hwithin)
  obtain ⟨last, hlast⟩ : ∃ last, c.tokens[c.position - 1]? = some last :=
    ⟨_, Array.getElem?_eq_getElem (by omega)⟩
  unfold Cursor.spanSince
  rw [hfirst]
  dsimp only
  rw [if_pos hlt, hlast]
  dsimp only
  rw [h.span hfirst, h.span hlast, Nat.sub_add_cancel (by omega)]

/-- A run of one kind stands for as many copies of its character. -/
theorem Laid.run (h : Laid source tokens mark) {kind : Kind} {c : Char}
    (hc : Kind.ofChar? c = some kind) (limit i : Nat) :
    Slice source (mark i) (mark (i + (Cursor.runFrom tokens kind limit i).length))
      (List.replicate (Cursor.runFrom tokens kind limit i).length c) := by
  induction limit generalizing i with
  | zero =>
    obtain ⟨_, hslice⟩ := h.slice (Nat.le_refl i)
    exact hslice.point
  | succ limit ih =>
    unfold Cursor.runFrom
    split
    · obtain ⟨_, hslice⟩ := h.slice (Nat.le_refl i)
      exact hslice.point
    · rename_i token htoken
      split
      · rename_i hkind
        have hrest := (h.char ⟨token, htoken, hkind⟩ hc).append (ih (i + 1))
        rwa [Nat.add_right_comm, Nat.add_assoc] at hrest
      · obtain ⟨_, hslice⟩ := h.slice (Nat.le_refl i)
        exact hslice.point

theorem Marker.ofChar?_char (marker : Marker) : Kind.ofChar? marker.char = some marker.kind := by
  cases marker <;> rfl

/-! ### Constructs at brackets -/

/-- What a construct makes of its content. -/
inductive Frame.Builds : Frame → List Node → NodeKind → List Node → Prop
  | image (alt : List Node) (url text title : List Char) :
      Builds InlineParser.image alt (.image url text title) []
  | footnote (content : List Node) (word : List Char) :
      Builds InlineParser.footnote content (.footnote word) []
  | citation (content : List Node) (word : List Char) :
      Builds InlineParser.citation content (.citation word) []
  | link (children : List Node) (url title : List Char) :
      Builds InlineParser.link children (.link url title) children
  | reference (children : List Node) (name : List Char) :
      Builds InlineParser.link children (.reference name [] []) children

/-- The node of a construct ends where its closing does. -/
def Frame.Ends (frame : Frame) (tokens : Array (Token Kind)) (start e : Nat) (content : List Node)
    (node : Node) : Prop :=
  ∃ kind children, frame.Builds content kind children ∧
    node = ⟨kind, Cursor.spanSince { tokens, position := e } start, children⟩

namespace InlineParser

theorem view_nodeSince {start q e : Nat} {kind : NodeKind} {children : List Node} {node : Node}
    (h : (nodeSince start kind children).view tokens q = (some node, e)) :
    node = ⟨kind, Cursor.spanSince { tokens, position := e } start, children⟩ := by
  obtain ⟨rfl, rfl⟩ : _ = node ∧ q = e := by simpa [view, nodeSince, look] using h
  rfl

theorem image_ends {start q e : Nat} {content : List Node} {node : Node}
    (h : (image.closing start content).view tokens q = (some node, e)) :
    image.Ends tokens start e content node := by
  obtain ⟨_, _, -, h⟩ := view_bind_eq_some (expect_moves _) h
  obtain ⟨⟨url, title⟩, _, -, h⟩ := view_bind_eq_some destination_moves h
  exact ⟨_, _, .image .., view_nodeSince h⟩

theorem footnote_ends {start q e : Nat} {content : List Node} {node : Node}
    (h : (footnote.closing start content).view tokens q = (some node, e)) :
    footnote.Ends tokens start e content node := by
  obtain ⟨_, _, -, h⟩ := view_bind_eq_some (identifier_moves _) h
  exact ⟨_, _, .footnote .., view_nodeSince h⟩

theorem citation_ends {start q e : Nat} {content : List Node} {node : Node}
    (h : (citation.closing start content).view tokens q = (some node, e)) :
    citation.Ends tokens start e content node := by
  obtain ⟨_, _, -, h⟩ := view_bind_eq_some (identifier_moves _) h
  exact ⟨_, _, .citation .., view_nodeSince h⟩

theorem link_ends {start q e : Nat} {content : List Node} {node : Node}
    (h : (link.closing start content).view tokens q = (some node, e)) :
    link.Ends tokens start e content node := by
  obtain ⟨_, _, -, h⟩ := view_bind_eq_some (expect_moves _) h
  obtain ⟨isParen, _, -, h⟩ := view_bind_eq_some (Moves.look fun _ => rfl) h
  cases isParen with
  | true =>
    obtain ⟨⟨url, title⟩, _, -, h⟩ := view_bind_eq_some destination_moves h
    exact ⟨_, _, .link .., view_nodeSince h⟩
  | false =>
    obtain ⟨_, _, -, h⟩ := view_bind_eq_some (expect_moves _) h
    obtain ⟨_, _, -, h⟩ := view_bind_eq_some (rawUntil_moves _) h
    obtain ⟨_, _, -, h⟩ := view_bind_eq_some (expect_moves _) h
    obtain ⟨_, _, -, h⟩ := view_bind_eq_some (Moves.ofOption _) h
    exact ⟨_, _, .reference .., view_nodeSince h⟩

theorem closing_ends {options : InlineOptions} {kind : Kind} {frame : Frame}
    (hframe : frame ∈ framesAt options kind) {start q e : Nat} {content : List Node} {node : Node}
    (h : (frame.closing start content).view tokens q = (some node, e)) :
    frame.Ends tokens start e content node := by
  rcases framesAt_cases hframe with rfl | rfl | rfl | rfl
  · exact image_ends h
  · exact footnote_ends h
  · exact citation_ends h
  · exact link_ends h

end InlineParser

/-- Between two brackets and what is behind them, the content leaves the children of a link
their place. -/
theorem Laid.bracketed (h : Laid source tokens mark) {p q e : Nat} {content : List Node}
    (hopen : KindAt tokens p .leftBracket) (hle : p + 1 ≤ q)
    (hclose : KindAt tokens q .rightBracket) (hlt : q < e)
    (htiles : Tiles content (mark (p + 1)) (mark q)) :
    Bracketed source ⟨mark p, mark e⟩ content := by
  obtain ⟨body, hbody⟩ := h.slice hle
  obtain ⟨rest, hrest⟩ := h.slice (Nat.succ_le_of_lt hlt)
  have hleft := h.char hopen (c := '[') rfl
  have hright := h.char hclose (c := ']') rfl
  refine ⟨body, rest, hleft.append (hbody.append (hright.append hrest)), ?_⟩
  rw [show '[' :: body = ['['] ++ body from rfl, Position.advance_append]
  show Tiles content ((mark p).advance ['[']) (((mark p).advance ['[']).advance body)
  rw [← hleft.stop_eq, ← hbody.stop_eq]
  exact htiles

/-- The nodes of a parse of content tile what it passes. -/
def ParseContent.Places (source : List Char) (mark : Nat → Position) (parse : ParseContent) : Prop :=
  ∀ (stop : List Kind) (c : Cursor), c.position ≤ c.tokens.size → Laid source c.tokens mark →
    Tiles (parse stop c).1 (mark c.position) (mark (parse stop c).2.position) ∧
      ∀ node ∈ (parse stop c).1, Placed source node

namespace Frame
open InlineParser
variable {parse : ParseContent} {options : InlineOptions} {kind : Kind} {c d : Cursor} {node : Node}

/-- What a construct opens with if it is a link. -/
theorem link_opening {p q : Nat} (h : link.opening.view tokens p = (some (), q)) :
    q = p + 1 ∧ KindAt tokens p .leftBracket :=
  view_expect_eq_some h

/-- A construct that matches stands where it was tried. -/
theorem attempt_placed {frame : Frame} (hframe : frame ∈ framesAt options kind)
    (horderly : parse.Orderly) (hplaces : parse.Places source mark)
    (hc : c.position ≤ c.tokens.size) (hlaid : Laid source c.tokens mark)
    (h : frame.attempt parse c = (some node, d)) :
    Placed source node ∧ node.span = ⟨mark c.position, mark d.position⟩ := by
  have hregular := framesAt_regular hframe
  have hpassed := attempt_leads hregular horderly hc
  rw [h] at hpassed
  obtain ⟨hleads, hmoved⟩ := hpassed
  obtain ⟨q, content, middle, hview, hopens, hcontent, hclosing⟩ :=
    exists_content hregular horderly hc h
  obtain ⟨htiles, hbelow⟩ := hplaces [.rightBracket] { c with position := q } hopens hlaid
  have hle := (horderly.leads [.rightBracket] { c with position := q } hopens).2
  rw [hcontent] at htiles hbelow hle
  obtain ⟨hright, hlt⟩ := hregular.bracket hclosing
  obtain ⟨nodeKind, children, hbuilds, rfl⟩ := closing_ends hframe hclosing
  have hstart : c.position < d.position := hmoved nofun
  have hwithin : d.position ≤ c.tokens.size := hleads.tokens ▸ hleads.within
  have hspan : Cursor.spanSince { tokens := c.tokens, position := d.position } c.position =
      ⟨mark c.position, mark d.position⟩ :=
    Laid.spanSince (c := { tokens := c.tokens, position := d.position }) hlaid hstart hwithin
  rw [hspan]
  refine ⟨?_, rfl⟩
  obtain ⟨text, hslice⟩ := hlaid.slice (Nat.le_of_lt hstart)
  cases hbuilds with
  | image | footnote | citation => exact placed_leaf hslice trivial
  | link | reference =>
    obtain ⟨rfl, hleft⟩ := link_opening hview
    have hbracketed := hlaid.bracketed hleft hle hright hlt htiles
    first
      | exact .mk ⟨text, hslice⟩ (.inr hbracketed) ⟨_, _, htiles⟩ hbelow
      | exact .mk ⟨text, hslice⟩ hbracketed ⟨_, _, htiles⟩ hbelow

theorem Tries.placed {frames : List Frame} (hframes : ∀ frame ∈ frames, frame ∈ framesAt options kind)
    (horderly : parse.Orderly) (hplaces : parse.Places source mark)
    (h : Tries parse frames c (some node) d) (hc : c.position ≤ c.tokens.size)
    (hlaid : Laid source c.tokens mark) :
    Placed source node ∧ node.span = ⟨mark c.position, mark d.position⟩ := by
  obtain ⟨frame, hmem, c', htokens, hposition, hattempt⟩ :=
    h.exists_hit (fun frame hframe => framesAt_regular (hframes frame hframe)) horderly hc
  rw [← htokens, ← hposition] at hc
  rw [← htokens] at hlaid
  rw [← hposition]
  exact attempt_placed (hframes frame hmem) horderly hplaces hc hlaid hattempt

end Frame

namespace InlineParser
open InlineMarkdown.Frame
variable {parser : InlineParser} {inner : Option ParseContent} {kind : Kind} {c d : Cursor}
  {node : Node}

/-! ### Attempts -/

/-- An attempt that yields a node yields one that stands where it has passed. -/
theorem Outcome.placed {abandoned : Bool} (h : Outcome parser inner kind c abandoned (some node) d)
    (hinner : ∀ parse ∈ inner, parse.Orderly ∧ parse.Places source mark)
    (hc : c.position ≤ c.tokens.size) (hlaid : Laid source c.tokens mark) :
    Placed source node ∧ node.span = ⟨mark c.position, mark d.position⟩ := by
  cases h with
  | @matched parse found e _ hparse htries _ =>
    obtain ⟨horderly, hplaces⟩ := hinner _ hparse
    have hplaced := htries.placed (fun _ hframe => hframe) horderly hplaces hc hlaid
    exact hplaced

end InlineParser

/-! ### Steps -/

/-- From `a` to the cursor the source has become the nodes of the draft, and no run of the
kind of the current token is the last of them. -/
structure Draft.Abreast (source : List Char) (mark : Nat → Position) (a : Position) (draft : Draft)
    (c : Cursor) : Prop where
  spanned : draft.Spanned source a (mark c.position)
  settled (marker : Marker) : KindAt c.tokens c.position marker.kind → draft.Settled marker

/-- Nothing counts but the tokens and the position. -/
theorem Draft.Abreast.of_position {a : Position} {draft : Draft} {c d : Cursor}
    (h : draft.Abreast source mark a c) (hposition : d.position = c.position)
    (htokens : d.tokens = c.tokens) : draft.Abreast source mark a d := by
  refine ⟨by rw [hposition]; exact h.spanned, fun marker hkind => h.settled marker ?_⟩
  rwa [hposition, htokens] at hkind

namespace InlineParser
open InlineMarkdown.Frame
variable {parser : InlineParser} {inner : Option ParseContent} {token : Token Kind} {a : Position}
  {draft : Draft} {c : Cursor}

theorem abreast_push {q : Nat} (h : draft.Abreast source mark a c) {node : Node}
    (hnode : Placed source node) (hspan : node.span = ⟨mark c.position, mark q⟩) :
    (draft.push node).Abreast source mark a { c with position := q } :=
  ⟨h.spanned.push hnode hspan, fun marker _ => h.spanned.stacked.settled_push node marker⟩

theorem abreast_pushText {q : Nat} (h : draft.Abreast source mark a c)
    (hlaid : Laid source c.tokens mark) (hle : c.position ≤ q) (text : List Char) :
    (draft.pushText text ⟨mark c.position, mark q⟩).Abreast source mark a
      { c with position := q } := by
  obtain ⟨_, hslice⟩ := hlaid.slice hle
  exact ⟨h.spanned.pushText hslice text,
    fun marker _ => Draft.settled_pushText h.spanned.stacked text _ marker⟩

/-- A run of delimiters is read as a whole, so that what follows is no run of its kind. -/
theorem delimiterRun_abreast (parser : InlineParser) (marker : Marker)
    (h : draft.Abreast source mark a c) (hlaid : Laid source c.tokens mark)
    (hkind : KindAt c.tokens c.position marker.kind) :
    (parser.delimiterRun marker draft c).1.Abreast source mark a
      (parser.delimiterRun marker draft c).2 := by
  obtain ⟨n, first, last, hn, hpos, hfirst, hlast, hmaximal, hcases⟩ :=
    parser.delimiterRun_cases hkind draft
  have hslice := hlaid.run marker.ofChar?_char c.remaining c.position
  have hfirstSpan := hlaid.span hfirst
  rw [← hn] at hslice
  rcases hcases with hrun | ⟨-, hrun⟩ <;> rw [hrun, hfirstSpan]
  · have hnext : c.position + (n - 1) + 1 = c.position + n := by omega
    rw [hlaid.span hlast, hnext]
    exact abreast_pushText h hlaid (Nat.le_add_right ..) _
  · obtain ⟨hspanned, hothers⟩ := h.spanned.resolve hpos hslice (h.settled marker hkind)
    refine ⟨hspanned, fun m hm => hothers m ?_⟩
    rintro rfl
    exact hmaximal hm

/-- The link of an address stands where the address does. -/
theorem addressLink_placed {p : Nat} (hlaid : Laid source tokens mark)
    (htoken : tokens[p]? = some token) (hkind : token.kind = .autolink ∨ token.kind = .url) :
    Placed source (addressLink token) := by
  obtain ⟨_, hslice⟩ := hlaid.covers htoken
  have htext (text : List Char) : Placed source (Node.ofText text token.span) :=
    placed_leaf hslice trivial
  refine .mk (htext []).covers (.inl ⟨token, hlaid.mem htoken, hkind, rfl⟩)
    ⟨_, _, tiles_singleton.2 rfl⟩ fun child hchild => ?_
  obtain rfl := List.mem_singleton.1 hchild
  exact htext _

theorem leaf?_placed {options : InlineOptions} {p : Nat} {node : Node}
    (hlaid : Laid source tokens mark) (htoken : tokens[p]? = some token)
    (h : leaf? options token = some node) : Placed source node ∧ node.span = token.span := by
  obtain ⟨_, hslice⟩ := hlaid.covers htoken
  have hleaf {kind : NodeKind} (hkind : Framed source kind token.span []) :
      Placed source ⟨kind, token.span, []⟩ := placed_leaf hslice hkind
  unfold leaf? at h
  cases hkind : token.kind with
  | inlineCode =>
    rw [hkind] at h
    obtain rfl := Option.some.inj h
    exact ⟨hleaf trivial, rfl⟩
  | formula | htmlTag | htmlBlock | htmlUnclosedBlock | htmlEntity =>
    rw [hkind] at h
    obtain ⟨-, h⟩ := Option.ite_none_right_eq_some.1 h
    obtain rfl := Option.some.inj h
    exact ⟨hleaf trivial, rfl⟩
  | autolink =>
    rw [hkind] at h
    obtain ⟨-, h⟩ := Option.ite_none_right_eq_some.1 h
    obtain rfl := Option.some.inj h
    exact ⟨addressLink_placed hlaid htoken (.inl hkind), rfl⟩
  | url =>
    rw [hkind] at h
    obtain ⟨-, h⟩ := Option.ite_none_right_eq_some.1 h
    obtain rfl := Option.some.inj h
    exact ⟨addressLink_placed hlaid htoken (.inr hkind), rfl⟩
  | _ =>
    rw [hkind] at h
    exact nomatch h

/-- A step takes the draft along with the cursor. -/
theorem step_abreast (parser : InlineParser)
    (hinner : ∀ parse ∈ inner, parse.Orderly ∧ parse.Places source mark)
    (h : draft.Abreast source mark a c) (hlaid : Laid source c.tokens mark)
    (htoken : c.peek = some token) :
    (parser.step inner token draft c).1.Abreast source mark a (parser.step inner token draft c).2 := by
  have hspan := hlaid.span htoken
  have hc : c.position ≤ c.tokens.size := Nat.le_of_lt (lt_size_of_peek htoken)
  have htext : (draft.pushText token.text token.span).Abreast source mark a c.advance := by
    rw [hspan]
    exact abreast_pushText h hlaid (Nat.le_succ _) _
  have horderly := fun parse hparse => (hinner parse hparse).1
  have hstepped := parser.stepped inner token draft c
  generalize parser.step inner token draft c = behind at hstepped ⊢
  cases hstepped with
  | run marker hkind => exact parser.delimiterRun_abreast marker h hlaid ⟨token, htoken, hkind⟩
  | node hattempt =>
    obtain ⟨hplaced, hstands⟩ := (attemptAt_matched hattempt).placed hinner hc hlaid
    have htokens := (attemptAt_leads horderly hc hattempt).1.tokens
    exact (abreast_push h hplaced hstands).of_position rfl htokens
  | leaf hleaf =>
    obtain ⟨hplaced, hstands⟩ := leaf?_placed hlaid htoken hleaf
    exact abreast_push h hplaced (hstands.trans hspan)
  | text _ hattempt =>
    obtain ⟨hleads, hposition⟩ := attemptAt_leads horderly hc hattempt
    exact htext.of_position (congrArg (· + 1) (hposition rfl)) hleads.tokens

/-! ### Levels -/

theorem steps_abreast (hinner : ∀ parse ∈ inner, parse.Orderly ∧ parse.Places source mark)
    (stop : List Kind) (limit : Nat) (h : draft.Abreast source mark a c)
    (hlaid : Laid source c.tokens mark) :
    (parser.steps inner stop limit draft c).1.Abreast source mark a
      (parser.steps inner stop limit draft c).2 := by
  refine (steps_preserve
    (fun draft d => draft.Abreast source mark a d ∧ Laid source d.tokens mark) ?_ limit
    ⟨h, hlaid⟩).1
  rintro draft d token ⟨habreast, hlaidd⟩ htoken -
  refine ⟨parser.step_abreast hinner habreast hlaidd htoken, ?_⟩
  rwa [(parser.step_leads (fun p hp => (hinner p hp).1) htoken draft).1.tokens]

theorem level_places (parser : InlineParser)
    (hinner : ∀ parse ∈ inner, parse.Orderly ∧ parse.Places source mark) :
    ParseContent.Places source mark (parser.level inner) := by
  intro stop c _ hlaid
  obtain ⟨_, hslice⟩ := hlaid.slice (Nat.le_refl c.position)
  have hempty : Draft.Abreast source mark (mark c.position) {} c :=
    ⟨.empty hslice.point, fun _ _ => nofun⟩
  exact (steps_abreast hinner stop c.remaining hempty hlaid).spanned.finish

theorem atRoom_places (parser : InlineParser) (room : Nat) :
    ParseContent.Places source mark (parser.atRoom room) := by
  induction room with
  | zero => exact parser.level_places nofun
  | succ room ih =>
    refine parser.level_places fun parse hparse => ?_
    obtain rfl := Option.some.inj hparse
    exact ⟨parser.atRoom_orderly room, ih⟩

/-- What is parsed tiles what is passed, at every depth. -/
theorem parse_places (parser : InlineParser) : ParseContent.Places source mark parser.parse :=
  fun stop c => parser.atRoom_places _ stop c

end InlineParser
end InlineMarkdown
