import InlineMarkdown.Proofs.Step

/-! How attempts end.

`Tries` relates a cursor to what trying some constructs in turn makes of it, and
`Outcome` lists the five ways in which an attempt at a bracket can end: the failure was
known, there was no room, the attempts in progress were given up, a construct
matched, or none did. Both leave open what was reported, since nothing that the parser
does depends on it. -/
namespace InlineMarkdown
open Attempt

/-- The cursor with other reports. -/
def Cursor.reporting (c : Cursor) (reports : List Event) : Cursor := { c with reports }

namespace Frame
variable {frame : Frame} {parse : ParseContent} {c : Cursor}

/-! ### One construct -/

theorem attempt_of_closed (hframe : frame.Regular) {q : Nat}
    (h : frame.opening.view c.tokens c.position = (none, q)) :
    frame.attempt parse c = (none, { c with position := q }) := by
  have hrun := hframe.opens.run c
  rw [h] at hrun
  show (frame.opening >>= fun _ => ofStep (parse [.rightBracket]) >>= frame.closing c.position) c = _
  exact bind_none hrun

theorem attempt_of_open (hframe : frame.Regular) {q : Nat} {content : List Node} {d : Cursor}
    (h : frame.opening.view c.tokens c.position = (some (), q))
    (hparse : parse [.rightBracket] { c with position := q } = (content, d)) :
    frame.attempt parse c =
      (((frame.closing c.position content).view d.tokens d.position).1,
        { d with position := ((frame.closing c.position content).view d.tokens d.position).2 }) := by
  have hrun := hframe.opens.run c
  rw [h] at hrun
  have hcontent : ofStep (parse [.rightBracket]) { c with position := q } = (some content, d) := by
    simp only [ofStep, hparse]
  show (frame.opening >>= fun _ => ofStep (parse [.rightBracket]) >>= frame.closing c.position) c = _
  rw [bind_some hrun, bind_some hcontent, (hframe.closes _ _).run]

/-! ### Several constructs in turn -/

/-- Trying the constructs in turn at `c` yields the node, if one matches, and leaves
the second cursor. A construct that fails takes the position back. -/
inductive Tries (parse : ParseContent) : List Frame → Cursor → Option Node → Cursor → Prop
  | exhausted (c : Cursor) : Tries parse [] c none c
  | hit {frame : Frame} {rest : List Frame} {c d : Cursor} {node : Node} :
      frame.attempt parse c = (some node, d) → Tries parse (frame :: rest) c (some node) d
  | miss {frame : Frame} {rest : List Frame} {c d e : Cursor} {result : Option Node}
      {reports : List Event} : frame.attempt parse c = (none, d) →
      Tries parse rest ((d.reset c.position).reporting reports) result e →
      Tries parse (frame :: rest) c result e

theorem tries_firstOf (frames : List Frame) (c : Cursor) :
    Tries parse frames c (firstOf parse frames c).1 (firstOf parse frames c).2 := by
  induction frames generalizing c with
  | nil => exact .exhausted c
  | cons frame rest ih =>
    unfold firstOf orElse speculate
    rcases h : frame.attempt parse c with ⟨_ | node, d⟩
    · exact .miss h (ih _)
    · exact .hit h

end Frame

namespace InlineParser
open InlineMarkdown.Frame

/-! ### Attempts at brackets -/

/-- The ways in which an attempt at a token of some kind can end. `parser` looks for
known failures if it remembers them, and `inner` parses the content if there is room.
`abandoned` says whether it was given up for lack of room. -/
inductive Outcome (parser : InlineParser) (inner : Option ParseContent) (kind : Kind) (c : Cursor) :
    (abandoned : Bool) → Option Node → Cursor → Prop
  /-- The failure was known. -/
  | known : parser.search.remember = true → c.knownFailure c.position = true →
      Outcome parser inner kind c false none c
  /-- There is no room for another level. -/
  | full {reports : List Event} :
      (parser.search.remember = true → c.knownFailure c.position = false) → inner = none →
      Outcome parser inner kind c true none (c.abandon.reporting reports)
  /-- Somewhere inside there was no room, so that the result does not count. -/
  | givenUp {parse : ParseContent} {result : Option Node} {d : Cursor} {reports : List Event} :
      (parser.search.remember = true → c.knownFailure c.position = false) → inner = some parse →
      Tries parse (framesAt parser.options kind) c.descend result d → d.abandoned = true →
      Outcome parser inner kind c true none ((d.ascend.2.reset c.position).reporting reports)
  /-- A construct matched. -/
  | matched {parse : ParseContent} {node : Node} {d : Cursor} :
      (parser.search.remember = true → c.knownFailure c.position = false) → inner = some parse →
      Tries parse (framesAt parser.options kind) c.descend (some node) d → d.abandoned = false →
      Outcome parser inner kind c false (some node) d.ascend.2
  /-- No construct matched, which is remembered. -/
  | failed {parse : ParseContent} {d : Cursor} {reports : List Event} :
      (parser.search.remember = true → c.knownFailure c.position = false) → inner = some parse →
      Tries parse (framesAt parser.options kind) c.descend none d → d.abandoned = false →
      Outcome parser inner kind c false none
        (((d.reset c.position).ascend.2.recordFailure c.position).reporting reports)

/-- What a token starts is tried in turn. -/
theorem tries_speculate {options : InlineOptions} {kind : Kind} (parse : ParseContent)
    (construct : Construct) (c : Cursor) (h : framesAt options kind ≠ []) :
    (∃ node d, speculate construct (bodyAt options parse kind) c = (some node, d) ∧
      Tries parse (framesAt options kind) c (some node) d) ∨
    ∃ d reports, speculate construct (bodyAt options parse kind) c =
      (none, (d.reset c.position).reporting reports) ∧
      Tries parse (framesAt options kind) c none d := by
  cases kind with
  | exclamation =>
    have hframes : framesAt options .exclamation = [image] := by
      cases hi : options.images <;> simp [framesAt, hi] at h ⊢
    rw [hframes]
    simp only [bodyAt, speculate]
    rcases hattempt : image.attempt parse c with ⟨_ | node, d⟩
    · exact .inr ⟨(d.reset c.position).reporting [], _, rfl, .miss hattempt (.exhausted _)⟩
    · exact .inl ⟨node, d, rfl, .hit hattempt⟩
  | leftBracket =>
    have htries := @tries_firstOf parse (bracketFrames options) c
    simp only [bodyAt, bracket, speculate]
    rcases hfirst : firstOf parse (bracketFrames options) c with ⟨_ | node, d⟩ <;>
      rw [hfirst] at htries
    · exact .inr ⟨d, _, rfl, htries⟩
    · exact .inl ⟨node, d, rfl, htries⟩
  | _ => exact absurd rfl h

/-- An attempt at a token of this kind is given up for lack of room. -/
def givesUp (parser : InlineParser) (inner : Option ParseContent) (kind : Kind) (c : Cursor) :
    Bool :=
  !(parser.search.remember && c.knownFailure c.position) && inner.all fun parse =>
    (speculate (constructAt kind) (bodyAt parser.options parse kind) c.descend).2.abandoned

theorem attemptAt_givesUp (parser : InlineParser) (inner : Option ParseContent) {kind : Kind}
    (c : Cursor) (h : framesAt parser.options kind ≠ []) :
    Outcome parser inner kind c (parser.givesUp inner kind c) (parser.attemptAt inner kind c).1
      (parser.attemptAt inner kind c).2 := by
  rw [attemptAt_of_framesAt_ne_nil inner h]
  unfold bracketed givesUp
  dsimp only
  by_cases hknown : (parser.search.remember && c.knownFailure c.position) = true
  · rw [if_pos hknown, hknown]
    obtain ⟨hremember, hfailure⟩ := Bool.and_eq_true_iff.1 hknown
    exact .known hremember hfailure
  · rw [if_neg hknown, eq_false_of_ne_true hknown]
    have hnew : parser.search.remember = true → c.knownFailure c.position = false := by
      intro hremember
      simpa [hremember] using hknown
    cases inner with
    | none => exact .full hnew rfl
    | some parse =>
      dsimp only [Option.all_some]
      rcases tries_speculate parse (constructAt kind) c.descend h with
        ⟨node, ⟨tokens, position, failed, depth, abandoned, reported⟩, hrun, htries⟩ |
        ⟨⟨tokens, position, failed, depth, abandoned, reported⟩, reports, hrun, htries⟩ <;>
        rw [hrun] <;> cases abandoned
      · exact .matched hnew rfl htries rfl
      · exact .givenUp hnew rfl htries rfl
      · exact .failed hnew rfl htries rfl
      · exact .givenUp hnew rfl htries rfl

theorem attemptAt_outcome (parser : InlineParser) (inner : Option ParseContent) {kind : Kind}
    (c : Cursor) (h : framesAt parser.options kind ≠ []) :
    ∃ abandoned, Outcome parser inner kind c abandoned (parser.attemptAt inner kind c).1
      (parser.attemptAt inner kind c).2 :=
  ⟨_, parser.attemptAt_givesUp inner c h⟩

/-- An attempt that yields a node has been made, and a construct has matched. -/
theorem attemptAt_matched {parser : InlineParser} {inner : Option ParseContent} {kind : Kind}
    {c d : Cursor} {node : Node} (h : parser.attemptAt inner kind c = (some node, d)) :
    Outcome parser inner kind c false (some node) d := by
  by_cases hframes : framesAt parser.options kind = []
  · rw [attemptAt_of_framesAt_nil inner hframes] at h
    cases h
  · obtain ⟨_, houtcome⟩ := attemptAt_outcome parser inner c hframes
    rw [h] at houtcome
    cases houtcome with
    | matched hnew hparse htries habandoned => exact .matched hnew hparse htries habandoned

/-- The mark behind a step is the one that was there, or the one that an attempt has left. -/
theorem step_abandoned_cases (parser : InlineParser) (inner : Option ParseContent) {c : Cursor}
    {token : Token Kind} (htoken : c.peek = some token) (draft : Draft) :
    (parser.step inner token draft c).2.abandoned = c.abandoned ∨
      framesAt parser.options token.kind ≠ [] ∧ ∃ abandoned result d,
        Outcome parser inner token.kind c abandoned result d ∧
          (parser.step inner token draft c).2.abandoned = d.abandoned := by
  by_cases hframes : framesAt parser.options token.kind = []
  · obtain ⟨f, q, -, -, hstep⟩ := exists_plain htoken hframes
    left
    rw [hstep parser rfl inner draft c rfl rfl]
  · obtain ⟨abandoned, houtcome⟩ := attemptAt_outcome parser inner c hframes
    refine .inr ⟨hframes, abandoned, _, _, houtcome, ?_⟩
    rw [parser.step_of_framesAt_ne_nil inner draft c hframes]
    unfold orText
    rcases parser.attemptAt inner token.kind c with ⟨_ | node, d⟩ <;> rfl

end InlineParser
end InlineMarkdown
