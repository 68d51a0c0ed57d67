import InlineMarkdown.Proofs.Progress

/-! Enough room.

Attempts that are nested start at different tokens, each at a bracket or an
exclamation mark. So no attempt is ever given up where as many levels may be opened as
there are such tokens left (`atRoom_roomy`). -/
namespace InlineMarkdown
open Attempt

/-! ### Openers -/

/-- A token of this kind may start a construct. -/
def Kind.isOpener (kind : Kind) : Bool := kind == .leftBracket || kind == .exclamation

/-- How many tokens from position `p` on may start a construct. -/
def openersFrom (tokens : Array (Token Kind)) (p : Nat) : Nat :=
  (tokens.toList.drop p).countP (·.kind.isOpener)

theorem openersFrom_le {tokens : Array (Token Kind)} {p q : Nat} (h : p ≤ q) :
    openersFrom tokens q ≤ openersFrom tokens p := by
  obtain ⟨n, rfl⟩ := Nat.exists_eq_add_of_le h
  unfold openersFrom
  rw [← List.drop_drop]
  exact (List.drop_sublist n _).countP_le

/-- Behind an opener there is one opener less. -/
theorem openersFrom_lt {tokens : Array (Token Kind)} {p q : Nat} {token : Token Kind}
    (htoken : tokens[p]? = some token) (hopener : token.kind.isOpener = true) (h : p < q) :
    openersFrom tokens q < openersFrom tokens p := by
  refine Nat.lt_of_le_of_lt (openersFrom_le (Nat.succ_le_of_lt h)) ?_
  obtain ⟨hlt, hget⟩ := Array.getElem?_eq_some_iff.1 htoken
  have hcons : tokens.toList.drop p = token :: tokens.toList.drop (p + 1) := by
    rw [List.drop_eq_getElem_cons (by simpa using hlt)]
    simp [hget]
  unfold openersFrom
  simp [hcons, hopener]

theorem openersFrom_le_size (tokens : Array (Token Kind)) (p : Nat) :
    openersFrom tokens p ≤ tokens.size := by
  refine Nat.le_trans List.countP_le_length ?_
  simp

theorem Inside.openersFrom_lt {tokens : Array (Token Kind)} {p q : Nat} (h : Inside tokens p q) :
    openersFrom tokens q < openersFrom tokens p := by
  have hlt := h.lt
  cases h with
  | bracket hp | marked hp _ _ =>
    obtain ⟨token, htoken, hkind⟩ := hp
    exact InlineMarkdown.openersFrom_lt htoken (by rw [hkind]; rfl) hlt
  | image hp _ =>
    obtain ⟨token, htoken, hkind⟩ := hp
    exact InlineMarkdown.openersFrom_lt htoken (by rw [hkind]; rfl) hlt

theorem InlineParser.isOpener_of_framesAt {options : InlineOptions} {kind : Kind}
    (h : framesAt options kind ≠ []) : kind.isOpener = true := by
  cases kind with
  | exclamation | leftBracket => rfl
  | _ => exact absurd rfl h

/-! ### Runs with enough room -/

/-- A parse that does not give up where at most `room` openers are left. -/
def ParseContent.Roomy (parse : ParseContent) (room : Nat) : Prop :=
  ∀ (stop : List Kind) (c : Cursor), c.position ≤ c.tokens.size → c.abandoned = false →
    openersFrom c.tokens c.position ≤ room → (parse stop c).2.abandoned = false

namespace Frame
variable {parse : ParseContent} {room : Nat}

theorem attempt_roomy {frame : Frame} (hframe : frame.Regular) (hparse : parse.Roomy room)
    {c : Cursor} (hc : c.position ≤ c.tokens.size) (hgoing : c.abandoned = false)
    (hroom : openersFrom c.tokens c.position ≤ room + 1) :
    (frame.attempt parse c).2.abandoned = false := by
  have hopens := hframe.opens.within c.tokens c.position hc
  rcases hview : frame.opening.view c.tokens c.position with ⟨_ | _, q⟩ <;> rw [hview] at hopens
  · rw [attempt_of_closed hframe hview]
    exact hgoing
  · have hlt := (hframe.inside hview).openersFrom_lt
    have hcontent := hparse [.rightBracket] { c with position := q } hopens hgoing
      (show openersFrom c.tokens q ≤ room by omega)
    rw [attempt_of_open hframe hview rfl]
    exact hcontent

theorem Tries.roomy {frames : List Frame} (hframes : ∀ frame ∈ frames, frame.Regular)
    (horderly : parse.Orderly) (hparse : parse.Roomy room) {c d : Cursor} {result : Option Node}
    (h : Tries parse frames c result d) (hc : c.position ≤ c.tokens.size)
    (hgoing : c.abandoned = false) (hroom : openersFrom c.tokens c.position ≤ room + 1) :
    d.abandoned = false := by
  induction h with
  | exhausted => exact hgoing
  | @hit frame rest c d node hattempt =>
    have hfirst := attempt_roomy (hframes _ (List.mem_cons_self ..)) hparse hc hgoing hroom
    rwa [hattempt] at hfirst
  | @miss frame rest c d e result reports hattempt hrest ih =>
    have hregular := hframes _ (List.mem_cons_self ..)
    have hfirst := attempt_roomy hregular hparse hc hgoing hroom
    rw [hattempt] at hfirst
    obtain ⟨hretry, hposition⟩ := miss_leads hregular horderly hc hattempt reports
    refine ih (fun f hf => hframes f (List.mem_cons_of_mem _ hf)) hretry.within hfirst ?_
    rwa [hretry.tokens, hposition]

end Frame

namespace InlineParser
open InlineMarkdown.Frame
variable {parser : InlineParser} {inner : Option ParseContent} {kind : Kind} {c d : Cursor}
  {room : Nat}

/-- What parses content has room for one opener less, and is there if there is an opener. -/
def RoomyInside (inner : Option ParseContent) (room : Nat) : Prop :=
  (inner = none → room = 0) ∧
    ∀ parse ∈ inner, parse.Orderly ∧ ∃ less, room = less + 1 ∧ parse.Roomy less

theorem Outcome.roomy {abandoned : Bool} {result : Option Node}
    (h : Outcome parser inner kind c abandoned result d)
    (hinner : RoomyInside inner room) (hc : c.position ≤ c.tokens.size)
    (hgoing : c.abandoned = false) (hroom : openersFrom c.tokens c.position ≤ room)
    (hopener : 0 < openersFrom c.tokens c.position) : d.abandoned = false := by
  cases h with
  | known => exact hgoing
  | full _ hnone =>
    have := hinner.1 hnone
    omega
  | @givenUp parse result e _ _ hparse htries habandoned =>
    obtain ⟨horderly, less, rfl, hroomy⟩ := hinner.2 _ hparse
    have := htries.roomy (fun _ => framesAt_regular) horderly hroomy hc hgoing hroom
    rw [this] at habandoned
    simp at habandoned
  | matched _ _ _ habandoned | failed _ _ _ habandoned =>
    show (_ && _) = false
    rw [Bool.and_eq_false_iff]
    exact .inl habandoned

theorem step_roomy (parser : InlineParser) {token : Token Kind} (hinner : RoomyInside inner room)
    (htoken : c.peek = some token) (hgoing : c.abandoned = false)
    (hroom : openersFrom c.tokens c.position ≤ room) (draft : Draft) :
    (parser.step inner token draft c).2.abandoned = false := by
  rcases parser.step_abandoned_cases inner htoken draft with
    hstep | ⟨hframes, _, _, _, houtcome, hstep⟩ <;> rw [hstep]
  · exact hgoing
  · have hopener := openersFrom_lt htoken (isOpener_of_framesAt hframes) (Nat.lt_succ_self _)
    exact houtcome.roomy hinner (Nat.le_of_lt (lt_size_of_peek htoken)) hgoing hroom
      (Nat.zero_lt_of_lt hopener)

theorem level_roomy (hinner : RoomyInside inner room) :
    ParseContent.Roomy (parser.level inner) room := by
  intro stop c hc hgoing hroom
  show (parser.steps inner stop c.remaining {} c).2.abandoned = false
  refine (steps_preserve
    (fun _ d => d.abandoned = false ∧ openersFrom d.tokens d.position ≤ room) ?_ _
    ⟨hgoing, hroom⟩).1
  intro draft d token hd htoken _
  obtain ⟨hleads, hlt⟩ :=
    parser.step_leads (fun parse hparse => (hinner.2 parse hparse).1) htoken draft
  refine ⟨parser.step_roomy hinner htoken hd.1 hd.2 draft, ?_⟩
  rw [hleads.tokens]
  exact Nat.le_trans (openersFrom_le (Nat.le_of_lt hlt)) hd.2

theorem atRoom_roomy (parser : InlineParser) (room : Nat) :
    ParseContent.Roomy (parser.atRoom room) room := by
  induction room with
  | zero => exact level_roomy ⟨fun _ => rfl, nofun⟩
  | succ room ih =>
    refine level_roomy ⟨nofun, fun parse hparse => ?_⟩
    obtain rfl := Option.some.inj hparse
    exact ⟨parser.atRoom_orderly room, room, rfl, ih⟩

theorem inside_roomy (parser : InlineParser) (room : Nat) :
    RoomyInside (parser.inside room) room := by
  cases room with
  | zero => exact ⟨fun _ => rfl, nofun⟩
  | succ room =>
    refine ⟨nofun, fun parse hparse => ?_⟩
    obtain rfl := Option.some.inj hparse
    exact ⟨parser.atRoom_orderly room, room, rfl, parser.atRoom_roomy room⟩

end InlineParser
end InlineMarkdown
