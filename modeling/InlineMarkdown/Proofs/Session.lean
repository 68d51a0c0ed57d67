import InlineMarkdown.Proofs.Unbounded

/-! Sessions on one cursor.

A session moves a cursor about and parses from it, in any order (`Session`). `Underway`
lists the states that such parses come through, at every level: the start of a call, a
step further, and the start of the content of a construct that is being tried. All of
them are `Standing`: what is remembered is sound and the nesting adds up. So whatever an
attempt yields in the midst of a session is what the naive parser yields there. -/
namespace InlineMarkdown
open Attempt

/-! ### Operations that do not parse -/

namespace Cursor

/-- From within the tokens only the position is moved, and not out of them. -/
def MovesTo (c d : Cursor) : Prop :=
  c.position ≤ c.tokens.size → ∃ q ≤ c.tokens.size, d = { c with position := q }

theorem movesTo_reset (c : Cursor) (position : Nat) : c.MovesTo (c.reset position) :=
  fun _ => ⟨_, Nat.min_le_right .., rfl⟩

theorem movesTo_bump (c : Cursor) : c.MovesTo c.bump.2 := by
  intro hc
  unfold bump
  rcases htoken : c.peek with _ | token
  · exact ⟨c.position, hc, rfl⟩
  · exact ⟨c.position + 1, lt_size_of_peek htoken, rfl⟩

theorem movesTo_eat (c : Cursor) (kind : Kind) : c.MovesTo (c.eat kind).2 := by
  intro hc
  unfold eat isAt peekKind
  rcases htoken : c.peek with _ | token
  · exact ⟨c.position, hc, rfl⟩
  · split
    · exact ⟨c.position + 1, lt_size_of_peek htoken, rfl⟩
    · exact ⟨c.position, hc, rfl⟩

theorem length_bumpRun_le (c : Cursor) (kind : Kind) :
    (c.bumpRun kind).1.length ≤ c.tokens.size - c.position :=
  length_runFrom_le ..

theorem movesTo_bumpRun (c : Cursor) (kind : Kind) : c.MovesTo (c.bumpRun kind).2 := by
  intro hc
  have hlength := c.length_bumpRun_le kind
  exact ⟨c.position + (c.bumpRun kind).1.length, by omega, rfl⟩

end Cursor

namespace Frame
variable {parser : InlineParser} {parse : ParseContent}

/-- Tries inside an attempt keep the memory sound. -/
theorem Tries.sound {frames : List Frame} (hframes : ∀ frame ∈ frames, frame.Regular)
    (horderly : parse.Orderly) (hparse : parse.Follows parser) {c d : Cursor}
    {result : Option Node} (h : Tries parse frames c result d) (hc : c.position ≤ c.tokens.size)
    (hgoing : c.abandoned = false) (hdepth : 1 ≤ c.depth) (hsound : parser.Sound c) :
    parser.Sound d := by
  have hroom : openersFrom c.tokens c.position ≤ c.tokens.size + 1 :=
    Nat.le_succ_of_le (openersFrom_le_size _ _)
  exact (h.agree hframes horderly hparse (tries_firstOf frames c) ⟨rfl, rfl, hgoing, hgoing⟩ hc
    hroom hdepth hsound).1

end Frame

namespace InlineParser
open InlineMarkdown.Frame
variable {parser : InlineParser} {tokens : Array (Token Kind)} {stop : List Kind} {room : Nat}
  {draft : Draft} {c d : Cursor} {token : Token Kind}

/-! ### Sessions -/

/-- The cursors over `tokens` that calls from outside lead to. -/
inductive Session (parser : InlineParser) (tokens : Array (Token Kind)) : Cursor → Prop
  | fresh : Session parser tokens { tokens }
  | reset {c : Cursor} (position : Nat) : Session parser tokens c →
      Session parser tokens (c.reset position)
  | bump {c : Cursor} : Session parser tokens c → Session parser tokens c.bump.2
  | eat {c : Cursor} (kind : Kind) : Session parser tokens c →
      Session parser tokens (c.eat kind).2
  | bumpRun {c : Cursor} (kind : Kind) : Session parser tokens c →
      Session parser tokens (c.bumpRun kind).2
  | parse {c : Cursor} (stop : List Kind) : Session parser tokens c →
      Session parser tokens (parser.parse stop c).2

/-- The states between the steps of all parses in a session. The parse at hand stops at
`stop` and may open `room` more levels. -/
inductive Underway (parser : InlineParser) (tokens : Array (Token Kind)) :
    List Kind → Nat → Draft → Cursor → Prop
  /-- A call from outside. -/
  | call {c : Cursor} (stop : List Kind) : Session parser tokens c →
      Underway parser tokens stop (parser.search.nesting - c.depth) {} c
  /-- A step further. -/
  | step {stop : List Kind} {room : Nat} {draft : Draft} {c : Cursor} {token : Token Kind} :
      Underway parser tokens stop room draft c → c.peek = some token →
      stopsAt stop c token = false →
      Underway parser tokens stop room (parser.step (parser.inside room) token draft c).1
        (parser.step (parser.inside room) token draft c).2
  /-- The content of the construct `frame` that is tried at the current token, after
  those before it have been tried in vain. -/
  | content {stop : List Kind} {room : Nat} {draft : Draft} {c d : Cursor} {token : Token Kind}
      {before after : List Frame} {frame : Frame} {q : Nat} :
      Underway parser tokens stop (room + 1) draft c → c.peek = some token →
      stopsAt stop c token = false →
      (parser.search.remember = true → c.knownFailure c.position = false) →
      framesAt parser.options token.kind = before ++ frame :: after →
      Tries (parser.atRoom room) before c.descend none d →
      frame.opening.view d.tokens d.position = (some (), q) →
      Underway parser tokens [.rightBracket] room {} { d with position := q }

/-! ### What holds throughout -/

/-- What holds of every cursor in a session where `room` more levels may be opened. -/
structure Standing (parser : InlineParser) (tokens : Array (Token Kind)) (room : Nat)
    (c : Cursor) : Prop where
  within : c.position ≤ tokens.size
  tokens : c.tokens = tokens
  nesting : c.depth + room = parser.search.nesting
  clear : c.depth = 0 → c.abandoned = false
  sound : Sound parser c

theorem Standing.fresh (parser : InlineParser) (tokens : Array (Token Kind)) :
    Standing parser tokens parser.search.nesting { tokens } :=
  ⟨Nat.zero_le _, rfl, Nat.zero_add _, fun _ => rfl, fun _ p hp => absurd hp (by simp)⟩

theorem Standing.move {q : Nat} (h : Standing parser tokens room c) (hq : q ≤ tokens.size) :
    Standing parser tokens room { c with position := q } :=
  ⟨hq, h.tokens, h.nesting, h.clear, h.sound.of_failed_eq rfl rfl⟩

theorem Standing.of_movesTo (h : Standing parser tokens room c) (hmoves : c.MovesTo d) :
    Standing parser tokens room d := by
  obtain ⟨q, hq, rfl⟩ := hmoves (h.tokens ▸ h.within)
  exact h.move (h.tokens ▸ hq)

/-- While no attempt is in progress, none is given up. -/
theorem Standing.going (h : Standing parser tokens parser.search.nesting c) :
    c.abandoned = false :=
  h.clear (Nat.add_eq_right.1 h.nesting)

theorem inside_ne_none (h : 0 < room) : parser.inside room ≠ none := by
  cases room with
  | zero => omega
  | succ room => nofun

/-- When no other attempt is in progress, an attempt ends with the mark clear. -/
theorem Outcome.clear {inner : Option ParseContent} {kind : Kind} {abandoned : Bool}
    {result : Option Node} (h : Outcome parser inner kind c abandoned result d) (hinner : ∀ parse ∈ inner, parse.Orderly)
    (hroom : inner ≠ none) (hc : c.position ≤ c.tokens.size) (hdepth : c.depth = 0)
    (hgoing : c.abandoned = false) : d.abandoned = false := by
  have hinside : inner.isNone = false :=
    Option.isNone_eq_false_iff.2 (Option.isSome_iff_ne_none.2 hroom)
  rw [h.abandoned_eq hinner hc hgoing, hinside, hdepth]
  exact Bool.and_false abandoned

theorem step_clear {inner : Option ParseContent} (hinner : ∀ parse ∈ inner, parse.Orderly)
    (hroom : inner ≠ none) (htoken : c.peek = some token) (hdepth : c.depth = 0)
    (hgoing : c.abandoned = false) (draft : Draft) :
    (parser.step inner token draft c).2.abandoned = false := by
  rcases parser.step_abandoned_cases inner htoken draft with
    hstep | ⟨_, _, _, _, houtcome, hstep⟩ <;> rw [hstep]
  · exact hgoing
  · exact houtcome.clear hinner hroom (Nat.le_of_lt (lt_size_of_peek htoken)) hdepth hgoing

theorem Standing.step (h : Standing parser tokens room c) (hnesting : 0 < parser.search.nesting)
    (htoken : c.peek = some token) (hstops : stopsAt stop c token = false) (draft : Draft) :
    Standing parser tokens room (parser.step (parser.inside room) token draft c).2 := by
  have hgoing := going_of_stopsAt hstops
  obtain ⟨hleads, -⟩ := parser.step_leads (parser.inside_orderly room) htoken draft
  have htokens := hleads.tokens.trans h.tokens
  refine ⟨htokens ▸ hleads.within, htokens, by rw [hleads.depth]; exact h.nesting, fun hdepth => ?_, ?_⟩
  · rw [hleads.depth] at hdepth
    have hroom : 0 < room := by
      have := h.nesting
      omega
    exact step_clear (parser.inside_orderly room) (inside_ne_none hroom) htoken hdepth hgoing draft
  · exact (step_agree htoken (parser.inside_follows room) ⟨rfl, rfl, hgoing, hgoing⟩
      (openersFrom_le_size _ _) h.sound draft).1

theorem Standing.steps (h : Standing parser tokens room c) (hnesting : 0 < parser.search.nesting)
    (stop : List Kind) (limit : Nat) (draft : Draft) :
    Standing parser tokens room (parser.steps (parser.inside room) stop limit draft c).2 :=
  steps_preserve (fun _ d => Standing parser tokens room d)
    (fun draft _ _ hd htoken hstops => hd.step hnesting htoken hstops draft) limit h

/-- A call from outside is one level of content, with all the room there is. -/
theorem Standing.parse_eq_level (h : Standing parser tokens parser.search.nesting c)
    (stop : List Kind) :
    parser.parse stop c = parser.level (parser.inside parser.search.nesting) stop c := by
  unfold InlineParser.parse
  rw [Nat.add_eq_right.1 h.nesting, Nat.sub_zero, atRoom_eq_level]

theorem Standing.parse (h : Standing parser tokens parser.search.nesting c)
    (hnesting : 0 < parser.search.nesting) (stop : List Kind) :
    Standing parser tokens parser.search.nesting (parser.parse stop c).2 := by
  rw [h.parse_eq_level]
  exact h.steps hnesting stop c.remaining {}

/-- Between calls all the room is there. -/
theorem Session.standing (hnesting : 0 < parser.search.nesting) (h : Session parser tokens c) :
    Standing parser tokens parser.search.nesting c := by
  induction h with
  | fresh => exact .fresh parser tokens
  | @reset c position _ ih => exact ih.of_movesTo (c.movesTo_reset position)
  | @bump c _ ih => exact ih.of_movesTo c.movesTo_bump
  | @eat c kind _ ih => exact ih.of_movesTo (c.movesTo_eat kind)
  | @bumpRun c kind _ ih => exact ih.of_movesTo (c.movesTo_bumpRun kind)
  | parse stop _ ih => exact ih.parse hnesting stop

theorem Underway.standing (hnesting : 0 < parser.search.nesting)
    (h : Underway parser tokens stop room draft c) : Standing parser tokens room c := by
  induction h with
  | @call c stop hsession =>
    have hstanding := hsession.standing hnesting
    have hnone : parser.search.nesting - c.depth = parser.search.nesting := by
      have := hstanding.nesting
      omega
    rw [hnone]
    exact hstanding
  | step _ htoken hstops ih => exact ih.step hnesting htoken hstops _
  | @content stop room draft c d token before after frame q _ htoken hstops _ hframes htries
      hopening ih =>
    have hmem : ∀ frame ∈ before, frame.Regular := fun f hf =>
      framesAt_regular (hframes ▸ List.mem_append_left _ hf)
    have hregular : frame.Regular := framesAt_regular (hframes ▸ List.mem_append_right before
      (List.mem_cons_self ..))
    have hc : c.position ≤ c.tokens.size := Nat.le_of_lt (lt_size_of_peek htoken)
    have horderly := parser.atRoom_orderly room
    obtain ⟨hleads, -, -⟩ := htries.leads hmem horderly hc
    have hdepth : d.depth = c.depth + 1 := hleads.depth
    have htokens : d.tokens = tokens := hleads.tokens.trans ih.tokens
    have hq := hregular.opens.within d.tokens d.position hleads.within
    rw [hopening, htokens] at hq
    have hsound := htries.sound hmem horderly (parser.atRoom_follows room) hc
      (going_of_stopsAt hstops) (Nat.le_add_left ..) ih.sound
    refine ⟨hq, htokens, ?_, fun hzero => ?_, Sound.of_failed_eq hsound rfl rfl⟩
    · show d.depth + room = _
      have := ih.nesting
      omega
    · have hzero : d.depth = 0 := hzero
      omega

end InlineParser
end InlineMarkdown
