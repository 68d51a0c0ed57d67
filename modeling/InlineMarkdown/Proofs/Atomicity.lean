import InlineMarkdown.Proofs.Returns

/-! Attempts are all or nothing.

An attempt at a bracket has many ways to fail, at any depth: the failure was known, there was no
room, a token was missing, or it came to nothing because the attempts around it had been given
up. It takes back the same things in all of them (`Attempt.Atomic`). That holds wherever the
nesting adds up and no mark is left behind (`Steady`), which is so at every cursor that a run
comes through (`Occurs.steady`); the rest is the list of ways to end. -/
namespace InlineMarkdown
open Attempt

/-- At `c` the attempt fails where it started or yields a node further on, with the nesting as it
was. It forgets no failure, and when no attempt is in progress none is given up. -/
structure Attempt.Atomic (attempt : Attempt Node) (c : Cursor) : Prop where
  failed : (attempt c).1 = none → (attempt c).2.position = c.position
  matched : (attempt c).1 ≠ none → c.position < (attempt c).2.position
  depth : (attempt c).2.depth = c.depth
  remembers (p : Nat) : c.knownFailure p = true → (attempt c).2.knownFailure p = true
  clear : (attempt c).2.depth = 0 → (attempt c).2.abandoned = false

namespace InlineParser
open InlineMarkdown.Frame
variable {parser : InlineParser} {tokens : Array (Token Kind)} {room : Nat} {c d : Cursor}
  {token : Token Kind}

/-! ### Cursors in a run -/

/-- The cursors that parses by `parser` over `tokens` come through, with the room for nesting that
is left there. Other parsers may have used the cursor before. -/
inductive Occurs (parser : InlineParser) (tokens : Array (Token Kind)) : (room : Nat) → Cursor → Prop
  /-- At a call from outside. -/
  | call {c : Cursor} : Reachable tokens c → Occurs parser tokens (parser.search.nesting - c.depth) c
  /-- A step further. -/
  | step {room : Nat} {c : Cursor} {token : Token Kind} (draft : Draft) :
      Occurs parser tokens room c → c.peek = some token → c.abandoned = false →
      Occurs parser tokens room (parser.step (parser.inside room) token draft c).2
  /-- In an attempt at the current token, in which some constructs have been tried in vain. -/
  | tried {room : Nat} {c d : Cursor} {token : Token Kind} {before after : List Frame} :
      Occurs parser tokens (room + 1) c → c.peek = some token → c.abandoned = false →
      framesAt parser.options token.kind = before ++ after →
      Tries (parser.atRoom room) before c.descend none d → Occurs parser tokens room d
  /-- Anywhere else among the tokens, as in front of the content of a construct or behind it. -/
  | move {room q : Nat} {c : Cursor} : Occurs parser tokens room c → q ≤ tokens.size →
      Occurs parser tokens room { c with position := q }

/-- The nesting adds up, and no attempt is given up when none is in progress. -/
structure Steady (parser : InlineParser) (tokens : Array (Token Kind)) (room : Nat)
    (c : Cursor) : Prop where
  within : c.position ≤ tokens.size
  tokens : c.tokens = tokens
  nesting : c.depth + room = parser.search.nesting
  clear : c.depth = 0 → c.abandoned = false

/-- Where no attempt is in progress there is room for one. -/
theorem Steady.inside_ne_none (h : Steady parser tokens room c)
    (hnesting : 0 < parser.search.nesting) (hdepth : c.depth = 0) : parser.inside room ≠ none := by
  apply InlineParser.inside_ne_none
  have hroom := h.nesting
  omega

theorem Steady.step (h : Steady parser tokens room c) (hnesting : 0 < parser.search.nesting)
    (htoken : c.peek = some token) (hgoing : c.abandoned = false) (draft : Draft) :
    Steady parser tokens room (parser.step (parser.inside room) token draft c).2 := by
  obtain ⟨hleads, -⟩ := parser.step_leads (parser.inside_orderly room) htoken draft
  have htokens := hleads.tokens.trans h.tokens
  refine ⟨htokens ▸ hleads.within, htokens, hleads.depth.symm ▸ h.nesting, ?_⟩
  intro hdepth
  rw [hleads.depth] at hdepth
  exact step_clear (parser.inside_orderly room) (h.inside_ne_none hnesting hdepth) htoken hdepth
    hgoing draft

theorem Occurs.steady (h : Occurs parser tokens room c) (hnesting : 0 < parser.search.nesting) :
    Steady parser tokens room c := by
  induction h with
  | @call c hreach =>
    have hidle := hreach.idle
    rw [hidle.depth, Nat.sub_zero]
    exact ⟨hidle.within, hidle.tokens, by rw [hidle.depth, Nat.zero_add], fun _ => hidle.going⟩
  | step draft _ htoken hgoing ih => exact ih.step hnesting htoken hgoing draft
  | @tried room c d token before after _ htoken _ hframes htries ih =>
    have hbefore : ∀ frame ∈ before, frame.Regular := fun frame hframe =>
      framesAt_regular (hframes ▸ List.mem_append_left after hframe)
    obtain ⟨hleads, -⟩ := htries.leads hbefore (parser.atRoom_orderly room)
      (Nat.le_of_lt (lt_size_of_peek htoken))
    have htokens : d.tokens = tokens := hleads.tokens.trans ih.tokens
    have hdepth : d.depth = c.depth + 1 := hleads.depth
    refine ⟨htokens ▸ hleads.within, htokens, ?_, ?_⟩
    · calc d.depth + room = c.depth + (room + 1) := by rw [hdepth, Nat.add_right_comm, Nat.add_assoc]
        _ = parser.search.nesting := ih.nesting
    -- Inside an attempt the depth is not zero, so a mark may stand there.
    · intro hzero
      exact absurd (hdepth.symm.trans hzero) (Nat.succ_ne_zero c.depth)
  | move _ hq ih => exact ⟨hq, ih.tokens, ih.nesting, ih.clear⟩

/-! ### Attempts -/

/-- However an attempt ends, it is all or nothing. -/
theorem Outcome.atomic {inner : Option ParseContent} {kind : Kind} {abandoned : Bool}
    (houtcome : Outcome parser inner kind c abandoned (parser.attemptAt inner kind c).1
      (parser.attemptAt inner kind c).2)
    (hinner : ∀ parse ∈ inner, parse.Orderly) (hc : c.position ≤ c.tokens.size)
    (hroom : c.depth = 0 → inner ≠ none ∧ c.abandoned = false) :
    (parser.attemptAt inner kind).Atomic c := by
  obtain ⟨hleads, hfailed, hmatched⟩ := houtcome.leads hinner hc
  refine ⟨hfailed, hmatched, hleads.depth, hleads.failed, fun hdepth => ?_⟩
  rw [hleads.depth] at hdepth
  exact houtcome.clear hinner (hroom hdepth).1 hc hdepth (hroom hdepth).2

theorem Steady.atomic (h : Steady parser tokens room c) (hnesting : 0 < parser.search.nesting)
    (kind : Kind) : (parser.attemptAt (parser.inside room) kind).Atomic c := by
  by_cases hframes : framesAt parser.options kind = []
  · rw [attemptAt_of_framesAt_nil _ hframes]
    exact ⟨fun _ => rfl, fun hne => absurd rfl hne, rfl, fun _ hp => hp, h.clear⟩
  · obtain ⟨_, houtcome⟩ := attemptAt_outcome parser (parser.inside room) c hframes
    apply houtcome.atomic (parser.inside_orderly room) (h.tokens ▸ h.within)
    intro hdepth
    exact ⟨h.inside_ne_none hnesting hdepth, h.clear hdepth⟩

/-- Wherever a run tries an image or what a bracket starts, the try is all or nothing. -/
theorem attempts_atomic (options : InlineOptions) {tokens : Array (Token Kind)} {room : Nat}
    {c : Cursor} (h : Occurs { options } tokens room c) :
    let parser : InlineParser := { options }
    (parser.tryImage (parser.inside room)).Atomic c ∧
      (parser.tryBracket (parser.inside room)).Atomic c := by
  intro parser
  have hnesting : 0 < parser.search.nesting := Nat.succ_pos 63
  have hsteady := h.steady hnesting
  exact ⟨hsteady.atomic hnesting .exclamation, hsteady.atomic hnesting .leftBracket⟩

theorem attempts_atomic_unclosed :
    let parser : InlineParser := { options := { footnotes := false, citations := false } }
    let c : Cursor := { tokens := (tokenize "[![a](b".toList).toArray, position := 1, depth := 1 }
    (parser.tryImage (parser.inside 63) c).1 = none ∧
      (parser.tryImage (parser.inside 63) c).2.position = 1 ∧
      (parser.tryImage (parser.inside 63) c).2.depth = 1 := by
  intro parser c
  have hbracket : ({ c with position := 0, depth := 0 } : Cursor).peek =
      some ⟨.leftBracket, ['['], ⟨⟨0, 0, 0⟩, ⟨0, 1, 1⟩⟩⟩ := by decide +kernel
  have hwithin : 1 ≤ c.tokens.size := by decide +kernel
  have hframes : framesAt parser.options .leftBracket = [] ++ [link] := rfl
  have hopened : Occurs parser c.tokens 63 { c with position := 0 } :=
    .tried (.call .fresh) hbracket rfl hframes (.exhausted _)
  have hoccurs : Occurs parser c.tokens 63 c := hopened.move hwithin
  have hnone : (parser.tryImage (parser.inside 63) c).1.isNone = true := by decide +kernel
  have hatomic := (attempts_atomic _ hoccurs).1
  rw [Option.isNone_iff_eq_none] at hnone
  exact ⟨hnone, hatomic.failed hnone, hatomic.depth⟩

end InlineParser
end InlineMarkdown
