import InlineMarkdown.Proofs.Fences
import InlineMarkdown.Proofs.OpenRuns
import InlineMarkdown.Proofs.Pending
import InlineMarkdown.Proofs.Session

/-! No place is out of range.

A cursor reads a run off token by token, and a span that would need a token which is not there
shrinks to a point. `stretch?` and `spanSince?` do the same by indices alone, as one would with an
array, and give up where there is nothing at an index. A cursor that has not gone further than
behind the last token never makes them (`Cursor.inRange_of_le`), and in a session no cursor has:
not between the operations, and not in the midst of a parse either (`session_inRange`). -/
namespace InlineMarkdown
open Attempt

/-! ### Reading by indices -/

/-- The tokens from one index up to another; none if the indices do not bound a stretch of them. -/
def stretch? (tokens : Array (Token Kind)) (start stop : Nat) : Option (List (Token Kind)) :=
  if start ≤ stop ∧ stop ≤ tokens.size then
    some ((tokens.toList.drop start).take (stop - start))
  else none

/-- The text less its first byte and its last; none if it has no two, or if that would cut a
character. -/
def unpad? (text : List Char) : Option (List Char) := do
  let rest ← dropBytes? 1 text
  let kept ← dropBytes? 1 rest.reverse
  return kept.reverse

theorem unpad?_of_isPadded {text : List Char} (h : isPadded text = true) :
    unpad? text = some ((text.drop 1).dropLast) := by
  obtain ⟨inner, rfl, -⟩ := exists_of_isPadded h
  have hfirst : dropBytes? 1 (' ' :: (inner ++ [' '])) = some (inner ++ [' ']) :=
    dropBytes?_replicate (c := ' ') rfl 1 _
  have hlast : dropBytes? 1 (inner ++ [' ']).reverse = some inner.reverse := by
    rw [List.reverse_concat]
    exact dropBytes?_replicate (c := ' ') rfl 1 _
  simp only [unpad?, hfirst, hlast, Option.bind_eq_bind, Option.bind_some, List.reverse_reverse,
    List.drop_one, List.tail_cons, List.dropLast_concat]
  rfl

namespace Cursor
variable {c : Cursor}

/-- `spanSince` with the last token that was passed looked up by its index; none if there is
nothing at that index. -/
def spanSince? (c : Cursor) (start : Nat) : Option Span :=
  match c.tokens[start]? with
  | none => some {}
  | some first =>
    if start < c.position then
      c.tokens[c.position - 1]?.map fun last => ⟨first.span.start, last.span.stop⟩
    else some (Span.point first.span.start)

/-- What can be read from here is in range: every run, and every span. -/
structure InRange (c : Cursor) : Prop where
  run (kind : Kind) :
    stretch? c.tokens c.position (c.bumpRun kind).2.position = some (c.bumpRun kind).1
  span (start : Nat) : c.spanSince? start = some (c.spanSince start)

/-- A run is the stretch of tokens that it passes. -/
theorem runFrom_eq_take (tokens : Array (Token Kind)) (kind : Kind) (limit i : Nat) :
    runFrom tokens kind limit i =
      (tokens.toList.drop i).take (runFrom tokens kind limit i).length := by
  rw [← List.prefix_iff_eq_take, List.prefix_iff_getElem?]
  intro j hj
  rw [List.getElem?_drop, Array.getElem?_toList]
  exact getElem?_runFrom (List.getElem?_eq_getElem hj)

theorem inRange_of_le (h : c.position ≤ c.tokens.size) : c.InRange := by
  constructor
  · intro kind
    have hlength := c.length_bumpRun_le kind
    have hstop : (c.bumpRun kind).2.position = c.position + (c.bumpRun kind).1.length := rfl
    rw [stretch?, if_pos (by omega), hstop, Nat.add_sub_cancel_left]
    exact congrArg some (runFrom_eq_take ..).symm
  · intro start
    unfold spanSince? spanSince
    cases c.tokens[start]? with
    | none => rfl
    | some first =>
      dsimp only
      by_cases hlt : start < c.position
      · obtain ⟨last, hlast⟩ : ∃ last, c.tokens[c.position - 1]? = some last :=
          ⟨_, Array.getElem?_eq_getElem (by omega)⟩
        rw [if_pos hlt, if_pos hlt, hlast]
        rfl
      · rw [if_neg hlt, if_neg hlt]

end Cursor

namespace Frame
open InlineParser
variable {options : InlineOptions} {kind : Kind} {parse : ParseContent} {frames : List Frame}
  {c d : Cursor} {node : Node}

/-- The span of a construct is read where the construct ends, from tokens that are there. -/
theorem Tries.spanSince? (h : Tries parse frames c (some node) d)
    (hframes : ∀ frame ∈ frames, frame ∈ framesAt options kind) (hparse : parse.Orderly)
    (hc : c.position ≤ c.tokens.size) : d.spanSince? c.position = some node.span := by
  obtain ⟨hleads, -, -⟩ := h.leads (fun frame hframe => framesAt_regular (hframes frame hframe))
    hparse hc
  obtain ⟨frame, hframe, _, -, -, -, hclosing⟩ := (h.built hframes hparse hc).found
  obtain ⟨_, _, -, rfl⟩ := closing_ends hframe hclosing
  rw [(Cursor.inRange_of_le hleads.within).span]
  unfold Cursor.spanSince
  rw [hleads.tokens]

end Frame

/-! ### Sessions -/

namespace InlineParser
open InlineMarkdown.Frame
variable {parser : InlineParser} {tokens : Array (Token Kind)} {stop : List Kind} {room p : Nat}
  {draft : Draft} {c d : Cursor} {token : Token Kind} {node : Node}

theorem Standing.inRange (h : Standing parser tokens room c) : c.InRange :=
  Cursor.inRange_of_le (h.tokens ▸ h.within)

/-- Every draft in a session is regular: it starts empty, and a step extends it. -/
theorem Underway.regular (h : Underway parser tokens stop room draft c) : draft.Regular := by
  induction h with
  | call | content => exact .empty
  | step _ _ _ ih => exact ih.extends (step_extends ..)

/-- A failure is remembered only where a construct may start. -/
theorem Standing.opener (h : Standing parser tokens room c)
    (hremember : parser.search.remember = true) (hknown : c.knownFailure p = true) :
    KindAt tokens p .leftBracket ∨ KindAt tokens p .exclamation := by
  obtain ⟨token, htoken, hframes, -⟩ := h.sound hremember p hknown
  rw [h.tokens] at htoken
  have hopener := isOpener_of_framesAt hframes
  simp only [Kind.isOpener, Bool.or_eq_true, beq_iff_eq] at hopener
  exact hopener.imp (⟨token, htoken, ·⟩) (⟨token, htoken, ·⟩)

/-- Whatever is done with a cursor, in any order: between any two operations it stands no further
than behind the last token, no try is in progress or given up, failures are remembered only at
opening brackets and exclamation marks, and what can be read next is in range. In the midst of a
parse, too, nothing is out of range: no run that is passed, no run that is resolved, no span of a
construct and no padding of code. -/
theorem session_inRange (options : InlineOptions) (tokens : Array (Token Kind)) :
    let parser : InlineParser := { options }
    (∀ c, Session parser tokens c →
      c.tokens = tokens ∧ c.position ≤ tokens.size ∧ c.depth = 0 ∧ c.abandoned = false ∧
      (∀ p, c.knownFailure p = true →
        KindAt tokens p .leftBracket ∨ KindAt tokens p .exclamation) ∧
      c.InRange) ∧
    (∀ stop room draft c, Underway parser tokens stop room draft c →
      c.InRange ∧
      (∀ marker count place,
        draft.resolve? marker count place = some (draft.resolve marker count place)) ∧
      -- constructs count even if they are given up
      ∀ token parse node d, c.peek = some token → parse ∈ parser.inside room →
        Tries parse (framesAt options token.kind) c.descend (some node) d →
        d.spanSince? c.position = some node.span) ∧
    ∀ code, isPadded code = true → unpad? code = some ((code.drop 1).dropLast) := by
  intro parser
  have hnesting : 0 < parser.search.nesting := Nat.succ_pos 63
  refine ⟨fun c hsession => ?_, fun stop room draft c hunderway => ?_, fun _ => unpad?_of_isPadded⟩
  · have hstanding := hsession.standing hnesting
    have hdepth : c.depth = 0 := Nat.add_eq_right.1 hstanding.nesting
    exact ⟨hstanding.tokens, hstanding.within, hdepth, hstanding.clear hdepth,
      fun p => hstanding.opener rfl, hstanding.inRange⟩
  · have hstanding := hunderway.standing hnesting
    refine ⟨hstanding.inRange, hunderway.regular.stacked.resolve?, ?_⟩
    intro token parse node d htoken hparse htries
    exact htries.spanSince? (fun _ => id) (parser.inside_orderly room _ hparse)
      (Nat.le_of_lt (lt_size_of_peek htoken))

end InlineParser
end InlineMarkdown
