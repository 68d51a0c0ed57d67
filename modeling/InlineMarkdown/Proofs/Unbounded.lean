import InlineMarkdown.Proofs.Agreement

/-! The naive parser as a parser of its own.

`unbounded` gives the naive parser as many levels as there are tokens. That is no bound:
each of its levels is a level over `unbounded` itself (`unbounded_eq_level`). What an
attempt of it yields does not depend on the state it starts in, so that `freely` can
speak of its attempt at a position. -/
namespace InlineMarkdown
open Attempt

namespace InlineParser
variable {parser : InlineParser}

/-- Parses content without memory and without a bound on nesting. -/
def unbounded (parser : InlineParser) : ParseContent := fun stop c =>
  parser.naive.atRoom c.tokens.size stop c

theorem unbounded_orderly (parser : InlineParser) : ParseContent.Orderly parser.unbounded :=
  ⟨fun stop c => (parser.naive.atRoom_orderly _).leads stop c,
    fun stop c => (parser.naive.atRoom_orderly _).idle stop c⟩

theorem unbounded_roomy (parser : InlineParser) (room : Nat) :
    ParseContent.Roomy parser.unbounded room := fun stop c hc hgoing _ =>
  parser.naive.atRoom_roomy _ stop c hc hgoing (openersFrom_le_size _ _)

theorem unbounded_follows (parser : InlineParser) :
    ParseContent.Follows parser.naive parser.unbounded := fun room stop c c₀ hbeside =>
  parser.naive.atRoom_follows _ room stop c c₀ hbeside

/-- Nothing is remembered, so nothing that is remembered can be wrong. -/
theorem sound_naive (parser : InlineParser) (c : Cursor) : Sound parser.naive c :=
  fun hremember => absurd hremember nofun

theorem roomyInside_unbounded (parser : InlineParser) (room : Nat) :
    RoomyInside (some parser.unbounded) (room + 1) := by
  refine ⟨nofun, fun parse hparse => ?_⟩
  obtain rfl := Option.some.inj hparse
  exact ⟨parser.unbounded_orderly, room, rfl, parser.unbounded_roomy room⟩

theorem mem_some_unbounded {parse : ParseContent} (h : parse ∈ some parser.unbounded) :
    parse.Orderly ∧ parse.Follows parser.naive := by
  obtain rfl := Option.some.inj h
  exact ⟨parser.unbounded_orderly, parser.unbounded_follows⟩

/-- Each level of the unbounded parser is a level over the unbounded parser, whatever
state it is in. -/
theorem unbounded_eq_level_beside {stop : List Kind} {c c₀ : Cursor} (hbeside : Beside c c₀)
    (hc : c.position ≤ c.tokens.size) :
    (parser.unbounded stop c₀).1 = (parser.naive.level (some parser.unbounded) stop c).1 ∧
      (parser.unbounded stop c₀).2.position =
        (parser.naive.level (some parser.unbounded) stop c).2.position := by
  have hroom := openersFrom_le_size c.tokens c.position
  have hroomy := roomyInside_unbounded parser c.tokens.size
  obtain ⟨-, habandoned | hagree⟩ := level_agree stop hc (fun _ => mem_some_unbounded) hbeside
    hroom (sound_naive parser c) (.inr ⟨_, hroomy, Nat.le_succ_of_le hroom⟩)
  · rw [level_roomy hroomy stop c hc hbeside.going (Nat.le_succ_of_le hroom)] at habandoned
    simp at habandoned
  · unfold unbounded
    rw [hbeside.tokens]
    exact hagree

theorem unbounded_eq_level (parser : InlineParser) (stop : List Kind) {c : Cursor}
    (hc : c.position ≤ c.tokens.size) (hgoing : c.abandoned = false) :
    (parser.unbounded stop c).1 = (parser.naive.level (some parser.unbounded) stop c).1 ∧
      (parser.unbounded stop c).2.position =
        (parser.naive.level (some parser.unbounded) stop c).2.position :=
  unbounded_eq_level_beside ⟨rfl, rfl, hgoing, hgoing⟩ hc

/-! ### Attempts from a position -/

/-- What the naive parser's attempt at position `p` yields, and where it ends. -/
def freely (attempt : InlineParser → Option ParseContent → Attempt Node) (parser : InlineParser)
    (tokens : Array (Token Kind)) (p : Nat) : Option Node × Nat :=
  (attempt parser.naive (some parser.unbounded)).view tokens p

/-- With any room that is enough, the naive attempt is the unbounded one. -/
theorem attemptAt_naive {c : Cursor} {token : Token Kind} {room : Nat}
    (htoken : c.peek = some token) (hframes : framesAt parser.options token.kind ≠ [])
    (hgoing : c.abandoned = false) (hroom : openersFrom c.tokens c.position ≤ room) :
    (parser.naive.attemptAt (parser.naive.inside room) token.kind c).1 =
        ((parser.naive.attemptAt (some parser.unbounded) token.kind).view c.tokens c.position).1 ∧
      (parser.naive.attemptAt (parser.naive.inside room) token.kind c).2.position =
        ((parser.naive.attemptAt (some parser.unbounded) token.kind).view c.tokens c.position).2 := by
  have hroomy := roomyInside_unbounded parser room
  obtain ⟨_, houtcome⟩ := attemptAt_outcome parser.naive (some parser.unbounded)
    { tokens := c.tokens, position := c.position } hframes
  obtain ⟨-, ⟨-, hagree⟩ | ⟨-, -, -, hlack⟩⟩ := houtcome.agree htoken hframes
    (fun _ => mem_some_unbounded) (show Beside _ c from ⟨rfl, rfl, rfl, hgoing⟩) hroom (sound_naive parser _)
  · exact hagree
  · exact absurd (hlack _ hroomy) (Nat.not_lt.2 (Nat.le_succ_of_le hroom))

end InlineParser
end InlineMarkdown
