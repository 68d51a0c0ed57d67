import InlineMarkdown.Proofs.Session
import InlineMarkdown.Proofs.Stack
import InlineMarkdown.Token.Tokenize

/-! Loops return by themselves.

The definitions of the parser's loops have a bound on their rounds. `Returns` is a loop without
one: rounds follow each other until there is none to follow. Every loop of the parser ends that
way before its bound does (`loops_return`), each for a reason of its own: a round of content
passes a token, whatever the attempts in it have taken back, and a round of closing uses up a
marker. Between calls from outside no attempt is in progress (`Reachable.idle`), so nothing but
a token ends such a call, and it ends behind its start (`parse_returns`). -/
namespace InlineMarkdown
open Attempt

/-- The loop that goes on by `next` returns `b` from `a` after `n` rounds. -/
inductive Returns {σ : Type} (next : σ → Option σ) : (n : Nat) → (a b : σ) → Prop
  | done {a : σ} : next a = none → Returns next 0 a a
  | round {n : Nat} {a a' b : σ} : next a = some a' → Returns next n a' b →
      Returns next (n + 1) a b

/-- A loop returns `b` from `a` after `m` rounds at most. -/
def ReturnsWithin {σ : Type} (next : σ → Option σ) (m : Nat) (a b : σ) : Prop :=
  ∃ n ≤ m, Returns next n a b

section Loops
variable {σ τ : Type} {next : σ → Option σ} {n : Nat} {a b : σ}

/-- Where a loop returns there is no round to follow. -/
theorem Returns.ends (h : Returns next n a b) : next b = none := by
  induction h with
  | done hnone => exact hnone
  | round _ _ ih => exact ih

/-- A definition with a bound that goes on as a loop does is what the loop returns, if every round
leaves less for the bound to cover. -/
theorem exists_returnsWithin (f : Nat → σ → τ) (out : σ → τ) {rank : σ → Nat}
    (hsucc : ∀ limit a, f (limit + 1) a = (next a).elim (out a) (f limit))
    (hzero : ∀ a, f 0 a = out a)
    (hless : ∀ a, ∀ a' ∈ next a, rank a' < rank a) {limit : Nat} (hlimit : rank a ≤ limit) :
    ∃ b, ReturnsWithin next (rank a) a b ∧ out b = f limit a := by
  induction limit generalizing a with
  | zero =>
    have hnone : next a = none := by
      apply Option.eq_none_iff_forall_not_mem.2
      intro a' hnext
      exact Nat.not_lt_zero _ (Nat.lt_of_lt_of_le (hless a a' hnext) hlimit)
    exact ⟨a, ⟨0, Nat.zero_le _, .done hnone⟩, (hzero a).symm⟩
  | succ limit ih =>
    rw [hsucc]
    cases hnext : next a with
    | none => exact ⟨a, ⟨0, Nat.zero_le _, .done hnext⟩, rfl⟩
    | some a' =>
      have hlt := hless a a' hnext
      obtain ⟨b, ⟨rounds, hrounds, hreturns⟩, hb⟩ :=
        ih (Nat.le_of_lt_succ (Nat.lt_of_lt_of_le hlt hlimit))
      exact ⟨b, ⟨rounds + 1, Nat.lt_of_le_of_lt hrounds hlt, .round hnext hreturns⟩, hb⟩

end Loops

/-! ### Loops over tokens -/

namespace Cursor
variable {c d : Cursor} {limit : Nat}

/-- A token further in a run of one kind. -/
def runRound (kind : Kind) (c : Cursor) : Option Cursor :=
  c.peek.bind fun token => if token.kind = kind then some c.advance else none

/-- A token further in raw text. -/
def rawRound (close : Kind) (c : Cursor) : Option Cursor :=
  c.peek.bind fun token =>
    if token.kind = close then none
    else if token.isEof || token.kind == .newline then none
    else some c.advance

theorem remaining_advance_lt {token : Token Kind} (htoken : c.peek = some token) :
    c.advance.remaining < c.remaining := by
  have hlt := lt_size_of_peek htoken
  unfold remaining advance
  dsimp only
  omega

theorem remaining_runRound_lt {kind : Kind} (h : runRound kind c = some d) :
    d.remaining < c.remaining := by
  obtain ⟨token, htoken, h⟩ := Option.bind_eq_some_iff.1 h
  obtain ⟨-, hadvance⟩ := Option.ite_none_right_eq_some.1 h
  obtain rfl := Option.some.inj hadvance
  exact remaining_advance_lt htoken

theorem remaining_rawRound_lt {close : Kind} (h : rawRound close c = some d) :
    d.remaining < c.remaining := by
  obtain ⟨token, htoken, h⟩ := Option.bind_eq_some_iff.1 h
  obtain ⟨-, h⟩ := Option.ite_none_left_eq_some.1 h
  obtain ⟨-, hadvance⟩ := Option.ite_none_left_eq_some.1 h
  obtain rfl := Option.some.inj hadvance
  exact remaining_advance_lt htoken

/-- The cursor behind a run of one kind, or behind `limit` tokens of a longer one. -/
def passRun (kind : Kind) (limit : Nat) (c : Cursor) : Cursor :=
  { c with position := c.position + (runFrom c.tokens kind limit c.position).length }

/-- A run ends at a token of another kind, or behind the last token. -/
theorem passRun_returns (kind : Kind) (hlimit : c.remaining ≤ limit) :
    ReturnsWithin (runRound kind) c.remaining c (passRun kind limit c) := by
  have hsucc (limit : Nat) (c : Cursor) :
      passRun kind (limit + 1) c = (runRound kind c).elim c (passRun kind limit) := by
    rw [passRun, runFrom, runRound, peek]
    cases c.tokens[c.position]? with
    | none => rfl
    | some token =>
      dsimp only [Option.bind_some]
      split
      · rw [List.length_cons, Nat.add_comm _ 1, ← Nat.add_assoc]
        rfl
      · rfl
  obtain ⟨_, hreturns, rfl⟩ :=
    exists_returnsWithin _ (fun c => c) hsucc (fun _ => rfl) (fun _ _ => remaining_runRound_lt) hlimit
  exact hreturns

/-- Raw text ends at what closes it, or fails at the end of the line. -/
theorem rawUpTo_returns (close : Kind) (hlimit : c.remaining ≤ limit) :
    ReturnsWithin (rawRound close) c.remaining c (rawUpTo close limit c).2 := by
  have hsucc (limit : Nat) (c : Cursor) : (rawUpTo close (limit + 1) c).2 =
      (rawRound close c).elim c fun d => (rawUpTo close limit d).2 := by
    unfold rawRound
    rw [rawUpTo]
    cases htoken : c.peek with
    | none => rfl
    | some token =>
      dsimp only [Option.bind_some]
      split
      · rfl
      · split
        · rfl
        · rcases hraw : rawUpTo close limit c.advance with ⟨_ | raw, d⟩ <;>
            simp only [Option.elim_some, hraw]
  obtain ⟨_, hreturns, rfl⟩ :=
    exists_returnsWithin (fun limit c => (rawUpTo close limit c).2) (fun c => c) hsucc (fun _ => rfl)
      (fun _ _ => remaining_rawRound_lt) hlimit
  exact hreturns

end Cursor

/-! ### The loop over a run of delimiters -/

namespace Draft

/-- A round of resolving `count` markers at `place`: they close an open run in part, or they are
opened and none are left. -/
def resolveRound (marker : Marker) : Nat × Position × Draft → Option (Nat × Position × Draft)
  | (count, place, draft) =>
    if count = 0 then none
    else match draft.closing? marker count with
      | none => some (0, place, draft.openRun marker count place)
      | some (opener, below, used) =>
        let stop := place.advance (marker.run used)
        some (count - used, stop, draft.wrap opener below used stop)

/-- Only where no markers are left there is no round. -/
theorem resolveRound_eq_none {marker : Marker} {a : Nat × Position × Draft}
    (h : resolveRound marker a = none) : a.1 = 0 := by
  obtain ⟨count, place, draft⟩ := a
  rw [resolveRound] at h
  split at h
  · assumption
  · cases hclosing : draft.closing? marker count <;>
    · rw [hclosing] at h
      cases h

/-- Every round uses up a marker. -/
theorem resolveRound_lt {marker : Marker} {a b : Nat × Position × Draft}
    (h : resolveRound marker a = some b) : b.1 < a.1 := by
  obtain ⟨count, place, draft⟩ := a
  obtain ⟨hcount, h⟩ := Option.ite_none_left_eq_some.1 h
  cases hclosing : draft.closing? marker count with
  | none =>
    rw [hclosing] at h
    obtain rfl := Option.some.inj h
    exact Nat.pos_of_ne_zero hcount
  | some found =>
    rw [hclosing] at h
    obtain rfl := Option.some.inj h
    obtain ⟨-, -, -, hused⟩ := closing?_eq_some hclosing
    exact Nat.sub_lt (Nat.pos_of_ne_zero hcount) (used_pos hused)

/-- A run of delimiters is used up. -/
theorem resolve_returns (marker : Marker) {limit count : Nat} (hlimit : count ≤ limit)
    (place : Position) (draft : Draft) :
    ∃ stop, ReturnsWithin (resolveRound marker) count (count, place, draft)
      (0, stop, resolveUpTo marker limit count place draft) := by
  have hsucc (limit : Nat) (a : Nat × Position × Draft) :
      resolveUpTo marker (limit + 1) a.1 a.2.1 a.2.2 =
        (resolveRound marker a).elim a.2.2 fun b => resolveUpTo marker limit b.1 b.2.1 b.2.2 := by
    obtain ⟨count, place, draft⟩ := a
    rw [resolveUpTo, resolveRound]
    split
    · rfl
    · cases draft.closing? marker count with
      | none => cases limit <;> rfl
      | some => rfl
  obtain ⟨⟨left, stop, resolved⟩, ⟨rounds, hrounds, hreturns⟩, hresolved⟩ :=
    exists_returnsWithin (fun limit a => resolveUpTo marker limit a.1 a.2.1 a.2.2) (·.2.2) hsucc
      (fun _ => rfl) (fun _ _ => resolveRound_lt) (a := (count, place, draft)) hlimit
  obtain rfl : left = 0 := resolveRound_eq_none hreturns.ends
  obtain rfl : resolved = _ := hresolved
  exact ⟨stop, rounds, hrounds, hreturns⟩

end Draft

/-! ### The loop over content -/

namespace InlineParser
variable {parser : InlineParser} {inner : Option ParseContent} {stop : List Kind} {limit : Nat}
  {tokens : Array (Token Kind)} {c : Cursor}

/-- A step, where content does not end. -/
def round (parser : InlineParser) (inner : Option ParseContent) (stop : List Kind) :
    Draft × Cursor → Option (Draft × Cursor)
  | (draft, c) => c.peek.bind fun token =>
    if stopsAt stop c token then none else some (parser.step inner token draft c)

/-- Content ends where parsing has to stop. Every step before passes a token. -/
theorem steps_returns (hinner : ∀ parse ∈ inner, parse.Orderly) (stop : List Kind)
    (hlimit : c.remaining ≤ limit) (draft : Draft) :
    ReturnsWithin (parser.round inner stop) c.remaining (draft, c)
      (parser.steps inner stop limit draft c) := by
  have hsucc (limit : Nat) (a : Draft × Cursor) : parser.steps inner stop (limit + 1) a.1 a.2 =
      (parser.round inner stop a).elim a fun b => parser.steps inner stop limit b.1 b.2 := by
    obtain ⟨draft, c⟩ := a
    rw [steps, round]
    cases c.peek with
    | none => rfl
    | some token =>
      dsimp only [Option.bind_some]
      split <;> rfl
  have hless (a b : Draft × Cursor) (hround : parser.round inner stop a = some b) :
      b.2.remaining < a.2.remaining := by
    obtain ⟨token, htoken, hround⟩ := Option.bind_eq_some_iff.1 hround
    obtain ⟨-, hstep⟩ := Option.ite_none_left_eq_some.1 hround
    obtain rfl := Option.some.inj hstep
    exact parser.remaining_step_lt hinner htoken a.1
  obtain ⟨_, hreturns, rfl⟩ :=
    exists_returnsWithin (fun limit a => parser.steps inner stop limit a.1 a.2) (fun a => a) hsucc
      (fun _ => rfl) hless (a := (draft, c)) hlimit
  exact hreturns

/-- The loops that parsing is made of return by themselves, wherever the cursor stands and
whatever the draft: content at any depth, runs of one kind, raw text and runs of delimiters. -/
structure LoopsReturn (parser : InlineParser) : Prop where
  content (room : Nat) (stop : List Kind) (draft : Draft) (c : Cursor) :
    ReturnsWithin (parser.round (parser.inside room) stop) c.remaining (draft, c)
      (parser.steps (parser.inside room) stop c.remaining draft c)
  run (kind : Kind) (c : Cursor) :
    ReturnsWithin (Cursor.runRound kind) c.remaining c (c.bumpRun kind).2
  raw (close : Kind) (c : Cursor) :
    ReturnsWithin (Cursor.rawRound close) c.remaining c (rawUntil close c).2
  resolve (marker : Marker) (count : Nat) (place : Position) (draft : Draft) :
    ∃ stop, ReturnsWithin (Draft.resolveRound marker) count (count, place, draft)
      (0, stop, draft.resolve marker count place)

theorem loops_return (parser : InlineParser) : parser.LoopsReturn where
  content room stop draft _ := steps_returns (parser.inside_orderly room) stop (Nat.le_refl _) draft
  run kind _ := Cursor.passRun_returns kind (Nat.le_refl _)
  raw close _ := Cursor.rawUpTo_returns close (Nat.le_refl _)
  resolve marker _ place draft := Draft.resolve_returns marker (Nat.le_refl _) place draft

/-! ### Calls from outside -/

/-- The cursors over `tokens` that calls from outside lead to. Each parse may have options of its
own. -/
inductive Reachable (tokens : Array (Token Kind)) : Cursor → Prop
  | fresh : Reachable tokens { tokens }
  | reset {c : Cursor} (position : Nat) : Reachable tokens c → Reachable tokens (c.reset position)
  | bump {c : Cursor} : Reachable tokens c → Reachable tokens c.bump.2
  | eat {c : Cursor} (kind : Kind) : Reachable tokens c → Reachable tokens (c.eat kind).2
  | bumpRun {c : Cursor} (kind : Kind) : Reachable tokens c →
      Reachable tokens (c.bumpRun kind).2
  | parse {c : Cursor} (options : InlineOptions) (stop : List Kind) : Reachable tokens c →
      Reachable tokens (({ options } : InlineParser).parse stop c).2

/-- No attempt is in progress or given up. -/
structure Idle (tokens : Array (Token Kind)) (c : Cursor) : Prop where
  within : c.position ≤ tokens.size
  tokens : c.tokens = tokens
  depth : c.depth = 0
  going : c.abandoned = false

theorem Idle.of_movesTo {d : Cursor} (h : Idle tokens c) (hmoves : c.MovesTo d) :
    Idle tokens d := by
  obtain ⟨q, hq, rfl⟩ := hmoves (h.tokens ▸ h.within)
  exact ⟨h.tokens ▸ hq, h.tokens, h.depth, h.going⟩

theorem Idle.steps (h : Idle tokens c) (hinner : ∀ parse ∈ inner, parse.Orderly)
    (hroom : inner ≠ none) (stop : List Kind) (limit : Nat) (draft : Draft) :
    Idle tokens (parser.steps inner stop limit draft c).2 := by
  refine steps_preserve (fun _ d => Idle tokens d) ?_ limit h
  intro draft d token hd htoken _
  obtain ⟨hleads, -⟩ := parser.step_leads hinner htoken draft
  have htokens := hleads.tokens.trans hd.tokens
  exact ⟨htokens ▸ hleads.within, htokens, hleads.depth.trans hd.depth,
    step_clear hinner hroom htoken hd.depth hd.going draft⟩

/-- A call from outside is one level of content. -/
theorem Idle.parse_eq_level (h : Idle tokens c) (stop : List Kind) :
    parser.parse stop c = parser.level (parser.inside parser.search.nesting) stop c := by
  rw [InlineParser.parse, h.depth, Nat.sub_zero, atRoom_eq_level]

theorem Reachable.idle (h : Reachable tokens c) : Idle tokens c := by
  induction h with
  | fresh => exact ⟨Nat.zero_le _, rfl, rfl, rfl⟩
  | @reset c position _ ih => exact ih.of_movesTo (c.movesTo_reset position)
  | @bump c _ ih => exact ih.of_movesTo c.movesTo_bump
  | @eat c kind _ ih => exact ih.of_movesTo (c.movesTo_eat kind)
  | @bumpRun c kind _ ih => exact ih.of_movesTo (c.movesTo_bumpRun kind)
  | @parse c options stop _ ih =>
    rw [ih.parse_eq_level]
    exact ih.steps (inside_orderly _ _) (inside_ne_none (Nat.succ_pos 63)) stop c.remaining {}

/-- A parse that is called from outside returns, with all the loops in it. It never moves back and
ends behind the last token, at a token that ends the input or at one where it has to stop; if
there was a token to parse, it moves on. -/
theorem parse_returns (options : InlineOptions) {tokens : Array (Token Kind)} {c : Cursor}
    (h : Reachable tokens c) (stop : List Kind) :
    let parser : InlineParser := { options }
    let d := (parser.parse stop c).2
    parser.LoopsReturn ∧
      (∃ draft, ReturnsWithin (parser.round (parser.inside parser.search.nesting) stop) c.remaining
        ({}, c) (draft, d) ∧ (parser.parse stop c).1 = draft.finish) ∧
      c.position ≤ d.position ∧
      (∀ token ∈ d.peek, token.isEof = true ∨ token.kind ∈ stop) ∧
      ∀ token ∈ c.peek, token.isEof = false → token.kind ∉ stop → c.position < d.position := by
  intro parser d
  have hidle := h.idle
  have hd : Idle tokens d := (Reachable.parse options stop h).idle
  have hloops := parser.loops_return
  have hinner := parser.inside_orderly parser.search.nesting
  have hwithin : c.position ≤ c.tokens.size := hidle.tokens ▸ hidle.within
  have hparse : parser.parse stop c = _ := hidle.parse_eq_level stop
  have hsteps : d = (parser.steps (parser.inside parser.search.nesting) stop c.remaining {} c).2 :=
    congrArg Prod.snd hparse
  have hstop {c : Cursor} (hc : Idle tokens c) (token : Token Kind) :
      stopsAt stop c token = true ↔ token.isEof = true ∨ token.kind ∈ stop := by
    rw [stopsAt, hc.going, Bool.or_false, Bool.or_eq_true, List.contains_iff_mem]
  refine ⟨hloops, ⟨_, hsteps ▸ hloops.content _ stop {} c, congrArg Prod.fst hparse⟩, ?_, ?_, ?_⟩
  · rw [hsteps]
    exact (steps_leads hinner stop c.remaining {} hwithin).2
  · intro token htoken
    rw [← hstop hd]
    rw [hsteps] at htoken ⊢
    exact steps_end hinner (Nat.le_refl _) {} htoken
  · intro token htoken heof hkind
    have hgo : stopsAt stop c token = false := by
      rw [← Bool.not_eq_true, hstop hidle]
      simp [heof, hkind]
    have hless := Cursor.remaining_advance_lt htoken
    rw [hsteps]
    cases hremaining : c.remaining with
    | zero => exact absurd (hremaining ▸ hless) (Nat.not_lt_zero _)
    | succ limit => exact steps_progress hinner htoken hgo limit {}

theorem parse_returns_openBracket :
    let c := (({ options := { links := false } } : InlineParser).parse []
      { tokens := (tokenize "[a".toList).toArray }).2.reset 0
    c.peek.map (·.kind) = some .leftBracket ∧
      c.position < (({ options := {} } : InlineParser).parse [.rightBracket] c).2.position := by
  intro c
  have hpeek : c.peek = some ⟨.leftBracket, ['['], ⟨⟨0, 0, 0⟩, ⟨0, 1, 1⟩⟩⟩ := by decide +kernel
  have hreach : Reachable (tokenize "[a".toList).toArray c :=
    .reset 0 (.parse { links := false } [] .fresh)
  have hreturns := parse_returns {} hreach [.rightBracket]
  exact ⟨by rw [hpeek, Option.map_some], hreturns.2.2.2.2 _ hpeek rfl (by decide)⟩

end InlineParser
end InlineMarkdown
