import InlineMarkdown.Engine.Parse

/-! Runs of the driver, whatever its consumers do.

Each round of a run offers the token at the front to the consumers (`Offer`), until the
driver may stop or a round begins with as many tokens as the one before it
(`Registry.Runs`). Nothing bounds such a run from outside: the driver's own bound is never
what ends it (`Registry.drive_runs`). An offer takes tokens from the front of the queue
unless it is a claim that takes none (`Registry.next_cases`), and after one of those the run
is over. So the offered tokens stand further and further behind, and the guard against
standing still gives up exactly where a claim took nothing (`Registry.drive_ends`).

Consumers are any functions that take tokens from the front of the queue only; one that
keeps a memory of its own keeps it in the nodes, whose type is left open. -/
namespace InlineMarkdown
variable {K N : Type}

/-! ### Offers -/

namespace Context

/-- The driver may stop here. -/
def AtEnd [TokenKind K] (ctx : Context K N) : Prop := ∀ token ∈ ctx.front?, token.isEof = true

/-- The context behind a token that nobody claims. -/
def skip (ctx : Context K N) (token : Token K) : Context K N :=
  ((ctx.report (.unclaimed token.span.start token.text)).record (.unrecognized token.text)
    token.span).advance 1

/-- The context of a driver that gives up at a token. -/
def abort (ctx : Context K N) (token : Token K) : Context K N :=
  (ctx.report (.noProgress token.span.start token.text)).record (.stuck token.text) token.span

theorem remaining_pos {ctx : Context K N} {token : Token K} (hfront : ctx.front? = some token) :
    0 < ctx.remaining := by
  apply List.length_pos_of_mem
  exact List.mem_of_head? hfront

end Context

/-- A token that is offered to the consumers. -/
structure Offer (K N : Type) where
  /-- The context in which they are asked. -/
  before : Context K N
  token : Token K
  /-- The name of the one that claims the token. -/
  answer : Option String
  /-- The context that they leave. -/
  after : Context K N

/-- The token is offered here. -/
def Registry.ask [TokenKind K] (registry : Registry K N) (ctx : Context K N)
    (token : Token K) : Offer K N :=
  ⟨ctx, token, (registry.offer ctx token).1, (registry.offer ctx token).2⟩

namespace Offer

/-- The token is claimed, and nothing is taken. -/
def Idle (offer : Offer K N) : Prop :=
  offer.answer.isSome = true ∧ offer.after.remaining = offer.before.remaining

/-- The context in which the next round begins. -/
def next (offer : Offer K N) : Context K N :=
  if offer.answer.isSome then offer.after else offer.after.skip offer.token

/-- What the driver itself records in the round. -/
def records (offer : Offer K N) : List Diagnostic :=
  if offer.answer.isSome then [] else [⟨.unrecognized offer.token.text, offer.token.span⟩]

theorem records_recoverable (offer : Offer K N) : ∀ d ∈ offer.records, d.isFatal = false := by
  intro d hd
  unfold records at hd
  split at hd
  · cases hd
  · obtain rfl := List.mem_singleton.1 hd
    rfl

end Offer

namespace Registry
variable [TokenKind K] {registry : Registry K N} {ctx : Context K N} {token : Token K}

theorem ask_suffix (registry : Registry K N) (ctx : Context K N) (token : Token K) :
    (registry.ask ctx token).after.queue <:+ ctx.queue :=
  queue_offerTo_suffix token registry.consumers ctx

/-- A round takes tokens from the front, or it is a claim that takes none. -/
theorem next_cases (hfront : ctx.front? = some token) :
    let offer := registry.ask ctx token
    offer.next.queue <:+ ctx.queue ∧
      ((¬ offer.Idle ∧ offer.next.remaining < ctx.remaining) ∨
        (offer.Idle ∧ offer.next = offer.after ∧ offer.after.queue = ctx.queue)) := by
  intro offer
  have hsuffix : offer.after.queue <:+ ctx.queue := registry.ask_suffix ctx token
  have hle : offer.after.remaining ≤ ctx.remaining := hsuffix.length_le
  by_cases hclaimed : offer.answer.isSome = true
  · have hnext : offer.next = offer.after := if_pos hclaimed
    rw [hnext]
    refine ⟨hsuffix, ?_⟩
    by_cases hsame : offer.after.remaining = ctx.remaining
    · exact .inr ⟨⟨hclaimed, hsame⟩, rfl, hsuffix.eq_of_length hsame⟩
    · exact .inl ⟨fun hidle => hsame hidle.2, Nat.lt_of_le_of_ne hle hsame⟩
  · have hnext : offer.next.queue = offer.after.queue.drop 1 := by
      unfold Offer.next
      rw [if_neg hclaimed]
      rfl
    have hpos := Context.remaining_pos hfront
    refine ⟨hnext ▸ (List.drop_suffix 1 _).trans hsuffix, .inl ⟨fun hidle => hclaimed hidle.1, ?_⟩⟩
    simp only [Context.remaining, hnext, List.length_drop] at hle hpos ⊢
    omega

end Registry

/-! ### Runs -/

/-- Why a run is over. -/
inductive Stop (K : Type) where
  /-- No token is left but the end of the input. -/
  | finished
  /-- The driver gives up at a token. -/
  | stuck (token : Token K)

/-- What the driver records as it stops. -/
def Stop.records {K : Type} : Stop K → List Diagnostic
  | finished => []
  | stuck token => [⟨.stuck token.text, token.span⟩]

/-- All that the driver itself records in a run, in order. -/
def recorded (offers : List (Offer K N)) (stop : Stop K) : List Diagnostic :=
  offers.flatMap Offer.records ++ stop.records

/-- Of all that the driver records, only what it records as it stops is fatal. -/
theorem recorded_fatal (offers : List (Offer K N)) (stop : Stop K) :
    (recorded offers stop).filter Diagnostic.isFatal = stop.records := by
  have hoffers : (offers.flatMap Offer.records).filter Diagnostic.isFatal = [] := by
    rw [List.filter_eq_nil_iff]
    intro d hd
    obtain ⟨offer, -, hoffer⟩ := List.mem_flatMap.1 hd
    rw [offer.records_recoverable d hoffer]
    exact Bool.false_ne_true
  rw [recorded, List.filter_append, hoffers, List.nil_append]
  cases stop <;> rfl

namespace Registry
variable [TokenKind K] {registry : Registry K N} {previous : Option Nat} {ctx final : Context K N}
  {offers : List (Offer K N)} {stop : Stop K}

/-- A run from a context: its rounds in order, why it stops, and the context it leaves.
`previous` is the number of tokens at the beginning of the round before. -/
inductive Runs (registry : Registry K N) :
    Option Nat → Context K N → List (Offer K N) → Stop K → Context K N → Prop
  | finished {previous : Option Nat} {ctx : Context K N} (hend : ctx.AtEnd) :
      Runs registry previous ctx [] .finished ctx
  | stuck {previous : Option Nat} {ctx : Context K N} {token : Token K}
      (hfront : ctx.front? = some token) (heof : token.isEof = false)
      (hsame : previous = some ctx.remaining) :
      Runs registry previous ctx [] (.stuck token) (ctx.abort token)
  | round {previous : Option Nat} {ctx : Context K N} {token : Token K}
      {offers : List (Offer K N)} {stop : Stop K} {final : Context K N}
      (hfront : ctx.front? = some token) (heof : token.isEof = false)
      (hnew : previous ≠ some ctx.remaining)
      (hrest : Runs registry (some ctx.remaining) (registry.ask ctx token).next offers stop final) :
      Runs registry previous ctx (registry.ask ctx token :: offers) stop final

/-- The driver does one round after the other. -/
theorem rounds_succ (registry : Registry K N) (limit : Nat) {token : Token K}
    (hfront : ctx.front? = some token) (heof : token.isEof = false)
    (hnew : previous ≠ some ctx.remaining) :
    registry.rounds (limit + 1) previous ctx =
      registry.rounds limit (some ctx.remaining) (registry.ask ctx token).next := by
  obtain ⟨rest, hqueue⟩ := List.head?_eq_some_iff.1 hfront
  rcases hoffer : registry.offer ctx token with ⟨_ | name, after⟩ <;>
    simp only [rounds, hqueue, heof, Bool.false_eq_true, if_false, hnew, ask, Offer.next, hoffer] <;>
    rfl

/-- The driver's bound on the number of rounds does not end a run: it leaves room for a
round for each token, and for one that finds no progress. -/
theorem rounds_run {limit : Nat}
    (hlimit : ctx.remaining < limit ∨ (previous = some ctx.remaining ∧ 0 < limit)) :
    ∃ offers stop, registry.Runs previous ctx offers stop (registry.rounds limit previous ctx) := by
  induction limit generalizing previous ctx with
  | zero => omega
  | succ limit ih =>
    by_cases hend : ctx.AtEnd
    · have hrounds : registry.rounds (limit + 1) previous ctx = ctx := by
        unfold rounds
        split
        · rfl
        · rename_i token rest hqueue
          rw [if_pos (hend token (by simp [Context.front?, hqueue]))]
      rw [hrounds]
      exact ⟨[], .finished, .finished hend⟩
    · obtain ⟨token, hfront, heof⟩ : ∃ token, ctx.front? = some token ∧ token.isEof = false := by
        simpa [Context.AtEnd] using hend
      by_cases hsame : previous = some ctx.remaining
      · have hrounds : registry.rounds (limit + 1) previous ctx = ctx.abort token := by
          obtain ⟨rest, hqueue⟩ := List.head?_eq_some_iff.1 hfront
          simp only [rounds, hqueue, heof, hsame, Bool.false_eq_true, if_false, if_true]
          rfl
        rw [hrounds]
        exact ⟨[], .stuck token, .stuck hfront heof hsame⟩
      · have hlimit' : ctx.remaining < limit + 1 := hlimit.resolve_right fun h => hsame h.1
        rw [registry.rounds_succ limit hfront heof hsame]
        -- a claim that takes nothing needs no room but for the round that finds it out
        have hroom : (registry.ask ctx token).next.remaining < limit ∨
            (some ctx.remaining = some (registry.ask ctx token).next.remaining ∧ 0 < limit) := by
          obtain ⟨-, ⟨-, hless⟩ | ⟨hidle, hnext, hqueue⟩⟩ := registry.next_cases hfront
          · exact .inl (by omega)
          · have hpos := Context.remaining_pos hfront
            rw [hnext]
            exact .inr ⟨congrArg some hidle.2.symm, by omega⟩
        obtain ⟨offers, stop, hrest⟩ := ih hroom
        exact ⟨_, stop, .round hfront heof hsame hrest⟩

/-- What the driver does is a run. -/
theorem drive_runs (registry : Registry K N) (ctx : Context K N) :
    ∃ offers stop, registry.Runs none ctx offers stop (registry.drive ctx) :=
  rounds_run (.inl (Nat.lt_succ_self _))

namespace Runs

/-- There is only one run from a context. -/
theorem unique (h : registry.Runs previous ctx offers stop final)
    {offers' : List (Offer K N)} {stop' : Stop K} {final' : Context K N}
    (h' : registry.Runs previous ctx offers' stop' final') :
    offers' = offers ∧ stop' = stop ∧ final' = final := by
  induction h generalizing offers' with
  | finished hend =>
    cases h' with
    | finished => exact ⟨rfl, rfl, rfl⟩
    | stuck hfront heof | round hfront heof =>
      exact absurd (hend _ hfront) (Bool.eq_false_iff.1 heof)
  | stuck hfront heof hsame =>
    cases h' with
    | finished hend => exact absurd (hend _ hfront) (Bool.eq_false_iff.1 heof)
    | stuck hfront' =>
      obtain rfl := Option.some.inj (hfront.symm.trans hfront')
      exact ⟨rfl, rfl, rfl⟩
    | round _ _ hnew => exact absurd hsame hnew
  | round hfront heof hnew _ ih =>
    cases h' with
    | finished hend => exact absurd (hend _ hfront) (Bool.eq_false_iff.1 heof)
    | stuck _ _ hsame => exact absurd hsame hnew
    | round hfront' _ _ hrest' =>
      obtain rfl := Option.some.inj (hfront.symm.trans hfront')
      obtain ⟨rfl, rfl, rfl⟩ := ih hrest'
      exact ⟨rfl, rfl, rfl⟩

/-- Every round asks about the token at the front, which does not end the input. -/
theorem offered (h : registry.Runs previous ctx offers stop final) :
    ∀ offer ∈ offers, offer = registry.ask offer.before offer.token ∧
      offer.before.front? = some offer.token ∧ offer.token.isEof = false := by
  induction h with
  | finished | stuck => exact fun _ hoffer => absurd hoffer List.not_mem_nil
  | round hfront heof _ _ ih => exact List.forall_mem_cons.2 ⟨⟨rfl, hfront, heof⟩, ih⟩

/-- A round that begins with as many tokens as the one before it is the last. -/
theorem still (h : registry.Runs (some ctx.remaining) ctx offers stop final) {token : Token K}
    (hfront : ctx.front? = some token) (heof : token.isEof = false) :
    offers = [] ∧ stop = .stuck token ∧ final = ctx.abort token :=
  h.unique (.stuck hfront heof rfl) |>.imp Eq.symm (.imp Eq.symm Eq.symm)

/-- A claim that takes nothing is the last round. -/
theorem idle {token : Token K} (hidle : (registry.ask ctx token).Idle)
    (h : registry.Runs (some ctx.remaining) (registry.ask ctx token).next offers stop final)
    (hfront : ctx.front? = some token) (heof : token.isEof = false) :
    offers = [] ∧ stop = .stuck token ∧
      final = (registry.ask ctx token).after.abort token := by
  obtain ⟨-, ⟨hbusy, -⟩ | ⟨-, hnext, hqueue⟩⟩ := registry.next_cases hfront
  · exact absurd hidle hbusy
  · rw [hnext] at h
    have hleft : ctx.remaining = (registry.ask ctx token).after.remaining :=
      congrArg List.length hqueue.symm
    rw [hleft] at h
    exact h.still (by simpa [Context.front?, hqueue] using hfront) heof

/-- A round takes at least one token, or is the last. -/
theorem length_le (h : registry.Runs previous ctx offers stop final) :
    offers.length ≤ ctx.remaining := by
  induction h with
  | finished | stuck => exact Nat.zero_le _
  | @round _ ctx token offers _ _ hfront heof _ hrest ih =>
    obtain ⟨-, ⟨-, hless⟩ | ⟨hidle, -⟩⟩ := registry.next_cases hfront
    · exact Nat.lt_of_le_of_lt ih hless
    · obtain ⟨rfl, -⟩ := idle hidle hrest hfront heof
      exact Context.remaining_pos hfront

/-- The offered tokens stand further and further behind. -/
theorem indices (h : registry.Runs previous ctx offers stop final) :
    ∃ indices : List Nat, indices.Pairwise (· < ·) ∧
      offers.map (fun offer => some offer.token) = indices.map (ctx.queue[·]?) := by
  induction h with
  | finished | stuck => exact ⟨[], .nil, rfl⟩
  | @round _ ctx token offers _ _ hfront heof _ hrest ih =>
    have hfirst : ctx.queue[0]? = some token := List.head?_eq_getElem?.symm.trans hfront
    obtain ⟨hsuffix, ⟨-, hless⟩ | ⟨hidle, -⟩⟩ := registry.next_cases hfront
    · -- behind what the round takes every index is that much smaller
      obtain ⟨indices, hsorted, htokens⟩ := ih
      have hdrop := List.suffix_iff_eq_drop.1 hsuffix
      refine ⟨0 :: indices.map (ctx.remaining - (registry.ask ctx token).next.remaining + ·), ?_, ?_⟩
      · refine List.pairwise_cons.2 ⟨fun i hi => ?_, hsorted.map _ fun i j hij => by omega⟩
        obtain ⟨j, -, rfl⟩ := List.mem_map.1 hi
        omega
      · rw [List.map_cons, List.map_cons, hfirst, htokens, List.map_map]
        refine congrArg _ (List.map_congr_left fun i _ => ?_)
        rw [Function.comp_apply, ← List.getElem?_drop]
        exact congrArg (·[i]?) hdrop
    · obtain ⟨rfl, -⟩ := idle hidle hrest hfront heof
      exact ⟨[0], List.pairwise_singleton .., by simp [hfirst, ask]⟩

/-- A run that is finished is at the end of the input. -/
theorem atEnd (h : registry.Runs previous ctx offers .finished final) : final.AtEnd := by
  generalize hstop : Stop.finished = stop at h
  induction h with
  | finished hend => exact hend
  | stuck => cases hstop
  | round _ _ _ _ ih => exact ih hstop

/-- A run stops at the end of the input, or its last round and no other is a claim that
takes nothing. -/
theorem outcome (h : registry.Runs previous ctx offers stop final)
    (hnew : previous ≠ some ctx.remaining) :
    ((∀ offer ∈ offers, ¬ offer.Idle) ∧ stop = .finished ∧ final.AtEnd) ∨
      ∃ earlier last, offers = earlier ++ [last] ∧ (∀ offer ∈ earlier, ¬ offer.Idle) ∧ last.Idle ∧
        stop = .stuck last.token ∧ final = last.after.abort last.token := by
  induction h with
  | finished hend => exact .inl ⟨fun _ hoffer => absurd hoffer List.not_mem_nil, rfl, hend⟩
  | stuck _ _ hsame => exact absurd hsame hnew
  | @round _ ctx token offers _ _ hfront heof _ hrest ih =>
    obtain ⟨-, ⟨hbusy, hless⟩ | ⟨hidle, -⟩⟩ := registry.next_cases hfront
    · have hmoved : some ctx.remaining ≠ some (registry.ask ctx token).next.remaining :=
        fun hsame => Nat.ne_of_gt hless (Option.some.inj hsame)
      have hall {rest : List (Offer K N)} (hrest : ∀ offer ∈ rest, ¬ offer.Idle) :
          ∀ offer ∈ registry.ask ctx token :: rest, ¬ offer.Idle :=
        List.forall_mem_cons.2 ⟨hbusy, hrest⟩
      obtain ⟨hrest, hstop⟩ | ⟨earlier, last, rfl, hearlier, hlast⟩ := ih hmoved
      · exact .inl ⟨hall hrest, hstop⟩
      · exact .inr ⟨_ :: earlier, last, rfl, hall hearlier, hlast⟩
    · obtain ⟨rfl, rfl, rfl⟩ := idle hidle hrest hfront heof
      exact .inr ⟨[], registry.ask ctx token, rfl,
        fun _ hoffer => absurd hoffer List.not_mem_nil, hidle, rfl, rfl⟩

end Runs

/-! ### The guard against standing still -/

/-- The driver ends within one round more than there are tokens, and offers no token
twice. It gives up exactly if some claim takes nothing: once, at that claim's token, and
as the last thing it does. Otherwise it goes on to the end of the input. -/
theorem drive_ends (registry : Registry K N) (ctx : Context K N) :
    ∃ offers stop, registry.Runs none ctx offers stop (registry.drive ctx) ∧
      offers.length + 1 ≤ ctx.remaining + 1 ∧
      (∃ indices : List Nat, indices.Pairwise (· < ·) ∧
        offers.map (fun offer => some offer.token) = indices.map (ctx.queue[·]?)) ∧
      ((∃ text span, ⟨.stuck text, span⟩ ∈ recorded offers stop) ↔ ∃ offer ∈ offers, offer.Idle) ∧
      (∀ offer ∈ offers, offer.Idle →
        offers.getLast? = some offer ∧
        (recorded offers stop).filter Diagnostic.isFatal =
          [⟨.stuck offer.token.text, offer.token.span⟩] ∧
        (recorded offers stop).getLast? = some ⟨.stuck offer.token.text, offer.token.span⟩ ∧
        registry.drive ctx = offer.after.abort offer.token) ∧
      ((∀ offer ∈ offers, ¬ offer.Idle) → (registry.drive ctx).AtEnd) := by
  obtain ⟨offers, stop, hrun⟩ := registry.drive_runs ctx
  have hstuck (text : List Char) (span : Span) :
      ⟨.stuck text, span⟩ ∈ recorded offers stop ↔ ⟨.stuck text, span⟩ ∈ stop.records := by
    rw [← recorded_fatal offers stop, List.mem_filter]
    exact (and_iff_left rfl).symm
  refine ⟨offers, stop, hrun, Nat.succ_le_succ hrun.length_le, hrun.indices, ?_⟩
  simp only [hstuck]
  obtain ⟨hbusy, rfl, hend⟩ | ⟨earlier, last, rfl, hearlier, hlast, rfl, hfinal⟩ :=
    hrun.outcome (by simp)
  · refine ⟨⟨?_, ?_⟩, fun offer hoffer hidle => absurd hidle (hbusy offer hoffer), fun _ => hend⟩
    · rintro ⟨text, span, hmem⟩
      cases hmem
    · rintro ⟨offer, hoffer, hidle⟩
      exact absurd hidle (hbusy offer hoffer)
  · refine ⟨⟨fun _ => ⟨last, by simp, hlast⟩, fun _ => ⟨_, _, List.mem_singleton_self _⟩⟩, ?_,
      fun hbusy => absurd hlast (hbusy last (by simp))⟩
    intro offer hoffer hidle
    obtain rfl : offer = last := by
      rcases List.mem_append.1 hoffer with hoffer | hoffer
      · exact absurd hidle (hearlier offer hoffer)
      · exact List.mem_singleton.1 hoffer
    exact ⟨by simp, recorded_fatal _ _, by simp [recorded, Stop.records], hfinal⟩

end Registry
end InlineMarkdown
