import InlineMarkdown.Engine.Context

/-! Consumers and the order in which they are asked.

A consumer is a piece of grammar: offered a token, it either claims it and changes
the context, or declines. The only bound on what it does with the context is that
it takes tokens from the front of the queue and adds none. A registry keeps its
consumers by priority, those of one priority in the order of registration, and
gives a token to the first that claims it. -/
namespace InlineMarkdown

structure Consumer (K N : Type) where
  name : String
  /-- Consumers of lower priority numbers are asked first. -/
  priority : Int := 0
  /-- Whether the token, which is at the front of the queue, is claimed, and the
  context behind it. -/
  consume : Context K N → Token K → Bool × Context K N
  /-- Tokens are only taken from the front. -/
  queue_suffix (ctx : Context K N) (token : Token K) : (consume ctx token).2.queue <:+ ctx.queue

/-- Consumers in the order in which they are asked. -/
structure Registry (K N : Type) where
  consumers : List (Consumer K N) := []
  ordered : consumers.Pairwise (·.priority ≤ ·.priority) := by exact List.Pairwise.nil

namespace Registry
variable {K N : Type}

/-! ### Registration -/

/-- Puts a consumer behind all of its own or a lower priority number. -/
def place (consumer : Consumer K N) : List (Consumer K N) → List (Consumer K N)
  | [] => [consumer]
  | other :: rest =>
    if consumer.priority < other.priority then consumer :: other :: rest
    else other :: place consumer rest

theorem mem_place {consumer c : Consumer K N} {consumers : List (Consumer K N)} :
    c ∈ place consumer consumers ↔ c = consumer ∨ c ∈ consumers := by
  induction consumers with
  | nil => simp [place]
  | cons other rest ih =>
    simp only [place]
    split
    · simp
    · simp only [List.mem_cons, ih]
      constructor
      · rintro (h | h | h) <;> simp [h]
      · rintro (h | h | h) <;> simp [h]

theorem ordered_place (consumer : Consumer K N) {consumers : List (Consumer K N)}
    (h : consumers.Pairwise (·.priority ≤ ·.priority)) :
    (place consumer consumers).Pairwise (·.priority ≤ ·.priority) := by
  induction consumers with
  | nil => simp [place]
  | cons other rest ih =>
    obtain ⟨first, later⟩ := List.pairwise_cons.1 h
    simp only [place]
    split
    · rename_i lower
      refine List.pairwise_cons.2 ⟨fun c hc => ?_, h⟩
      rcases List.mem_cons.1 hc with rfl | hc
      · exact Int.le_of_lt lower
      · exact Int.le_trans (Int.le_of_lt lower) (first c hc)
    · rename_i notLower
      refine List.pairwise_cons.2 ⟨fun c hc => ?_, ih later⟩
      rcases mem_place.1 hc with rfl | hc
      · exact Int.not_lt.1 notLower
      · exact first c hc

/-- The registry with one more consumer. -/
def register (registry : Registry K N) (consumer : Consumer K N) : Registry K N :=
  ⟨place consumer registry.consumers, ordered_place consumer registry.ordered⟩

/-- Registers consumers one after the other. -/
def ofList (consumers : List (Consumer K N)) : Registry K N :=
  consumers.foldl register {}

/-- The names of the consumers in the order in which they are asked. -/
def names (registry : Registry K N) : List String := registry.consumers.map (·.name)

/-! ### Offering a token -/

/-- Asks the consumers in turn until one claims the token; yields its name. -/
def offerTo [TokenKind K] (token : Token K) :
    List (Consumer K N) → Context K N → Option String × Context K N
  | [], ctx => (none, ctx)
  | consumer :: rest, ctx =>
    match consumer.consume ctx token with
    | (true, ctx) =>
      (some consumer.name,
        ctx.report (.claimed consumer.name (TokenKind.name token.kind) token.text))
    | (false, ctx) => offerTo token rest ctx

/-- Offers a token to the consumers; yields the name of the one that claims it. -/
def offer [TokenKind K] (registry : Registry K N) (ctx : Context K N) (token : Token K) :
    Option String × Context K N :=
  offerTo token registry.consumers ctx

theorem queue_offerTo_suffix [TokenKind K] (token : Token K) (consumers : List (Consumer K N))
    (ctx : Context K N) : (offerTo token consumers ctx).2.queue <:+ ctx.queue := by
  induction consumers generalizing ctx with
  | nil => exact List.suffix_refl _
  | cons consumer rest ih =>
    have step := consumer.queue_suffix ctx token
    simp only [offerTo]
    split
    · rename_i h; rw [h] at step; exact step
    · rename_i h; rw [h] at step; exact (ih _).trans step

end Registry
end InlineMarkdown
