import InlineMarkdown.Proofs.Clean

/-! What Markdown's consumers answer.

A consumer that declines hands back the context as it was; one that claims has taken tokens from the
front of the queue, put nodes behind the children there were, and recorded nothing
(`Context.Answered`). The line break takes the one token that it looks at. The inline consumer
parses on a cursor of its own and takes as many tokens as that has passed, so its answer is about
where the cursor stands in the end: at the start if the first token ends the line (`line_of_stop`),
else behind it and in front of a token that does (`line_of_not_stop`, `line_stops`). -/
namespace InlineMarkdown

variable {options : InlineOptions} {ctx : Context Kind Node} {token : Token Kind}

/-- What a consumer may answer, and leave behind, when it is asked in this context. -/
inductive Context.Answered (ctx : Context Kind Node) : Bool × Context Kind Node → Prop
  | declined : ctx.Answered (false, ctx)
  | claimed {after : Context Kind Node} (taken : List (Token Kind)) (nodes : List Node) :
      taken ≠ [] → ctx.queue = taken ++ after.queue → after.node = ctx.node.extend nodes →
      after.diagnostics = ctx.diagnostics → ctx.Answered (true, after)

/-- The token ends a line or the input. -/
def Token.EndsLine (token : Token Kind) : Prop := token.kind = .newline ∨ token.kind = .eof

theorem mem_lineStop : token.kind ∈ lineStop ↔ token.EndsLine := by
  simp [lineStop, Token.EndsLine]

/-- A context of which something is taken from the front. -/
theorem Context.answered_drop {after : Context Kind Node} {n : Nat} {nodes : List Node}
    (hpos : 0 < n) (hfront : ctx.front? = some token) (hqueue : after.queue = ctx.queue.drop n)
    (hnode : after.node = ctx.node.extend nodes) (hdiagnostics : after.diagnostics = ctx.diagnostics) :
    ctx.Answered (true, after) := by
  refine .claimed (ctx.queue.take n) nodes ?_ ?_ hnode hdiagnostics
  · obtain ⟨rest, hfront⟩ := List.head?_eq_some_iff.1 hfront
    rw [hfront, ← Nat.succ_pred_eq_of_pos hpos]
    exact List.cons_ne_nil _ _
  · rw [hqueue, List.take_append_drop]

/-! ### The line break -/

theorem lineBreakConsumer_answered (hfront : ctx.front? = some token) :
    ctx.Answered (lineBreakConsumer.consume ctx token) := by
  by_cases hkind : token.kind = .newline
  · have hclaim : lineBreakConsumer.consume ctx token =
        (true, (ctx.advance 1).append ⟨.softBreak, token.span, []⟩) := if_pos hkind
    rw [hclaim]
    exact Context.answered_drop Nat.one_pos hfront rfl rfl rfl
  · have hdecline : lineBreakConsumer.consume ctx token = (false, ctx) := if_neg hkind
    rw [hdecline]
    exact .declined

/-! ### Lines -/

/-- The inline consumer asks where its cursor stands. -/
theorem inlineConsumer_consume (options : InlineOptions) (ctx : Context Kind Node)
    (token : Token Kind) : (inlineConsumer options).consume ctx token =
      if (ctx.line options).2.position = 0 then (false, ctx) else (true, ctx.pastLine options) := rfl

/-- The cursor stays where it is if there is no token or the front one ends the line, and only
then. -/
theorem line_position_eq_zero (options : InlineOptions) (ctx : Context Kind Node) :
    (ctx.line options).2.position = 0 ↔ ∀ front ∈ ctx.front?, front.EndsLine := by
  cases hqueue : ctx.queue with
  | nil =>
    have hwithin := (line_leads ctx options).within
    rw [(line_leads ctx options).tokens, hqueue] at hwithin
    simpa [Context.front?, hqueue] using hwithin
  | cons front rest =>
    have hfront : ctx.front? = some front := congrArg List.head? hqueue
    rw [hfront]
    constructor
    · intro hzero other hother
      obtain rfl := Option.some.inj hother
      refine Classical.byContradiction fun hgoes => ?_
      obtain ⟨hnewline, heof⟩ := not_or.1 hgoes
      have hpos := (line_of_not_stop options hqueue (beq_eq_false_iff_ne.2 heof) hnewline).1
      exact Nat.ne_of_gt hpos hzero
    · intro hends
      rw [line_of_stop options hqueue (mem_lineStop.2 (hends front rfl))]

theorem inlineConsumer_answered (options : InlineOptions) (hfront : ctx.front? = some token)
    (offered : Token Kind) : ctx.Answered ((inlineConsumer options).consume ctx offered) := by
  rw [inlineConsumer_consume]
  split
  · exact .declined
  · rename_i hpassed
    exact Context.answered_drop (Nat.pos_of_ne_zero hpassed) hfront rfl rfl rfl

/-- Markdown's consumers keep the contract of consumers, in whatever state they are asked: offered
the token at the front, each hands the context back as it was or claims a block of tokens from the
front for nodes behind the children there were, and records nothing. The inline consumer declines
exactly if there is no token or the front one ends a line or the input, and behind what it claims
there is no token or one that does. -/
theorem markdown_answers (options : InlineOptions) (ctx : Context Kind Node) (token : Token Kind) :
    let inline := (inlineConsumer options).consume ctx token
    (ctx.front? = some token → ∀ consumer ∈ (markdown options).consumers.consumers,
      ctx.Answered (consumer.consume ctx token)) ∧
    (inline.1 = false ↔ ∀ front ∈ ctx.front?, front.EndsLine) ∧
    (inline.1 = true → ∀ next ∈ inline.2.front?, next.EndsLine) := by
  have hconsumers : (markdown options).consumers.consumers =
      [inlineConsumer options, lineBreakConsumer] := rfl
  refine ⟨fun hfront consumer hconsumer => ?_, ?_, ?_⟩
  · rw [hconsumers, List.mem_cons, List.mem_singleton] at hconsumer
    rcases hconsumer with rfl | rfl
    · exact inlineConsumer_answered options hfront token
    · exact lineBreakConsumer_answered hfront
  · rw [inlineConsumer_consume, ← line_position_eq_zero options]
    split <;> simp [*]
  · rw [inlineConsumer_consume]
    split
    · nofun
    · exact fun _ next hnext => mem_lineStop.1 (pastLine_stops options ctx next hnext)

/-- Asked about the first token of a line. -/
theorem markdown_answers_word :
    let ctx : Context Kind Node := { queue := tokenize "a\nb".toList, node := Node.emptyDocument }
    ∃ token, ctx.front? = some token ∧ token.kind = .text ∧
      ∀ consumer ∈ (markdown {}).consumers.consumers, ctx.Answered (consumer.consume ctx token) :=
  ⟨⟨.text, ['a'], Span.covering {} ['a']⟩, by decide, rfl,
    (markdown_answers {} _ _).1 (by decide)⟩

end InlineMarkdown
