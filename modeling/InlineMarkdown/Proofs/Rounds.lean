import InlineMarkdown.Markdown
import InlineMarkdown.Proofs.Progress
import InlineMarkdown.Proofs.Runs

/-! Rounds of the driver in which every token is claimed.

As long as each round's token is claimed and tokens are taken for it, a parse neither
records anything nor stops early: what every round preserves holds at the end, where no
token is left but the end of the input (`Registry.drive_induct`). Markdown's two consumers
share the tokens in that way: a line end is the business of one, any other token that of the
other (`offer_newline`, `offer_inline`), so what breaks and lines preserve holds at the end
(`markdown_induct`). -/
namespace InlineMarkdown

/-! ### Rounds -/

section Rounds
variable {K N : Type} [TokenKind K] {registry : Registry K N} {P : Context K N → Prop}
  {ctx : Context K N}

/-- What every round preserves holds behind all rounds, if each takes a token. -/
theorem Registry.Runs.induct
    (hround : ∀ {ctx : Context K N} {token : Token K} {rest : List (Token K)},
      ctx.queue = token :: rest → token.isEof = false → P ctx →
        ∃ name ctx', registry.offer ctx token = (some name, ctx') ∧
          ctx'.remaining < ctx.remaining ∧ P ctx')
    {previous : Option Nat} {offers : List (Offer K N)} {stop : Stop K} {final : Context K N}
    (hrun : registry.Runs previous ctx offers stop final)
    (hprevious : previous ≠ some ctx.remaining) (h : P ctx) : P final ∧ final.AtEnd := by
  induction hrun with
  | finished hend => exact ⟨h, hend⟩
  | stuck _ _ hsame => exact absurd hsame hprevious
  | @round _ ctx token _ _ _ hfront heof _ _ ih =>
    obtain ⟨rest, hqueue⟩ := List.head?_eq_some_iff.1 hfront
    obtain ⟨name, ctx', hoffer, hless, hnext⟩ := hround hqueue heof h
    have hask : (registry.ask ctx token).next = ctx' := by
      simp [Registry.ask, Offer.next, hoffer]
    rw [hask] at ih
    exact ih (fun hsame => Nat.ne_of_gt hless (Option.some.inj hsame)) hnext

theorem Registry.drive_induct (registry : Registry K N)
    (hround : ∀ {ctx : Context K N} {token : Token K} {rest : List (Token K)},
      ctx.queue = token :: rest → token.isEof = false → P ctx →
        ∃ name ctx', registry.offer ctx token = (some name, ctx') ∧
          ctx'.remaining < ctx.remaining ∧ P ctx')
    (h : P ctx) : P (registry.drive ctx) ∧ (registry.drive ctx).AtEnd := by
  obtain ⟨_, _, hrun⟩ := registry.drive_runs ctx
  exact hrun.induct hround (by simp) h

end Rounds

/-! ### Markdown's consumers -/

variable {ctx : Context Kind Node} {token : Token Kind} {rest : List (Token Kind)}

/-- What the inline parser makes of the tokens at the front of the queue. -/
def Context.line (ctx : Context Kind Node) (options : InlineOptions) : List Node × Cursor :=
  ({ options } : InlineParser).parse lineStop { tokens := ctx.queue.toArray }

/-- The context behind them, if there are any. -/
def Context.pastLine (ctx : Context Kind Node) (options : InlineOptions) : Context Kind Node :=
  { ctx with
    queue := ctx.queue.drop (ctx.line options).2.position
    node := ctx.node.extend (ctx.line options).1
    reports := .inlineRun (ctx.line options).2.position (ctx.line options).1.length ::
      ((ctx.line options).2.reports ++ ctx.reports) }

theorem peek_of_queue (hqueue : ctx.queue = token :: rest) :
    Cursor.peek { tokens := ctx.queue.toArray } = some token := by
  simp [Cursor.peek, hqueue]

/-- The inline parser does not touch the tokens. -/
theorem line_leads (ctx : Context Kind Node) (options : InlineOptions) :
    Cursor.Leads { tokens := ctx.queue.toArray } (ctx.line options).2 := by
  unfold Context.line InlineParser.parse
  exact ((InlineParser.atRoom_orderly { options } _).leads lineStop _ (Nat.zero_le _)).1

/-- The inline parser passes nothing if it has to stop at once. -/
theorem line_of_stop (options : InlineOptions) (hqueue : ctx.queue = token :: rest)
    (hstop : token.kind ∈ lineStop) :
    ctx.line options = ([], { tokens := ctx.queue.toArray }) := by
  have hstops : InlineParser.stopsAt lineStop { tokens := ctx.queue.toArray } token = true := by
    simp [InlineParser.stopsAt, hstop]
  unfold Context.line InlineParser.parse
  rw [InlineParser.atRoom_eq_level]
  unfold InlineParser.level
  rw [InlineParser.steps_of_stopsAt (peek_of_queue hqueue) hstops]
  rfl

/-- At any other token it passes that, and goes on. -/
theorem line_of_not_stop (options : InlineOptions) (hqueue : ctx.queue = token :: rest)
    (heof : token.isEof = false) (hkind : token.kind ≠ .newline) :
    0 < (ctx.line options).2.position ∧ (ctx.line options).2.position ≤ ctx.queue.length := by
  have hstops : InlineParser.stopsAt lineStop { tokens := ctx.queue.toArray } token = false := by
    have : token.kind ≠ .eof := by simpa [Token.isEof, TokenKind.isEof] using heof
    simp [InlineParser.stopsAt, heof, lineStop, hkind, this]
  refine ⟨?_, ?_⟩
  · have hinner := InlineParser.inside_orderly { options } (({ options } : InlineParser).search.nesting - 0)
    have hlimit : Cursor.remaining { tokens := ctx.queue.toArray } = rest.length + 1 := by
      simp [Cursor.remaining, hqueue]
    unfold Context.line InlineParser.parse
    rw [InlineParser.atRoom_eq_level]
    unfold InlineParser.level
    rw [hlimit]
    exact InlineParser.steps_progress hinner (peek_of_queue hqueue) hstops _ _
  · have hsize := (line_leads ctx options).within
    rw [(line_leads ctx options).tokens] at hsize
    simpa using hsize

/-- A line end is not claimed by the inline parser but turned into a break. -/
theorem offer_newline (options : InlineOptions) (hqueue : ctx.queue = token :: rest)
    (hkind : token.kind = .newline) : ∃ ctx',
      (markdown options).consumers.offer ctx token = (some "line-break", ctx') ∧
      ctx'.queue = rest ∧ ctx'.node = ctx.node.append ⟨.softBreak, token.span, []⟩ ∧
      ctx'.diagnostics = ctx.diagnostics := by
  have hline : (ctx.line options).2.position = 0 := by
    rw [line_of_stop options hqueue (by simp [lineStop, hkind])]
  have hinline : (inlineConsumer options).consume ctx token = (false, ctx) := if_pos hline
  have hbreak : lineBreakConsumer.consume ctx token =
      (true, (ctx.advance 1).append ⟨.softBreak, token.span, []⟩) := if_pos hkind
  refine ⟨((ctx.advance 1).append ⟨.softBreak, token.span, []⟩).report
    (.claimed lineBreakConsumer.name (TokenKind.name token.kind) token.text), ?_, ?_, rfl, rfl⟩
  · show Registry.offerTo token [inlineConsumer options, lineBreakConsumer] ctx = _
    simp only [Registry.offerTo, hinline, hbreak]
    rfl
  · show ctx.queue.drop 1 = rest
    rw [hqueue]
    rfl

/-- Any other token begins a line that the inline parser claims. -/
theorem offer_inline (options : InlineOptions) (hqueue : ctx.queue = token :: rest)
    (heof : token.isEof = false) (hkind : token.kind ≠ .newline) : ∃ ctx',
      (markdown options).consumers.offer ctx token = (some "inline", ctx') ∧
      ctx'.queue = ctx.queue.drop (ctx.line options).2.position ∧
      ctx'.node = ctx.node.extend (ctx.line options).1 ∧
      ctx'.diagnostics = ctx.diagnostics := by
  obtain ⟨hpos, -⟩ := line_of_not_stop options hqueue heof hkind
  have hinline : (inlineConsumer options).consume ctx token = (true, ctx.pastLine options) :=
    if_neg (Nat.ne_of_gt hpos)
  refine ⟨(ctx.pastLine options).report
    (.claimed (inlineConsumer options).name (TokenKind.name token.kind) token.text), ?_, rfl, rfl, rfl⟩
  show Registry.offerTo token [inlineConsumer options, lineBreakConsumer] ctx = _
  simp only [Registry.offerTo, hinline]
  rfl

/-- What every break and every line preserves holds at the end of a parse. -/
theorem markdown_induct (options : InlineOptions) {P : Context Kind Node → Prop}
    (hbreak : ∀ {ctx ctx' : Context Kind Node} {token : Token Kind} {rest : List (Token Kind)},
      ctx.queue = token :: rest → token.kind = .newline → ctx'.queue = rest →
        ctx'.node = ctx.node.append ⟨.softBreak, token.span, []⟩ → P ctx → P ctx')
    (hline : ∀ {ctx ctx' : Context Kind Node} {token : Token Kind} {rest : List (Token Kind)},
      ctx.queue = token :: rest → token.isEof = false → token.kind ≠ .newline →
        ctx'.queue = ctx.queue.drop (ctx.line options).2.position →
        ctx'.node = ctx.node.extend (ctx.line options).1 → P ctx → P ctx')
    (h : P ctx) : P ((markdown options).consumers.drive ctx) ∧
      ((markdown options).consumers.drive ctx).AtEnd := by
  refine (markdown options).consumers.drive_induct (fun hqueue heof h => ?_) h
  rename_i ctx token rest
  by_cases hkind : token.kind = .newline
  · obtain ⟨ctx', hoffer, hrest, hnode, -⟩ := offer_newline options hqueue hkind
    refine ⟨_, ctx', hoffer, ?_, hbreak hqueue hkind hrest hnode h⟩
    simp [Context.remaining, hrest, hqueue]
  · obtain ⟨ctx', hoffer, hrest, hnode, -⟩ := offer_inline options hqueue heof hkind
    obtain ⟨hpos, hle⟩ := line_of_not_stop options hqueue heof hkind
    refine ⟨_, ctx', hoffer, ?_, hline hqueue heof hkind hrest hnode h⟩
    simp only [Context.remaining, hrest, List.length_drop]
    omega

end InlineMarkdown
