import InlineMarkdown.Proofs.Accounting
import InlineMarkdown.Proofs.Boundary
import InlineMarkdown.Proofs.Lossless
import InlineMarkdown.Proofs.Rounds
import InlineMarkdown.Proofs.Session

/-! Markdown parses record nothing.

Markdown's two consumers keep their contract (`markdown_honest`) and leave no token
unclaimed (`markdown_claims`): at a line end one of them claims it, anywhere else the inline
parser passes at least a token and never the end of the input. So whatever the tokens are,
a run ends at the first token that ends the input or, if there is none, behind the last
token, and nothing is recorded. -/
namespace InlineMarkdown
variable {options : InlineOptions} {ctx : Context Kind Node} {token : Token Kind}

/-! ### Where a line ends -/

/-- The inline parser does not pass the end of the input. -/
theorem line_eofFree (ctx : Context Kind Node) (options : InlineOptions) :
    EofFree ctx.queue.toArray 0 (ctx.line options).2.position := by
  unfold Context.line InlineParser.parse
  exact InlineParser.atRoom_stays _ _ lineStop { tokens := ctx.queue.toArray } (Nat.zero_le _)

/-- It goes on to the end of the line or of the input, and never gives up there. -/
theorem line_stops (ctx : Context Kind Node) (options : InlineOptions) :
    (∀ token ∈ (ctx.line options).2.peek, token.kind ∈ lineStop) ∧
      (ctx.line options).2.abandoned = false := by
  have hstanding := (InlineParser.Standing.fresh { options } ctx.queue.toArray).parse
    (Nat.zero_lt_succ 63) lineStop
  have hdepth : (ctx.line options).2.depth = 0 := (line_leads ctx options).depth
  have hgoing : (ctx.line options).2.abandoned = false := hstanding.clear hdepth
  refine ⟨fun token htoken => ?_, hgoing⟩
  have hstops : InlineParser.stopsAt lineStop (ctx.line options).2 token = true := by
    unfold Context.line InlineParser.parse at htoken ⊢
    rw [InlineParser.atRoom_eq_level] at htoken ⊢
    exact InlineParser.steps_end (InlineParser.inside_orderly _ _) (Nat.le_refl _) {} htoken
  simp only [InlineParser.stopsAt, hgoing, Bool.or_false, Bool.or_eq_true] at hstops
  rcases hstops with heof | hkind
  · have hkind : token.kind = .eof := eq_of_beq heof
    rw [hkind]
    decide
  · exact List.contains_iff_mem.1 hkind

/-- Behind the line stands the end of one, if anything. -/
theorem pastLine_stops (options : InlineOptions) (ctx : Context Kind Node) :
    ∀ token ∈ (ctx.pastLine options).front?, token.kind ∈ lineStop := by
  have hstops := (line_stops ctx options).1
  unfold Cursor.peek at hstops
  rw [(line_leads ctx options).tokens] at hstops
  simpa [Context.front?, Context.pastLine] using hstops

/-! ### The contract -/

theorem inlineConsumer_honest (options : InlineOptions) : (inlineConsumer options).Honest := by
  apply Consumer.honest_of_claims
  intro ctx token hfront
  by_cases hpassed : (ctx.line options).2.position = 0
  · exact .inl (if_pos hpassed)
  · refine .inr ⟨ctx.pastLine options, if_neg hpassed, ?_, rfl⟩
    have hpos := Context.remaining_pos hfront
    show (ctx.queue.drop (ctx.line options).2.position).length < ctx.queue.length
    simp only [Context.remaining] at hpos
    rw [List.length_drop]
    omega

theorem lineBreakConsumer_honest : lineBreakConsumer.Honest := by
  apply Consumer.honest_of_claims
  intro ctx token hfront
  by_cases hkind : token.kind = .newline
  · refine .inr ⟨(ctx.advance 1).append ⟨.softBreak, token.span, []⟩, if_pos hkind, ?_, rfl⟩
    have hpos := Context.remaining_pos hfront
    show (ctx.queue.drop 1).length < ctx.queue.length
    simp only [Context.remaining] at hpos
    rw [List.length_drop]
    omega
  · exact .inl (if_neg hkind)

theorem markdown_honest (options : InlineOptions) : (markdown options).consumers.Honest := by
  have hconsumers : (markdown options).consumers.consumers =
      [inlineConsumer options, lineBreakConsumer] := rfl
  intro consumer hmem
  rw [hconsumers, List.mem_cons, List.mem_singleton] at hmem
  rcases hmem with rfl | rfl
  · exact inlineConsumer_honest options
  · exact lineBreakConsumer_honest

/-! ### Every token is claimed -/

/-- Tokens in front of which no end of the input stands. -/
theorem EofFree.of_taken {queue taken : List (Token Kind)} {n : Nat}
    (h : queue = taken ++ queue.drop n) (hfree : EofFree queue.toArray 0 n) :
    ∀ token ∈ taken, token.isEof = false := by
  intro token htoken
  obtain ⟨i, hi⟩ := List.getElem?_of_mem htoken
  have hlt : i < taken.length := (List.getElem?_eq_some_iff.1 hi).1
  have hlength := congrArg List.length h
  rw [List.length_append, List.length_drop] at hlength
  have hqueue : queue[i]? = some token := by
    rw [h, List.getElem?_append_left hlt]
    exact hi
  exact hfree i (Nat.zero_le i) (by omega) token (by simpa using hqueue)

/-- A token that is offered is claimed, and no end of the input is taken with it. -/
theorem markdown_claims (options : InlineOptions) (hfront : ctx.front? = some token)
    (heof : token.isEof = false) :
    ((markdown options).consumers.ask ctx token).answer.isSome = true ∧
      ∀ t ∈ ((markdown options).consumers.ask ctx token).taken, t.isEof = false := by
  obtain ⟨rest, hqueue⟩ := List.head?_eq_some_iff.1 hfront
  have hfair := (markdown_honest options).fair hfront
  obtain ⟨name, ctx', n, hoffer, hrest, hfree⟩ : ∃ name ctx' n,
      (markdown options).consumers.offer ctx token = (some name, ctx') ∧
        ctx'.queue = ctx.queue.drop n ∧ EofFree ctx.queue.toArray 0 n := by
    by_cases hkind : token.kind = .newline
    · obtain ⟨ctx', hoffer, hrest, -, -⟩ := offer_newline options hqueue hkind
      have hfirst : ctx.queue.toArray[0]? = some token := by simp [hqueue]
      exact ⟨_, ctx', 1, hoffer, by rw [hrest, hqueue]; rfl, .succ hfirst heof⟩
    · obtain ⟨ctx', hoffer, hrest, -, -⟩ := offer_inline options hqueue heof hkind
      exact ⟨_, ctx', _, hoffer, hrest, line_eofFree ctx options⟩
  have hask : (markdown options).consumers.ask ctx token = ⟨ctx, token, some name, ctx'⟩ := by
    rw [Registry.ask, hoffer]
  rw [hask] at hfair ⊢
  obtain ⟨htaken, -⟩ := hfair.claimed rfl
  rw [hrest] at htaken
  exact ⟨rfl, hfree.of_taken htaken⟩

/-! ### Runs -/

/-- A run of Markdown's consumers over any tokens ends at the first end of the input, and
records nothing. -/
theorem markdown_run (options : InlineOptions) (ctx : Context Kind Node) :
    ∃ offers, (markdown options).consumers.Runs none ctx offers .finished
        ((markdown options).consumers.drive ctx) ∧
      ((markdown options).consumers.drive ctx).diagnostics = ctx.diagnostics ∧
      ((markdown options).consumers.drive ctx).queue = ctx.queue.dropWhile (!·.isEof) := by
  obtain ⟨offers, stop, hrun⟩ := (markdown options).consumers.drive_runs ctx
  obtain ⟨rfl, haccounted⟩ := hrun.accounted (markdown_honest options) (by simp)
  have hclaims : ∀ offer ∈ offers, offer.answer.isSome = true ∧
      ∀ token ∈ offer.taken, token.isEof = false := by
    intro offer hoffer
    obtain ⟨hask, hfront, heof⟩ := hrun.offered offer hoffer
    rw [hask]
    exact markdown_claims options hfront heof
  have hquiet : offers.flatMap Offer.records = [] := by
    rw [List.flatMap_eq_nil_iff]
    exact fun offer hoffer => if_pos (hclaims offer hoffer).1
  refine ⟨offers, hrun, ?_, haccounted.stops hrun.atEnd fun offer hoffer => (hclaims offer hoffer).2⟩
  have hdiagnostics := haccounted.diagnostics
  rw [hquiet, List.append_nil] at hdiagnostics
  exact Array.toList_inj.1 hdiagnostics

/-- There is nothing to be said against any source. -/
theorem diagnostics_parseMarkdown (source : List Char) (options : InlineOptions) :
    (parseMarkdown source options).diagnostics = [] := by
  obtain ⟨_, -, hdiagnostics, -⟩ :=
    markdown_run options { queue := tokenize source, node := Node.emptyDocument }
  exact congrArg Array.toList hdiagnostics

/-- Up to the end of the input the tokens of a source are left behind. -/
theorem dropWhile_tokenize (source : List Char) :
    (tokenize source).dropWhile (!·.isEof) =
      [⟨.eof, [], Span.point (Position.advance {} source)⟩] := by
  obtain ⟨body, htokens, hbody⟩ := tokenize_eq source
  rw [htokens]
  apply dropWhile_isEof
  · intro token htoken
    simpa [Token.isEof, TokenKind.isEof] using (hbody token htoken).1
  · intro token htoken
    obtain rfl := Option.some.inj htoken
    rfl

/-- Markdown never reports anything, whatever is switched off: every parse of a source
ends in front of the end of the input, and a run over any other tokens ends at the first
token of that kind or behind all tokens. -/
theorem markdown_clean (options : InlineOptions) :
    (∀ source : List Char,
      (parseMarkdown source options).diagnostics = [] ∧
        ((markdown options).consumers.drive
            { queue := tokenize source, node := Node.emptyDocument }).queue =
          [⟨.eof, [], Span.point (Position.advance {} source)⟩]) ∧
      ∀ (tokens : List (Token Kind)) (root : Node),
        ∃ offers, (markdown options).consumers.Runs none { queue := tokens, node := root } offers
            .finished ((markdown options).consumers.drive { queue := tokens, node := root }) ∧
          ((markdown options).consumers.drive { queue := tokens, node := root }).diagnostics = #[] ∧
          ((markdown options).consumers.drive { queue := tokens, node := root }).queue =
            tokens.dropWhile (!·.isEof) := by
  refine ⟨fun source => ?_, fun tokens root => markdown_run options _⟩
  obtain ⟨_, -, hdiagnostics, hqueue⟩ :=
    markdown_run options { queue := tokenize source, node := Node.emptyDocument }
  exact ⟨congrArg Array.toList hdiagnostics, hqueue.trans (dropWhile_tokenize source)⟩

end InlineMarkdown
