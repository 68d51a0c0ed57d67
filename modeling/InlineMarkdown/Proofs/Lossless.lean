import InlineMarkdown.Proofs.Layout

/-! The tokenizer loses nothing.

Every lexeme was scanned where its slice starts (`exists_scan`), so it has a character and
ends within the source, and it says something else than its slice only if it is an escape
(`Token.Reads`). Laid end to end from the start, the lexemes read the source
(`lexemes_raw`), and behind the last of them stands the token that ends the input. -/
namespace InlineMarkdown

/-! ### Slices of lexemes -/

section Lexemes
variable {source : List Char} {lexeme : Lexeme}

theorem raw_ne_nil (h : lexeme ∈ lexemes source) : lexeme.raw ≠ [] := by
  obtain ⟨before, c, rest, -, -, hraw⟩ := exists_scan h
  obtain ⟨hpos, -⟩ := (scan_spec before c rest).1
  rw [hraw]
  intro hnil
  rw [List.take_eq_nil_iff] at hnil
  rcases hnil with hzero | hnil
  · omega
  · cases hnil

/-- What starts with a backslash is text. -/
theorem kind_of_backslash (h : lexeme ∈ lexemes source) (hhead : lexeme.raw.head? = some '\\') :
    lexeme.kind = .text := by
  obtain ⟨before, c, rest, -, hkind, hraw⟩ := exists_scan h
  obtain ⟨hpos, -⟩ := (scan_spec before c rest).1
  obtain ⟨n, hn⟩ : ∃ n, (scan before c rest).2 = n + 1 := ⟨(scan before c rest).2 - 1, by omega⟩
  rw [hraw, hn, List.take_succ_cons, List.head?_cons] at hhead
  obtain rfl := Option.some.inj hhead
  rw [hkind]
  simp [scan, Kind.ofChar?, startsCrlf, after?]

end Lexemes

/-- What a lexeme says is its slice, unless that is an escape. -/
theorem Lexeme.text_cases (lexeme : Lexeme) :
    (∃ c, isPunctuation c = true ∧ lexeme.raw = ['\\', c] ∧ lexeme.text = [c]) ∨
      ((∀ c, isPunctuation c = true → lexeme.raw ≠ ['\\', c]) ∧ lexeme.text = lexeme.raw) := by
  unfold text
  split
  · rename_i c hraw
    split
    · rename_i hpunctuation
      exact .inl ⟨c, hpunctuation, hraw, rfl⟩
    · rename_i hplain
      refine .inr ⟨fun d hd hescape => hplain ?_, rfl⟩
      obtain rfl : c = d := by simpa using hraw.symm.trans hescape
      exact hd
  · rename_i hother
    exact .inr ⟨fun c _ hescape => hother c hescape, rfl⟩

/-! ### Tokens -/

/-- The token covers a slice of the source and says what stands there, or what an escape
makes of it. -/
def Token.Reads (source : List Char) (token : Token Kind) : Prop :=
  ∃ raw, raw ≠ [] ∧ Slice source token.span.start token.span.stop raw ∧
    ((∃ c, isPunctuation c = true ∧ raw = ['\\', c] ∧ token.kind = .text ∧ token.text = [c]) ∨
      ((∀ c, isPunctuation c = true → raw ≠ ['\\', c]) ∧ token.text = raw))

/-- Placed lexemes are tokens that cover their slices, and the end of the input. -/
theorem place_eq (start : Position) (pieces : List Lexeme) :
    ∃ body, place start pieces =
        body ++ [⟨.eof, [], Span.point (start.advance (pieces.flatMap (·.raw)))⟩] ∧
      ∀ token ∈ body, ∃ front lexeme behind, pieces = front ++ lexeme :: behind ∧
        token = ⟨lexeme.kind, lexeme.text,
          Span.covering (start.advance (front.flatMap (·.raw))) lexeme.raw⟩ := by
  induction pieces generalizing start with
  | nil => exact ⟨[], rfl, fun _ htoken => absurd htoken List.not_mem_nil⟩
  | cons lexeme rest ih =>
    obtain ⟨body, hplace, hbody⟩ := ih (start.advance lexeme.raw)
    refine ⟨⟨lexeme.kind, lexeme.text, ⟨start, start.advance lexeme.raw⟩⟩ :: body, ?_,
      List.forall_mem_cons.2 ⟨⟨[], lexeme, rest, rfl, rfl⟩, fun token htoken => ?_⟩⟩
    · rw [place, hplace, List.flatMap_cons, Position.advance_append]
      rfl
    · obtain ⟨front, other, behind, rfl, rfl⟩ := hbody token htoken
      exact ⟨lexeme :: front, other, behind, rfl, by
        rw [List.flatMap_cons, Position.advance_append]⟩

/-- The end of the input is the last token, and no other. -/
theorem tokenize_eq (source : List Char) :
    ∃ body, tokenize source = body ++ [⟨.eof, [], Span.point (Position.advance {} source)⟩] ∧
      ∀ token ∈ body, token.kind ≠ .eof ∧ token.Reads source := by
  obtain ⟨body, hplace, hbody⟩ := place_eq {} (lexemes source)
  rw [lexemes_raw] at hplace
  refine ⟨body, hplace, fun token htoken => ?_⟩
  obtain ⟨front, lexeme, behind, hsplit, rfl⟩ := hbody token htoken
  have hmem : lexeme ∈ lexemes source := hsplit ▸ by simp
  have hsource : source =
      front.flatMap (·.raw) ++ (lexeme.raw ++ behind.flatMap (·.raw)) := by
    conv => lhs; rw [← lexemes_raw source, hsplit]
    simp
  refine ⟨kind_ne_eof hmem, lexeme.raw, raw_ne_nil hmem, ⟨_, _, hsource, rfl, rfl⟩, ?_⟩
  refine lexeme.text_cases.imp_left fun hescape => ?_
  obtain ⟨c, hpunctuation, hraw, htext⟩ := hescape
  exact ⟨c, hpunctuation, hraw, kind_of_backslash hmem (by rw [hraw]; rfl), htext⟩

/-- The tokenizer is total and loses nothing: what it takes at a time is at least one
character and none that is not there, the tokens cover the source from its start to its
end, each from where the one before it ended, and all of them but the last, which is the
end of the input, say what they cover. -/
theorem tokenize_lossless (source : List Char) :
    (∀ before c rest, Within (c :: rest) (scan before c rest).2) ∧
      (∃ body, tokenize source = body ++ [⟨.eof, [], Span.point (Position.advance {} source)⟩] ∧
        ∀ token ∈ body, token.kind ≠ .eof ∧ token.Reads source) ∧
      (∀ token ∈ (tokenize source).head?, token.span.start = {}) ∧
      (∀ n token next, (tokenize source)[n]? = some token →
        (tokenize source)[n + 1]? = some next → next.span.start = token.span.stop) ∧
      ∀ token ∈ tokenize source,
        token.span.start.Marks source ∧ token.span.stop.Marks source := by
  refine ⟨fun before c rest => (scan_spec before c rest).1, tokenize_eq source, ?_, ?_, ?_⟩
  · intro token htoken
    have hfirst : (tokenize source)[0]? = some token := List.head?_eq_getElem?.symm.trans htoken
    rw [(tokenize_getElem? hfirst).1]
    exact markAt_zero source
  · intro n token next htoken hnext
    rw [(tokenize_getElem? htoken).1, (tokenize_getElem? hnext).1]
  · intro token htoken
    obtain ⟨n, hn⟩ := List.getElem?_of_mem htoken
    have hslice := slice_markAt source (Nat.le_succ n)
    rw [(tokenize_getElem? hn).1]
    exact ⟨hslice.marks_start, hslice.marks_stop⟩

end InlineMarkdown
