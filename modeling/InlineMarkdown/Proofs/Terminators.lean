import InlineMarkdown.Proofs.Cuts
import InlineMarkdown.Proofs.Endings
import InlineMarkdown.Proofs.Texts

/-! Line ends in a source.

A line ends with a line feed, or with a carriage return in front of one. Where a line end lies is
decided by the lexeme in which it starts: a line feed is in no other lexeme than a line end, a tag
or a block (`Scanned.feed_kind`), and tags and blocks have angle brackets at both ends. A lexeme
that stops between the two characters of a line end is an unclosed comment (`Scanned.return_kind`),
because every other construct ends with the character that closes it. -/
namespace InlineMarkdown

variable {source before ending : List Char}

/-! ### Line ends -/

/-- The source has this line end behind `before`. -/
inductive LineEnd (source before : List Char) : (ending : List Char) → Prop
  | feed {after : List Char} : source = before ++ '\n' :: after →
      before.getLast? ≠ some '\r' → LineEnd source before ['\n']
  | crlf {after : List Char} : source = before ++ '\r' :: '\n' :: after →
      LineEnd source before ['\r', '\n']

/-- The kinds of what may run over line ends. -/
def Kind.isMultiline (kind : Kind) : Bool := kind == .htmlTag || kind == .htmlBlock

/-- The line end is a token of its own, or lies within a tag or block that starts in front of it
and stops behind it. -/
def KeptWhole (source before ending : List Char) : Prop :=
  ⟨.newline, ending, placeBehind before ending⟩ ∈ tokenize source ∨
    ∃ token ∈ tokenize source, token.kind.isMultiline = true ∧
      token.span.start.offset < byteLength before ∧
      byteLength (before ++ ending) < token.span.stop.offset

instance (source before ending : List Char) : Decidable (KeptWhole source before ending) :=
  inferInstanceAs (Decidable (_ ∨ _))

/-- The token is an unclosed comment that stops between the characters of the line end. -/
def Token.Cuts (before ending : List Char) (token : Token Kind) : Prop :=
  token.kind = .htmlUnclosedBlock ∧ byteLength before < token.span.stop.offset ∧
    token.span.stop.offset < byteLength (before ++ ending)

instance (before ending : List Char) (token : Token Kind) : Decidable (token.Cuts before ending) :=
  inferInstanceAs (Decidable (_ ∧ _))

/-! ### Lexemes with line ends -/

section Scanned
variable {last : Option Char} {c : Char} {rest : List Char} {kind : Kind} {length : Nat}

/-- The kind of a line end is that of line ends. -/
theorem Scanned.newline_cases (h : Scanned last c rest kind length) (hkind : kind = .newline) :
    (c :: rest).take length = ['\n'] ∨ (c :: rest).take length = ['\r', '\n'] := by
  cases h with
  | single hchar =>
    rw [hkind] at hchar
    exact absurd (isFixed_of_ofChar? hchar) nofun
  | newline hc => exact .inl (by rw [hc]; rfl)
  | crlf hcrlf =>
    obtain ⟨behind, htext⟩ := startsCrlf_iff.1 hcrlf
    exact .inr (by rw [← htext]; rfl)
  | html _ _ _ hhtml =>
    rw [hkind] at hhtml
    simp at hhtml
  | _ => cases hkind

/-- Tags and blocks stand between angle brackets. -/
theorem Scanned.brackets (h : Scanned last c rest kind length) (hkind : kind.isMultiline = true) :
    c = '<' ∧ ((c :: rest).take length).getLast? = some '>' := by
  cases h with
  | single hchar =>
    have hfixed := isFixed_of_ofChar? hchar
    cases kind <;> simp [Kind.isMultiline, Kind.isFixed] at hkind hfixed
  | html hc hlink hangle _ =>
    refine ⟨hc, ?_⟩
    rcases angle?_html hlink hangle with ⟨-, hfound⟩ | ⟨hunclosed, -⟩ | ⟨-, hfound⟩
    · exact htmlBlock?_closedBy _ _ hfound
    · rw [hunclosed] at hkind
      cases hkind
    · exact htmlTag?_closedBy _ _ hfound
  | _ => cases hkind

theorem not_mem_single {d : Char} (h : c ≠ d) : d ∉ (c :: rest).take 1 := by
  simpa using h.symm

/-- A line feed is in no other lexeme than a line end, a tag or a block. -/
theorem Scanned.feed_kind (h : Scanned last c rest kind length)
    (hfeed : '\n' ∈ (c :: rest).take length) : kind = .newline ∨ kind.isMultiline = true := by
  have hsingle (hlength : length = 1) (hc : c ≠ '\n') :
      kind = .newline ∨ kind.isMultiline = true := by
    rw [hlength] at hfeed
    exact absurd hfeed (not_mem_single hc)
  cases h with
  | single hchar => exact hsingle rfl (by rintro rfl; cases hchar)
  | newline | crlf => exact .inl rfl
  | escape hc hpunctuation =>
    cases rest with
    | nil => cases hpunctuation
    | cons d rest =>
      obtain rfl : '\n' = d := by simpa [hc] using hfeed
      cases hpunctuation
  | backslash hc | «at» hc | dollar hc | angle hc | ampersand hc =>
    exact hsingle rfl (by rw [hc]; decide)
  | code _ hfound => exact absurd hfeed (codeSpan?_lineBound.not_mem codeSpan?_within hfound)
  | backticks =>
    rw [(runLength_spec backtick (c :: rest)).1] at hfeed
    exact absurd (List.eq_of_mem_replicate hfeed) (by decide)
  | formula _ hfound => exact absurd hfeed (formula?_lineBound.not_mem formula?_within hfound)
  | autolink _ hfound => exact absurd hfeed (autolink?_lineBound.not_mem autolink?_within hfound)
  | html _ hlink hangle _ =>
    rcases angle?_html hlink hangle with ⟨hblock, -⟩ | ⟨-, hfound⟩ | ⟨htag, -⟩
    · exact .inr (by rw [hblock]; rfl)
    · exact absurd hfeed (htmlUnclosed?_lineBound.not_mem htmlUnclosed?_within hfound)
    · exact .inr (by rw [htag]; rfl)
  | reference _ hfound =>
    exact absurd hfeed (characterReference?_lineBound.not_mem characterReference?_within hfound)
  | url hfound =>
    exact absurd hfeed
      (url?_lineBound.not_mem url?_within (urlBehind?_eq_some.1 hfound).2)
  | run hspecial hcrlf hurl =>
    obtain ⟨front, behind, hsplit⟩ := List.append_of_mem hfeed
    have hinside := (isRun_of_scanned hspecial hcrlf hurl).inside hsplit (List.cons_ne_nil _ _)
    cases hinside

/-- A lexeme that stops between the characters of a line end is an unclosed comment. -/
theorem Scanned.return_kind (h : Scanned last c rest kind length)
    (hreturn : ((c :: rest).take length).getLast? = some '\r')
    (hfeed : ((c :: rest).drop length).head? = some '\n') : kind = .htmlUnclosedBlock := by
  have hclosed (d : Char) (hlast : ((c :: rest).take length).getLast? = some d) (hd : d ≠ '\r') :
      kind = .htmlUnclosedBlock := absurd (Option.some.inj (hlast.symm.trans hreturn)) hd
  cases h with
  | single hchar =>
    obtain rfl : c = '\r' := Option.some.inj hreturn
    cases hchar
  | newline hc | backslash hc | «at» hc | dollar hc | angle hc | ampersand hc =>
    exact hclosed c rfl (by rw [hc]; decide)
  | crlf hcrlf =>
    obtain ⟨behind, htext⟩ := startsCrlf_iff.1 hcrlf
    exact hclosed '\n' (by rw [← htext]; rfl) (by decide)
  | escape hc hpunctuation =>
    cases rest with
    | nil => cases hpunctuation
    | cons d rest =>
      refine hclosed d rfl ?_
      rintro rfl
      cases hpunctuation
  | code _ hfound => exact hclosed _ (codeSpan?_closedBy _ _ hfound) (by decide)
  | backticks hc =>
    have hlast := List.mem_of_getLast? hreturn
    rw [(runLength_spec backtick (c :: rest)).1] at hlast
    exact absurd (List.eq_of_mem_replicate hlast) (by decide)
  | formula _ hfound => exact hclosed _ (formula?_closedBy _ _ hfound) (by decide)
  | autolink _ hfound => exact hclosed _ (autolink?_closedBy _ _ hfound) (by decide)
  | html _ hlink hangle _ =>
    rcases angle?_html hlink hangle with ⟨-, hfound⟩ | ⟨hunclosed, -⟩ | ⟨-, hfound⟩
    · exact hclosed _ (htmlBlock?_closedBy _ _ hfound) (by decide)
    · exact hunclosed
    · exact hclosed _ (htmlTag?_closedBy _ _ hfound) (by decide)
  | reference _ hfound => exact hclosed _ (characterReference?_closedBy _ _ hfound) (by decide)
  | url hfound =>
    have haddress := isBareAddress_of_url? (urlBehind?_eq_some.1 hfound).2
    generalize (c :: rest).take length = raw at haddress hclosed
    obtain ⟨-, -, hlast, -⟩ := haddress
    refine hclosed _ List.getLast?_concat ?_
    rintro rfl
    cases hlast
  | run hspecial hcrlf hurl =>
    -- Behind the carriage return the run would have gone on with the line feed.
    obtain ⟨front, hsplit⟩ := List.getLast?_eq_some_iff.1 hreturn
    obtain ⟨behind, hbehind⟩ := List.head?_eq_some_iff.1 hfeed
    have hinside := (isRun_of_scanned hspecial hcrlf hurl).inside hsplit (List.cons_ne_nil _ _)
    rw [hbehind] at hinside
    simp [endsRun, startsCrlf, after?] at hinside

end Scanned

/-! ### Line ends between cuts -/

section Between
variable {front left right tail : List Char} {lexeme : Lexeme}

/-- Every line feed belongs to a line end. -/
theorem exists_lineEnd {after : List Char} (h : source = before ++ '\n' :: after) :
    ∃ front ending, LineEnd source front ending ∧ front ++ ending = before ++ ['\n'] := by
  by_cases hreturn : before.getLast? = some '\r'
  · obtain ⟨front, rfl⟩ := List.getLast?_eq_some_iff.1 hreturn
    exact ⟨front, _, .crlf (h.trans (List.append_assoc ..)), by simp⟩
  · exact ⟨before, _, .feed h hreturn, rfl⟩

/-- The slice of a line end has nothing around the line end. -/
theorem LineEnd.around_eq_nil (h : LineEnd source (front ++ left) ending)
    (hraw : left ++ ending ++ right = ['\n'] ∨ left ++ ending ++ right = ['\r', '\n']) :
    left = [] ∧ right = [] := by
  cases h with
  | crlf =>
    have hlength : left.length + right.length = 0 := by
      rcases hraw with hraw | hraw <;>
        · have := congrArg List.length hraw
          simp only [List.length_append, List.length_cons, List.length_nil] at this
          omega
    exact ⟨List.eq_nil_of_length_eq_zero (by omega), List.eq_nil_of_length_eq_zero (by omega)⟩
  | feed _ hreturn =>
    rcases hraw with hraw | hraw
    · simpa [List.append_eq_cons_iff] using hraw
    · cases left with
      | nil => cases hraw
      | cons c left =>
        obtain ⟨rfl, hraw⟩ := List.cons.inj hraw
        obtain ⟨rfl, rfl⟩ : left = [] ∧ right = [] := by
          simpa [List.append_eq_cons_iff] using hraw
        exact absurd List.getLast?_concat hreturn

theorem byteLength_lt_append (text : List Char) {more : List Char} (h : more ≠ []) :
    byteLength text < byteLength (text ++ more) := by
  have hpos := mt eq_nil_of_byteLength_eq_zero h
  rw [byteLength_append]
  omega

/-- A line end that lies in one lexeme is kept whole. -/
theorem LineEnd.keptWhole (h : LineEnd source (front ++ left) ending)
    (hbetween : Between source front lexeme tail) (hraw : lexeme.raw = left ++ ending ++ right) :
    KeptWhole source (front ++ left) ending := by
  obtain ⟨c, rest, length, htext, htake, -, hscanned⟩ := hbetween.scanned
  rw [hraw] at htake
  have hfeed : '\n' ∈ (c :: rest).take length := by
    rw [htake]
    cases h <;> simp
  rcases hscanned.feed_kind hfeed with hkind | hkind
  · have hwhole := hscanned.newline_cases hkind
    rw [htake] at hwhole
    obtain ⟨rfl, rfl⟩ := h.around_eq_nil hwhole
    obtain ⟨kind, raw⟩ := lexeme
    dsimp only at hkind hraw
    rw [List.append_nil] at hraw h ⊢
    subst hkind hraw
    have hmem := hbetween.mem_tokenize
    cases h <;> exact .inl hmem
  · obtain ⟨rfl, hlast⟩ := hscanned.brackets hkind
    rw [htake] at hlast
    have hleft : left ≠ [] := by
      rintro rfl
      rw [hraw] at htext
      cases h <;> cases htext
    have hright : right ≠ [] := by
      rintro rfl
      cases h <;> simp at hlast
    refine .inr ⟨_, hbetween.mem_tokenize, hkind, ?_, ?_⟩
    · rw [lexeme.start_tokenBehind]
      exact byteLength_lt_append front hleft
    · rw [lexeme.stop_tokenBehind, hraw, ← List.append_assoc, ← List.append_assoc]
      exact byteLength_lt_append _ hright

/-- A line end is kept whole, or it is a line feed behind an unclosed comment. -/
theorem LineEnd.kept_or_behind (h : LineEnd source before ending) :
    KeptWhole source before ending ∨ ending = ['\r', '\n'] ∧
      ∃ front lexeme behind, front ++ lexeme.raw = before ++ ['\r'] ∧
        lexeme.kind = .htmlUnclosedBlock ∧ Between source front lexeme ('\n' :: behind) := by
  cases h with
  | feed hsource hreturn =>
    obtain ⟨front, lexeme, tail, left, right, hbetween, rfl, hraw, -⟩ := exists_between_at hsource
    exact .inl ((LineEnd.feed hsource hreturn).keptWhole hbetween (by simpa using hraw))
  | crlf hsource =>
    obtain ⟨front, lexeme, tail, left, right, hbetween, rfl, hraw, hafter⟩ :=
      exists_between_at hsource
    cases right with
    | cons d right =>
      obtain ⟨rfl, -⟩ := List.cons.inj hafter
      exact .inl ((LineEnd.crlf hsource).keptWhole hbetween (by simpa using hraw))
    | nil =>
      obtain ⟨c, rest, length, -, htake, hdrop, hscanned⟩ := hbetween.scanned
      obtain rfl : _ = tail := hafter
      have hkind : lexeme.kind = .htmlUnclosedBlock :=
        hscanned.return_kind (by rw [htake, hraw, List.getLast?_concat]) (by rw [hdrop]; rfl)
      exact .inr ⟨rfl, front, lexeme, _, by rw [hraw, List.append_assoc], hkind, hbetween⟩

end Between

/-! ### Tokens and line ends -/

section Tokens
variable {token other : Token Kind}

/-- Two tokens are one, or lie apart. -/
theorem eq_or_misses (h : token ∈ tokenize source) (hother : other ∈ tokenize source) :
    token = other ∨ other.span.misses token = true := by
  obtain ⟨p, hp⟩ := List.getElem?_of_mem h
  obtain ⟨m, hm⟩ := List.getElem?_of_mem hother
  have hspan := (tokenize_getElem? hm).1
  by_cases heq : p = m
  · exact .inl (Option.some.inj (hp.symm.trans (heq ▸ hm)))
  · exact .inr ((holds_or_misses (congrArg Span.start hspan) (congrArg Span.stop hspan) hp).2
      (by omega))

/-- Every token but the end of the input has an extent. -/
theorem extent (h : token ∈ tokenize source) :
    token.span.start.offset < token.span.stop.offset ∨
      token.span.start.offset = byteLength source ∧ token.span.stop.offset = byteLength source := by
  cases heof : token.isEof with
  | false =>
    obtain ⟨front, lexeme, tail, hbetween, rfl⟩ := exists_between_of_mem h heof
    rw [lexeme.start_tokenBehind, lexeme.stop_tokenBehind]
    exact .inl (byteLength_lt_append front hbetween.readAs.ne_nil)
  | true =>
    obtain ⟨body, htokens, hbody⟩ := tokenize_eq source
    rw [htokens] at h
    rcases List.mem_append.1 h with h | h
    · exact absurd (by simpa [Token.isEof, TokenKind.isEof] using heof) (hbody token h).1
    · obtain rfl := List.mem_singleton.1 h
      simp [Span.point]

theorem misses_placeBehind : (placeBehind before ending).misses token = true ↔
    token.span.stop.offset ≤ byteLength before ∨
      byteLength (before ++ ending) ≤ token.span.start.offset := by
  simp [placeBehind, Span.covering, Span.misses]

/-- No other token has a part in a line end that is kept whole. -/
theorem KeptWhole.misses (h : KeptWhole source before ending) (htoken : token ∈ tokenize source)
    (hnewline : token.kind ≠ .newline) (hkind : token.kind.isMultiline = false) :
    (placeBehind before ending).misses token = true := by
  rcases h with h | ⟨other, hother, hmultiline, hstart, hstop⟩
  · rcases eq_or_misses htoken h with rfl | hmisses
    · exact absurd rfl hnewline
    · exact hmisses
  · rcases eq_or_misses htoken hother with rfl | hmisses
    · exact absurd (hmultiline.symm.trans hkind) nofun
    · simp only [Span.misses, Bool.or_eq_true, decide_eq_true_eq] at hmisses
      rw [misses_placeBehind]
      omega

theorem KeptWhole.not_cuts (h : KeptWhole source before ending) (htoken : token ∈ tokenize source) :
    ¬ token.Cuts before ending := by
  rintro ⟨hkind, hbehind, hfront⟩
  have hmisses := misses_placeBehind.1
    (h.misses htoken (by rw [hkind]; nofun) (by rw [hkind]; rfl))
  have hextent := extent htoken
  omega

/-- A comment that takes the carriage return of a line end stops inside the line end, and nothing
but the comment and the line feed behind it has a part in that. -/
theorem cut_behind {front behind : List Char} {lexeme : Lexeme}
    (hsplit : front ++ lexeme.raw = before ++ ['\r']) (hkind : lexeme.kind = .htmlUnclosedBlock)
    (hbetween : Between source front lexeme ('\n' :: behind)) :
    (lexeme.tokenBehind front).Cuts before ['\r', '\n'] ∧
      ∀ token ∈ tokenize source, token.kind ≠ .newline → token ≠ lexeme.tokenBehind front →
        (placeBehind before ['\r', '\n']).misses token = true := by
  have hreturn : byteLength (before ++ ['\r']) = byteLength before + 1 := byteLength_append ..
  have hplace : byteLength (before ++ ['\r', '\n']) = byteLength before + 2 := byteLength_append ..
  have hstop := lexeme.stop_tokenBehind front
  rw [hsplit, hreturn] at hstop
  refine ⟨⟨hkind, by omega, by omega⟩, fun token htoken hnewline hother => ?_⟩
  have hcomment := misses_placeBehind.1
    ((eq_or_misses htoken hbetween.mem_tokenize).resolve_left hother)
  have hfeed : (placeBehind (before ++ ['\r']) ['\n']).misses token = true := by
    rw [← hsplit]
    refine (eq_or_misses htoken
      (hbetween.ends.between (readAs_newline behind)).mem_tokenize).resolve_left ?_
    rintro rfl
    exact hnewline rfl
  have hfront := byteLength_lt_append front hbetween.readAs.ne_nil
  have hsource := congrArg byteLength hbetween.ends.source_eq
  have hend := byteLength_lt_append [] (List.cons_ne_nil '\n' behind)
  rw [hsplit, hreturn] at hcomment hfront
  rw [hsplit, byteLength_append, hreturn] at hsource
  rw [misses_placeBehind, List.append_assoc, List.singleton_append] at hfeed
  rw [List.nil_append, byteLength_nil] at hend
  -- Only a token without extent would fit between the comment and the line feed.
  have hextent := extent htoken
  refine misses_placeBehind.2 ?_
  omega

end Tokens

/-- Line ends are kept whole, except where an unclosed comment takes the carriage return of one:
every line feed belongs to a line end, and a line end is a token of its own or lies within a tag or
a block unless an unclosed comment stops between its two characters. No other token but that comment
has a part in a line end. -/
theorem tokenize_lineEnds (source : List Char) :
    (∀ before after, source = before ++ '\n' :: after →
      ∃ front ending, LineEnd source front ending ∧ front ++ ending = before ++ ['\n']) ∧
    ∀ before ending, LineEnd source before ending →
      (KeptWhole source before ending ↔ ∀ token ∈ tokenize source, ¬ token.Cuts before ending) ∧
      ∀ token ∈ tokenize source, token.kind ≠ .newline → token.kind.isMultiline = false →
        (placeBehind before ending).misses token = true ∨ token.Cuts before ending := by
  refine ⟨fun before after hsource => exists_lineEnd hsource, fun before ending hending => ?_⟩
  rcases hending.kept_or_behind with hkept | ⟨rfl, front, lexeme, behind, hsplit, hkind, hbetween⟩
  · exact ⟨⟨fun _ token htoken => hkept.not_cuts htoken, fun _ => hkept⟩,
      fun token htoken hnewline hmultiline => .inl (hkept.misses htoken hnewline hmultiline)⟩
  · have hcomment := hbetween.mem_tokenize
    obtain ⟨hcuts, hmisses⟩ := cut_behind hsplit hkind hbetween
    refine ⟨⟨fun hkept => absurd hcuts (hkept.not_cuts hcomment),
      fun huncut => absurd hcuts (huncut _ hcomment)⟩, fun token htoken hnewline _ => ?_⟩
    by_cases hother : token = lexeme.tokenBehind front
    · exact .inr (hother ▸ hcuts)
    · exact .inl (hmisses token htoken hnewline hother)

/-- Behind a block that holds a line end. -/
theorem tokenize_lineEnds_declaration :
    LineEnd "<!A\r\n>\r\n".toList "<!A\r\n>".toList ['\r', '\n'] ∧
      KeptWhole "<!A\r\n>\r\n".toList "<!A\r\n>".toList ['\r', '\n'] :=
  ⟨.crlf rfl, ((tokenize_lineEnds _).2 _ _ (.crlf rfl)).1.2 (by decide)⟩

/-- The comment takes the carriage return, and the line end that is left is the line feed alone. -/
theorem not_keptWhole_comment :
    LineEnd "<!--\r\n".toList "<!--".toList ['\r', '\n'] ∧
      ¬ KeptWhole "<!--\r\n".toList "<!--".toList ['\r', '\n'] ∧
      (tokenize "<!--\r\n".toList).map (fun token => (token.kind, token.text)) =
        [(.htmlUnclosedBlock, "<!--\r".toList), (.newline, ['\n']), (.eof, [])] :=
  ⟨.crlf rfl, by decide, by decide⟩

end InlineMarkdown
