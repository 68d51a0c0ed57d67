import InlineMarkdown.Proofs.Normal

/-! Sources of one line.

Without a line feed no token ends a line (`kind_ne_newline`), so that the document is what one
parse makes of all its tokens (`children_of_line`). That is nothing but text if no token is more
than text by itself and no construct at a bracket is closed (`Yields.isText_of_isInert`). Then it
is one text, since no two texts are next to each other, and says what the lexemes say
(`children_of_isText`), which is the source unless there is a backslash in it. -/
namespace InlineMarkdown
open InlineParser

variable {source : List Char} {token : Token Kind}

/-! ### Tokens of a line -/

theorem kind_ne_newline (h : '\n' ∉ source) (hmem : token ∈ tokenize source) :
    token.kind ≠ .newline := by
  intro hkind
  have heof : token.isEof = false := by simp [Token.isEof, TokenKind.isEof, hkind]
  obtain ⟨lexeme, hlexeme, hsame, -⟩ := exists_lexeme hmem heof
  obtain ⟨before, c, rest, length, hsuffix, -, -, hscanned⟩ := exists_scanned hlexeme
  have hfeed : '\n' ∉ c :: rest := fun hfeed => h (hsuffix.mem hfeed)
  rw [← hsame, hkind] at hscanned
  generalize hnewline : Kind.newline = kind at hscanned
  cases hscanned with
  | single hchar =>
    subst hnewline
    unfold Kind.ofChar? at hchar
    split at hchar <;> cases hchar
  | newline hc => exact hfeed (hc ▸ List.mem_cons_self)
  | crlf hcrlf =>
    obtain ⟨behind, hbehind⟩ := Option.isSome_iff_exists.1 hcrlf
    rw [after?_eq_some hbehind] at hfeed
    simp at hfeed
  | html _ _ _ hhtml =>
    rw [← hnewline] at hhtml
    simp at hhtml
  | _ => cases hnewline

theorem mem_of_slice {p q : Position} {text : List Char} (h : Slice source p q text) {c : Char}
    (hc : c ∈ text) : c ∈ source := by
  obtain ⟨before, after, rfl, -⟩ := h
  exact List.mem_append_right before (List.mem_append_left after hc)

/-- Without a backslash no token is an escape, so each says what it covers. -/
theorem reads_of_not_mem (h : '\\' ∉ source) (hmem : token ∈ tokenize source) :
    Slice source token.span.start token.span.stop token.text := by
  obtain ⟨body, htokens, hbody⟩ := tokenize_eq source
  rw [htokens] at hmem
  rcases List.mem_append.1 hmem with hmem | hmem
  · obtain ⟨-, raw, -, hslice, ⟨c, -, rfl, -⟩ | ⟨-, htext⟩⟩ := hbody token hmem
    · exact absurd (mem_of_slice hslice List.mem_cons_self) h
    · rwa [htext]
  · obtain rfl := List.mem_singleton.1 hmem
    exact ⟨source, [], by simp, rfl, rfl⟩

/-- The tokens of the lexemes say what the lexemes say. -/
theorem texts_tokenize (source : List Char) :
    ((tokenize source).take (lexemes source).length).flatMap (·.text) =
      (lexemes source).flatMap Lexeme.text := by
  have hplace (start : Position) (pieces : List Lexeme) :
      ((place start pieces).take pieces.length).flatMap (·.text) = pieces.flatMap Lexeme.text := by
    induction pieces generalizing start with
    | nil => rfl
    | cons lexeme rest ih =>
      simp only [place, List.length_cons, List.take_succ_cons, List.flatMap_cons, ih]
  exact hplace {} (lexemes source)

/-- Without a backslash the lexemes say the source. -/
theorem texts_of_not_mem (h : '\\' ∉ source) : (lexemes source).flatMap Lexeme.text = source :=
  calc (lexemes source).flatMap Lexeme.text = (lexemes source).flatMap (·.raw) := by
        refine List.flatMap_congr fun lexeme hmem => ?_
        rcases lexeme.text_cases with ⟨c, -, hraw, -⟩ | ⟨-, htext⟩
        · have hslash : '\\' ∈ (lexemes source).flatMap (·.raw) :=
            List.mem_flatMap.2 ⟨lexeme, hmem, by simp [hraw]⟩
          rw [lexemes_raw] at hslash
          exact absurd hslash h
        · exact htext
    _ = source := lexemes_raw source

/-! ### Where everything is text -/

/-- A token of this kind is neither a node of its own nor wraps others: if no construct at a
bracket takes it, it is text. -/
def Kind.isInert : Kind → Bool
  | .exclamation | .leftBracket | .rightBracket | .leftParen | .rightParen | .caret | .text
  | .newline | .eof => true
  | _ => false

theorem Leaf.kind_isInert {options : InlineOptions} {node : Node} (h : Leaf options token node) :
    token.kind.isInert = false := by
  have hhtml : ∀ kind ∈ [Kind.htmlTag, .htmlBlock, .htmlUnclosedBlock, .htmlEntity],
      kind.isInert = false := by decide
  cases h with
  | code hkind => simp [hkind, Kind.isInert]
  | formula _ hkind => simp [hkind, Kind.isInert]
  | html _ hkind => exact hhtml _ hkind
  | address _ hkind => rcases hkind with hkind | hkind <;> simp [hkind, Kind.isInert]

theorem mem_toList_of_getElem? {tokens : Array (Token Kind)} {p : Nat} (h : tokens[p]? = some token) :
    token ∈ tokens.toList :=
  Array.mem_toList_iff.2 (Array.mem_of_getElem? h)

/-- Where no token is more than text by itself and no construct at a bracket is closed,
everything is text. -/
theorem Yields.isText_of_isInert {options : InlineOptions} {tokens : Array (Token Kind)}
    {stands : Nat → Position → Prop} {room i k : Nat} {nodes : List Node}
    (h : Yields options tokens stands room i k nodes)
    (hinert : ∀ token ∈ tokens.toList, token.kind.isInert = true)
    (hopen : ∀ {i p q e kind frame content node}, KindAt tokens i kind →
      frame ∈ framesAt options kind → frame.opening.view tokens i = (some (), p) →
        (frame.closing i content).view tokens q ≠ (some node, e)) :
    ∀ node ∈ nodes, node.isText = true := by
  induction h with
  | nil => exact nofun
  | text _ _ _ _ _ _ ih => exact List.forall_mem_cons.2 ⟨rfl, ih⟩
  | leaf htoken hleaf =>
    exact absurd (hinert _ (mem_toList_of_getElem? htoken)) (ne_true_of_eq_false hleaf.kind_isInert)
  | @wrapper _ i _ _ _ _ used marker _ _ _ _ hused hrun =>
    obtain ⟨token, htoken, hkind⟩ :=
      hrun i (Nat.le_refl _) (Nat.lt_add_of_pos_right (Draft.used_pos hused))
    have hmarker := hinert token (mem_toList_of_getElem? htoken)
    rw [hkind] at hmarker
    cases marker <;> cases hmarker
  | bracket hkind hframe hopening _ _ hclosing => exact absurd hclosing (hopen hkind hframe hopening)

/-! ### The document of a line -/

/-- A source without line feeds is one line, which ends at the end of the input. -/
theorem children_of_line (options : InlineOptions) (h : '\n' ∉ source) :
    (parseMarkdown source options).root.children = (lineOf options (tokenize source)).1 ∧
      (lineOf options (tokenize source)).2.position = (lexemes source).length := by
  have hends {token : Token Kind}
      (htoken : token ∈ ((tokenize source).drop (lineOf options (tokenize source)).2.position).head?) :
      token.kind = .eof := by
    have hmem := List.mem_of_mem_drop (List.mem_of_mem_head? htoken)
    rcases List.mem_cons.1 (lineOf_stops options (tokenize source) token htoken) with hnewline | hend
    · exact absurd hnewline (kind_ne_newline h hmem)
    · exact List.mem_singleton.1 hend
  refine ⟨(lines_parseMarkdown source options).eq_lineOf (fun token htoken => ?_)
    (fun token htoken => isEof_iff.2 (hends htoken)), ?_⟩
  · exact kind_ne_newline h (List.mem_of_mem_head? htoken)
  obtain ⟨body, htokens, -⟩ := tokenize_eq source
  have hlength : body.length = (lexemes source).length := by
    have hboth := length_tokenize source
    rw [htokens] at hboth
    simpa using hboth
  -- The line does not pass the end of the input, so there is a token for it to stop at.
  have hle : (lineOf options (tokenize source)).2.position ≤ (lexemes source).length := by
    by_contra hlt
    have hlast : (tokenize source).toArray[(lexemes source).length]? =
        some ⟨.eof, [], Span.point (Position.advance {} source)⟩ := by
      rw [htokens, ← hlength]
      simp
    have hfree := line_eofFree { queue := tokenize source, node := Node.emptyDocument } options
    cases hfree _ (Nat.zero_le _) (Nat.lt_of_not_le hlt) _ hlast
  have hwithin : (lineOf options (tokenize source)).2.position < (tokenize source).length := by
    rw [length_tokenize]
    exact Nat.lt_succ_of_le hle
  have hstop := List.getElem?_eq_getElem hwithin
  refine eq_of_kind_eq_eof hstop (hends ?_)
  rw [List.head?_drop]
  exact hstop

/-- What the steps over a line leave in the draft becomes the document. -/
theorem children_of_steps (options : InlineOptions) (h : '\n' ∉ source) :
    let parser : InlineParser := { options }
    let c : Cursor := { tokens := (tokenize source).toArray }
    (parseMarkdown source options).root.children =
      (parser.steps (parser.inside 64) lineStop c.remaining {} c).1.finish := by
  intro parser c
  have hlevel : lineOf options (tokenize source) = parser.level (parser.inside 64) lineStop c := by
    rw [← parser.atRoom_eq_level 64]
    rfl
  rw [(children_of_line options h).1, hlevel]
  rfl

/-- A line that is nothing but text is one text, or nothing at all. -/
theorem children_of_isText (options : InlineOptions) (hline : '\n' ∉ source)
    (htext : ∀ node ∈ (parseMarkdown source options).root.children, node.isText = true) :
    (parseMarkdown source options).root.children =
      if source = [] then []
      else [Node.ofText ((lexemes source).flatMap Lexeme.text) (Span.covering {} source)] := by
  obtain ⟨hchildren, hposition⟩ := children_of_line options hline
  have hyields := lineOf_yields options source 0
  have hseparate := (lineOf_separate options (tokenize source)).top
  rw [hchildren] at htext ⊢
  rw [List.drop_zero, hposition] at hyields
  generalize (lineOf options (tokenize source)).1 = nodes at hyields htext hseparate
  cases nodes with
  | nil =>
    have hnone : lexemes source = [] := List.length_eq_zero_iff.1 hyields.eq_of_nil.symm
    have hempty : source = [] := by rw [← lexemes_raw source, hnone, List.flatMap_nil]
    rw [if_pos hempty]
  | cons node rest =>
    have hfirst := htext node List.mem_cons_self
    cases rest with
    | cons next rest =>
      have hnext := htext next (List.mem_cons_of_mem _ List.mem_cons_self)
      rcases (apart_cons.1 hseparate).1 next rfl with hother | hother
      · exact absurd hfirst (ne_true_of_eq_false hother)
      · exact absurd hnext (ne_true_of_eq_false hother)
    | nil =>
      obtain ⟨j, hlt, -, -, hstart, hstop, hnode, hrest⟩ := hyields.uncons_text hfirst
      obtain rfl := hrest.eq_of_nil
      rw [Nat.zero_add, markAt_of_le (Nat.le_refl _)] at hstop
      have hne : source ≠ [] := by
        rintro rfl
        exact Nat.lt_irrefl 0 hlt
      have hspan : node.span = Span.covering {} source :=
        calc node.span = ⟨node.span.start, node.span.stop⟩ := rfl
          _ = Span.covering {} source := by
            rw [hstart, hstop]
            rfl
      have hsays : literal ((tokenize source).drop 0).toArray 0 (lexemes source).length =
          (lexemes source).flatMap Lexeme.text :=
        calc literal ((tokenize source).drop 0).toArray 0 (lexemes source).length
            = ((tokenize source).take (lexemes source).length).flatMap (·.text) :=
              List.flatMap_congr fun _ hmem => literal_eq_text (List.mem_of_mem_take hmem)
          _ = (lexemes source).flatMap Lexeme.text := texts_tokenize source
      rw [if_neg hne, hnode, hspan, hsays]

end InlineMarkdown
