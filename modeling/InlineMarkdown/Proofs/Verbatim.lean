import InlineMarkdown.Proofs.Canonical
import InlineMarkdown.Proofs.Line

/-! Escaped text, read as that text.

Not every special character is escaped: parentheses, the caret and the at sign stay as they
are. Each of them is a lexeme of its own or an ordinary text (`lexemes_escapeText`), and as no
opening bracket and no exclamation mark is left, no construct is begun in which they could have a
part. So the line is nothing but text, which the lexemes say again piece by piece. An address is
the one thing that could begin in the middle of a word, and no escape would keep it from that. -/
namespace InlineMarkdown

variable {text : List Char}

/-- The lexemes of an escaped text are textual and say the text. -/
theorem lexemes_escapeText (hline : '\n' ∉ text) {before : Option Char}
    (hback : isReadBack false [] 0 before text = true) :
    (∀ lexeme ∈ lexemesBehind before (escapeText text), lexeme.kind.isTextual = true) ∧
      (lexemesBehind before (escapeText text)).flatMap Lexeme.text = text := by
  generalize hlength : text.length = length
  induction length using Nat.strong_induction_on generalizing text before with
  | _ length ih =>
    by_cases hne : text = []
    · subst hne
      exact ⟨nofun, rfl⟩
    obtain ⟨lexeme, rest, hpiece⟩ := exists_piece hne (ends_of_special (by simp) _) (by simp) hback
    have hbehind : '\n' ∉ rest := fun hmem =>
      hline (hpiece.text_eq ▸ List.mem_append_right lexeme.text hmem)
    have hkind : lexeme.kind.isTextual = true := by
      rcases hpiece.kind_cases with hkind | ⟨-, hfeed⟩ | ⟨-, haddress, -⟩
      · exact hkind
      · exact absurd (hpiece.text_eq ▸ List.mem_append_left rest hfeed) hline
      · cases haddress
    have hback' : isReadBack false [] 0 lexeme.raw.getLast? rest = true := by
      rw [hpiece.last]
      exact hpiece.back
    obtain ⟨hkinds, htexts⟩ := ih rest.length (hlength ▸ hpiece.length_lt) hbehind hback' rfl
    have hreads := hpiece.readAs.lexemes
    rw [List.append_nil] at hreads
    rw [hpiece.escape_eq, hreads]
    refine ⟨List.forall_mem_cons.2 ⟨hkind, hkinds⟩, ?_⟩
    rw [List.flatMap_cons, htexts]
    exact hpiece.text_eq.symm

/-- The tokens of an escaped text are textual, up to the end of the input. -/
theorem kind_of_escapeText (hline : '\n' ∉ text)
    (hback : isReadBack false [] 0 none text = true) {token : Token Kind}
    (hmem : token ∈ tokenize (escapeText text)) :
    token.kind.isTextual = true ∨ token.kind = .eof := by
  cases heof : token.isEof with
  | true => exact .inr (isEof_iff.1 heof)
  | false =>
    obtain ⟨lexeme, hlexeme, hkind, -⟩ := exists_lexeme hmem heof
    rw [hkind]
    exact .inl ((lexemes_escapeText hline hback).1 lexeme hlexeme)

/-- Nothing is begun at a textual token. -/
theorem framesAt_textual {kind : Kind} (options : InlineOptions)
    (h : kind.isTextual = true ∨ kind = .eof) : InlineParser.framesAt options kind = [] := by
  cases kind <;> first | rfl | simp [Kind.isTextual] at h

theorem newline_not_mem_escapeText (h : '\n' ∉ text) : '\n' ∉ escapeText text := by
  intro hmem
  obtain ⟨c, hc, hwritten⟩ := List.mem_flatMap.1 hmem
  have hfeed : '\n' = c := by
    split at hwritten <;> simpa using hwritten
  exact h (hfeed ▸ hc)

theorem escapeText_ne_nil (h : text ≠ []) : escapeText text ≠ [] := by
  intro hnil
  have hlast := getLast?_escapeText text
  rw [hnil] at hlast
  exact h (List.getLast?_eq_none_iff.1 hlast.symm)

/-- A line of escaped text is one text, which is that text. -/
theorem children_of_escapeText (options : InlineOptions) (hne : text ≠ []) (hline : '\n' ∉ text)
    (hback : isReadBack false [] 0 none text = true) :
    (parseMarkdown (escapeText text) options).root.children =
      [Node.ofText text (Span.covering {} (escapeText text))] := by
  have hescaped := newline_not_mem_escapeText hline
  have htexts : ∀ node ∈ (parseMarkdown (escapeText text) options).root.children,
      node.isText = true := by
    rw [(children_of_line options hescaped).1]
    refine (lineOf_yields options (escapeText text) 0).isText_of_isInert (fun token hmem => ?_)
      fun ⟨token, htoken, hkind⟩ hframe _ => ?_
    · have hkinds : ∀ kind : Kind, kind.isTextual = true ∨ kind = .eof → kind.isInert = true := by
        intro kind
        cases kind <;> decide
      exact hkinds _ (kind_of_escapeText hline hback hmem)
    · have hkind' := kind_of_escapeText hline hback (mem_toList_of_getElem? htoken)
      rw [hkind] at hkind'
      rw [framesAt_textual options hkind'] at hframe
      cases hframe
  have hsays : (lexemes (escapeText text)).flatMap Lexeme.text = text :=
    (lexemes_escapeText hline hback).2
  rw [children_of_isText options hescaped htexts, if_neg (escapeText_ne_nil hne), hsays]

/-- Escaped text is literal, whatever is switched on: if it is one line and no address can begin
in it, the document is that text alone and nothing is reported. -/
theorem parseMarkdown_escapeText (options : InlineOptions) (text : List Char) (hne : text ≠ [])
    (hline : '\n' ∉ text) (haddress : ∀ opening ∈ urlOpenings, ¬ opening <:+: text) :
    (parseMarkdown (escapeText text) options).isClean = true ∧
      (parseMarkdown (escapeText text) options).root.kind = .document ∧
      (parseMarkdown (escapeText text) options).root.children =
        [Node.ofText text (Span.covering {} (escapeText text))] := by
  refine ⟨?_, parseMarkdown_kind _ options, ?_⟩
  · obtain ⟨_, -, hdiagnostics, -⟩ :=
      markdown_run options { queue := tokenize (escapeText text), node := Node.emptyDocument }
    have hnone : (parseMarkdown (escapeText text) options).diagnostics = [] :=
      congrArg Array.toList hdiagnostics
    rw [Parsed.isClean, hnone]
    rfl
  · exact children_of_escapeText options hne hline (isReadBack_of_no_opening nofun haddress)

/-- A link, an image, a footnote, a citation, emphasis, code, a tag, a formula and a reference,
none of which is one once it is escaped. -/
theorem parseMarkdown_escapeText_constructs :
    let text := "[a](b) ![c](d) [^e] [@f] *g* `h` <i> $j$ &amp; \\".toList
    (parseMarkdown (escapeText text) {}).root.children =
      [Node.ofText text ⟨{}, ⟨0, 66, 66⟩⟩] := by
  intro text
  exact (parseMarkdown_escapeText {} text (by decide) (by decide) (by decide)).2.2

end InlineMarkdown
