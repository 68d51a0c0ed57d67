import InlineMarkdown.Proofs.Pairing
import InlineMarkdown.Proofs.Texts

/-! Escaped characters.

A backslash makes a character text, and text is looked at in two places only: behind the bracket
of a citation, where an at sign counts, and between the parentheses of a destination, where the
quotes of a title count. An escaped character is `Exposed` there, against the rule that it never
acts as a delimiter: `[\@a]` is a citation. Anywhere else it may as well be a letter, and the
document has the same nodes in the same places (`outline_withLetter`). -/
namespace InlineMarkdown
open Attempt InlineParser

/-! ### Outlines -/

/-- The kind without what it carries. -/
def NodeKind.bare : NodeKind → NodeKind
  | .text _ => .text []
  | .inlineCode _ => .inlineCode []
  | .formula _ => .formula []
  | .html _ => .html []
  | .link .. => .link [] []
  | .image .. => .image [] [] []
  | .reference .. => .reference [] [] []
  | .footnote _ => .footnote []
  | .citation _ => .citation []
  | other => other

mutual

/-- Which nodes there are, and how they are nested. -/
def Node.outline : Node → Node
  | ⟨kind, _, children⟩ => ⟨kind.bare, {}, outlines children⟩

def outlines : List Node → List Node
  | [] => []
  | node :: rest => node.outline :: outlines rest

end

theorem Node.outline_eq (node : Node) :
    node.outline = ⟨node.kind.bare, {}, outlines node.children⟩ := by
  cases node
  rw [outline]

/-- What cannot be told apart by any character but white space, nor by targets. -/
def Aspect.coarse : Aspect where
  char c := if isSpace c then ' ' else 'x'
  target _ := []
  place := id
  isSpace_char c := by cases h : isSpace c <;> simp <;> decide
  place_next := Aspect.plain.place_next

theorem outlines_coarse (nodes : List Node) :
    outlines (nodes.map Aspect.coarse.node) = outlines nodes := by
  induction nodes using trees_induction with
  | nil => rfl
  | cons kind span children rest ihChildren ihRest =>
    have hkind : (Aspect.coarse.kind kind).bare = kind.bare := by cases kind <;> rfl
    rw [List.map_cons, Aspect.node_mk, outlines, outlines, ihRest, Node.outline, Node.outline,
      ihChildren, hkind]

/-! ### What a destination reads -/

section Destinations
variable {f : Char → Char} (hspace : ∀ c, isSpace (f c) = isSpace c)
  (hquote : ∀ quote c, quote = '"' ∨ quote = '\'' → (f c = quote ↔ c = quote))
include hspace

theorem isSome_plainUrl?_map (url : List Char) :
    (plainUrl? (url.map f)).isSome = (plainUrl? url).isSome := by
  have hany : (url.map f).any isSpace = url.any isSpace := by
    simp only [List.any_map, Function.comp_def, hspace]
  unfold plainUrl?
  rw [hany]
  split <;> rfl

include hquote

theorem quotedTitle?_map (text : List Char) :
    quotedTitle? (text.map f) = (quotedTitle? text).map (·.map f) := by
  have hhead : (text.map f).head?.any isSpace = text.head?.any isSpace := by
    simp only [List.head?_map, Option.any_map, hspace]
  have hblank : (text.map f).dropWhile isSpace = (text.dropWhile isSpace).map f := by
    simp only [List.dropWhile_map, Function.comp_def, hspace]
  unfold quotedTitle?
  rw [hhead, hblank]
  split
  · rfl
  · cases text.dropWhile isSpace with
    | nil => rfl
    | cons quote rest =>
      have hopens : (f quote = '"' || f quote = '\'') = (quote = '"' || quote = '\'') := by
        simp only [hquote '"' quote (.inl rfl), hquote '\'' quote (.inr rfl)]
      rw [List.map_cons]
      dsimp only
      rw [hopens]
      split
      · rename_i h
        have h : quote = '"' ∨ quote = '\'' := by simpa using h
        have hsame : f quote = quote := (hquote quote quote h).2 rfl
        have htitle : (rest.map f).takeWhile (· != quote) =
            (rest.takeWhile (· != quote)).map f := by
          rw [List.takeWhile_map]
          congr 2
          funext c
          simp [bne, Bool.beq_eq_decide_eq, hquote quote c h]
        have hcloses (behind : List Char) : behind.map f = [quote] ↔ behind = [quote] := by
          simp [List.map_eq_singleton_iff, hquote quote _ h]
        rw [hsame, htitle, List.length_map, ← List.map_drop]
        simp only [hcloses]
        split <;> rfl
      · rfl

/-- Whether a text is a destination depends on its white space and its quotes. -/
theorem isSome_splitDestination?_map (raw : List Char) :
    (splitDestination? (raw.map f)).isSome = (splitDestination? raw).isSome := by
  unfold splitDestination?
  have hurl : ((trim raw).map f).takeWhile (!isSpace ·) =
      ((trim raw).takeWhile (!isSpace ·)).map f := by
    rw [List.takeWhile_map]
    simp only [Function.comp_def, hspace]
  simp only [trim_map hspace, hurl, List.length_map, ← List.map_drop,
    quotedTitle?_map hspace hquote]
  cases quotedTitle? ((trim raw).drop ((trim raw).takeWhile (!isSpace ·)).length) with
  | none => simp [isSome_plainUrl?_map hspace]
  | some title => simp [isSome_plainUrl?_map hspace]

end Destinations

/-- A character as far as destinations read it. -/
def texture (c : Char) : Char :=
  if isSpace c then ' ' else if c = '"' ∨ c = '\'' then c else 'x'

theorem isSpace_texture (c : Char) : isSpace (texture c) = isSpace c := by
  unfold texture
  split
  · rename_i h
    rw [h]
    decide
  · split
    · rfl
    · rename_i h _
      rw [eq_false_of_ne_true h]
      decide

theorem texture_eq_quote (quote c : Char) (h : quote = '"' ∨ quote = '\'') :
    texture c = quote ↔ c = quote := by
  have hspace : isSpace quote = false := by rcases h with rfl | rfl <;> decide
  constructor
  · intro hc
    unfold texture at hc
    split at hc
    · subst hc
      rcases h with h | h <;> cases h
    · split at hc
      · exact hc
      · subst hc
        rcases h with h | h <;> cases h
  · rintro rfl
    unfold texture
    rw [hspace, if_neg Bool.false_ne_true, if_pos h]

theorem rel_splitDestination? {R : List Char × List Char → List Char × List Char → Prop}
    (hR : ∀ d d', R d d') {raw raw' : List Char} (h : raw'.map texture = raw.map texture) :
    Option.Rel R (splitDestination? raw) (splitDestination? raw') := by
  have hsome : (splitDestination? raw').isSome = (splitDestination? raw).isSome := by
    rw [← isSome_splitDestination?_map isSpace_texture texture_eq_quote raw', h,
      isSome_splitDestination?_map isSpace_texture texture_eq_quote]
  revert hsome
  cases splitDestination? raw <;> cases splitDestination? raw' <;> intro hsome
  · exact .none
  · cases hsome
  · cases hsome
  · exact .some (hR _ _)

/-! ### Escapes -/

/-- What the token at a place of the list is. -/
def kindAt? (tokens : List (Token Kind)) (p : Nat) : Option Kind := tokens[p]?.map (·.kind)

/-- The token stands behind a bracket and a parenthesis, which nothing has closed. -/
def InDestination (tokens : List (Token Kind)) (i : Nat) : Prop :=
  ∃ p < i, p + 1 < i ∧ kindAt? tokens p = some .rightBracket ∧
    kindAt? tokens (p + 1) = some .leftParen ∧
    ∀ q < i, p + 1 < q → kindAt? tokens q ≠ some .rightParen ∧ kindAt? tokens q ≠ some .newline

instance (tokens : List (Token Kind)) (i : Nat) : Decidable (InDestination tokens i) :=
  inferInstanceAs (Decidable (∃ p < i, _))

/-- Where a character is read although it is escaped: an at sign behind a bracket is the mark of
a citation, and a quote in a destination is one of a title. -/
def Exposed (options : InlineOptions) (tokens : List (Token Kind)) (i : Nat) (c : Char) : Prop :=
  (options.citations = true ∧ c = '@' ∧ 0 < i ∧ kindAt? tokens (i - 1) = some .leftBracket) ∨
    ((options.links || options.images) = true ∧ (c = '"' ∨ c = '\'') ∧ InDestination tokens i)

instance (options : InlineOptions) (tokens : List (Token Kind)) (i : Nat) (c : Char) :
    Decidable (Exposed options tokens i c) :=
  inferInstanceAs (Decidable (_ ∨ _))

/-- The tokens with the letter x for what one of them says. -/
def withLetter (tokens : List (Token Kind)) (i : Nat) : List (Token Kind) :=
  tokens.modify i ({ · with text := ['x'] })

/-- The token at this place of the source is an escape of the character. -/
def EscapeAt (source : List Char) (i : Nat) (c : Char) : Prop :=
  ∃ token, (tokenize source)[i]? = some token ∧ isPunctuation c = true ∧
    Slice source token.span.start token.span.stop ['\\', c]

theorem isSpace_of_isPunctuation {c : Char} (h : isPunctuation c = true) : isSpace c = false := by
  simp only [isPunctuation, Bool.or_eq_true, Bool.and_eq_true, decide_eq_true_eq, Char.le_def,
    UInt32.le_iff_toNat_le] at h
  simp only [isSpace, Char.toNat]
  simp at h ⊢
  omega

/-- An escape is text that says the character. -/
theorem EscapeAt.token {source : List Char} {i : Nat} {c : Char} (h : EscapeAt source i c) :
    ∃ token, (tokenize source)[i]? = some token ∧ token.kind = .text ∧ token.text = [c] := by
  obtain ⟨token, htoken, hpunctuation, hslice⟩ := h
  obtain ⟨body, htokens, hbody⟩ := tokenize_eq source
  have hmem : token ∈ body ++ [_] := htokens ▸ List.mem_of_getElem? htoken
  rcases List.mem_append.1 hmem with hmem | hmem
  · obtain ⟨raw, -, hraw, hreads⟩ := (hbody token hmem).2
    obtain rfl := hraw.unique hslice
    rcases hreads with ⟨other, -, hsame, hkind, htext⟩ | ⟨hplain, -⟩
    · obtain rfl : c = other := by simpa using hsame
      exact ⟨token, htoken, hkind, htext⟩
    · exact absurd rfl (hplain c hpunctuation)
  · obtain rfl := List.mem_singleton.1 hmem
    obtain ⟨before, after, hsource, hstart, -⟩ := id hslice
    have hnil : Slice source _ _ [] := ⟨before, _, hsource, hstart, rfl⟩
    exact nomatch hslice.unique hnil

/-! ### A letter for an escape -/

section Letters
variable {options : InlineOptions} {tokens : List (Token Kind)} {i n p : Nat} {c : Char}
  {escape token token' : Token Kind}

theorem kindAt?_of_kindAt {kind : Kind} (h : KindAt (tokens.drop n).toArray p kind) :
    kindAt? tokens (n + p) = some kind := by
  obtain ⟨token, htoken, rfl⟩ := h
  rw [List.getElem?_toArray, List.getElem?_drop] at htoken
  rw [kindAt?, htoken]
  rfl

theorem exists_of_kindAt? {kind : Kind} (h : kindAt? tokens (n + p) = some kind) :
    ∃ token, (tokens.drop n).toArray[p]? = some token ∧ token.kind = kind := by
  rw [List.getElem?_toArray, List.getElem?_drop]
  exact Option.map_eq_some_iff.1 h

/-- What is passed between parentheses behind a bracket is in a destination. -/
theorem inDestination_of_passed {q : Nat}
    (hbracket : KindAt (tokens.drop n).toArray p .rightBracket)
    (hparen : KindAt (tokens.drop n).toArray (p + 1) .leftParen) (hq : p + 2 ≤ q)
    (hpassed : q < ((rawUntil .rightParen).view (tokens.drop n).toArray (p + 2)).2) :
    InDestination tokens (n + q) := by
  have hinside {m : Nat} (hm : m < n + q) (hafter : n + p + 1 < m) {kind : Kind}
      (hkind : kindAt? tokens m = some kind) : kind ≠ .rightParen ∧ kind ≠ .newline := by
    obtain ⟨r, rfl⟩ := Nat.exists_eq_add_of_le (show n ≤ m by omega)
    obtain ⟨token, htoken, rfl⟩ := exists_of_kindAt? hkind
    have hlt : r < ((rawUpTo .rightParen _).view (tokens.drop n).toArray (p + 2)).2 :=
      Nat.lt_trans (show r < q by omega) hpassed
    obtain ⟨hclose, hstop⟩ := rawUpTo_passes (show p + 2 ≤ r by omega) hlt htoken
    exact ⟨hclose, fun h => by simp [h] at hstop⟩
  have hopens : kindAt? tokens (n + (p + 1)) = some .leftParen := kindAt?_of_kindAt hparen
  refine ⟨n + p, by omega, by omega, kindAt?_of_kindAt hbracket, hopens,
    fun m hm hafter => ⟨fun h => ?_, fun h => ?_⟩⟩
  · exact (hinside hm hafter h).1 rfl
  · exact (hinside hm hafter h).2 rfl

theorem getElem?_withLetter (tokens : List (Token Kind)) (i n p : Nat) :
    ((withLetter tokens i).drop n).toArray[p]? = ((tokens.drop n).toArray[p]?).map fun token =>
      if i = n + p then { token with text := ['x'] } else token := by
  simp [withLetter, List.getElem?_modify]

variable (hescape : tokens[i]? = some escape) (hkind : escape.kind = .text)
  (htext : escape.text = [c])
include hescape

/-- Only the escape is replaced. -/
theorem withLetter_cases (htoken : (tokens.drop n).toArray[p]? = some token)
    (htoken' : ((withLetter tokens i).drop n).toArray[p]? = some token') :
    (i = n + p ∧ token = escape ∧ token' = { escape with text := ['x'] }) ∨
      (i ≠ n + p ∧ token' = token) := by
  rw [getElem?_withLetter, htoken, Option.map_some, Option.some.injEq] at htoken'
  rw [List.getElem?_toArray, List.getElem?_drop] at htoken
  by_cases hi : i = n + p
  · rw [if_pos hi] at htoken'
    obtain rfl : escape = token := Option.some.inj (hescape.symm.trans (hi ▸ htoken))
    exact .inl ⟨hi, rfl, htoken'.symm⟩
  · rw [if_neg hi] at htoken'
    exact .inr ⟨hi, htoken'.symm⟩

include hkind htext

/-- Behind a bracket the escape is no mark, unless it is exposed there. -/
theorem mark_withLetter (hmark : i = n + p → c ≠ '@') :
    Alike Eq (tokens.drop n).toArray ((withLetter tokens i).drop n).toArray atSign atSign p := by
  rw [atSign_eq_consume]
  apply consume_alike
  rw [getElem?_withLetter, Option.any_map]
  cases htoken : (tokens.drop n).toArray[p]? with
  | none => rfl
  | some token =>
    rw [List.getElem?_toArray, List.getElem?_drop] at htoken
    by_cases hi : i = n + p
    · obtain rfl : escape = token := Option.some.inj (hescape.symm.trans (hi ▸ htoken))
      simp [hi, hkind, htext, hmark hi]
    · simp [hi]

/-- Between parentheses the escape is like a letter, unless it is a quote. -/
theorem texture_withLetter (hspace : isSpace c = false)
    (hquote : i = n + p → c ≠ '"' ∧ c ≠ '\'')
    (htoken : (tokens.drop n).toArray[p]? = some token)
    (htoken' : ((withLetter tokens i).drop n).toArray[p]? = some token') :
    token'.text.map texture = token.text.map texture := by
  rcases withLetter_cases hescape htoken htoken' with ⟨hi, rfl, rfl⟩ | ⟨-, rfl⟩
  · obtain ⟨hdouble, hsingle⟩ := hquote hi
    simp [htext, texture, hspace, hdouble, hsingle]
    decide
  · rfl

theorem pairing_withLetter (hspace : isSpace c = false) (hhidden : ¬ Exposed options tokens i c)
    (n : Nat) : Pairing (.same .coarse) { options } { options } (tokens.drop n).toArray
      ((withLetter tokens i).drop n).toArray where
  search := rfl
  token := by
    apply Array.ext_getElem?
    intro p
    rw [Array.getElem?_map, Array.getElem?_map, getElem?_withLetter, Option.map_map]
    cases htoken : (tokens.drop n).toArray[p]? with
    | none => rfl
    | some token =>
      rw [List.getElem?_toArray, List.getElem?_drop] at htoken
      by_cases hi : i = n + p
      · obtain rfl : escape = token := Option.some.inj (hescape.symm.trans (hi ▸ htoken))
        simp [hi, Comparison.same, Aspect.token, Aspect.coarse, htext, hspace]
        decide
      · simp [hi, Comparison.same]
  frames _ := rfl
  strikethrough _ := rfl
  leaf htoken htoken' := by
    rcases withLetter_cases hescape htoken htoken' with ⟨-, rfl, rfl⟩ | ⟨-, rfl⟩
    · simp [leaf?, hkind]
    · rfl
  mark {p} hon hbracket := by
    apply mark_withLetter hescape hkind htext
    rintro hi rfl
    refine hhidden (.inl ⟨hon, rfl, by omega, ?_⟩)
    rw [hi]
    exact kindAt?_of_kindAt hbracket
  destination {p} hon hbracket := by
    have hkinds : SameKinds (tokens.drop n).toArray ((withLetter tokens i).drop n).toArray := by
      intro q
      rw [getElem?_withLetter, Option.map_map]
      congr 1
      funext token
      dsimp only [Function.comp_apply]
      split <;> rfl
    refine hkinds.destination_alike (fun hparen => hkinds.rawUntil_alike texture texture ?_)
      fun raw raw' h => ?_
    · intro q token token' hq hpassed htoken htoken'
      apply texture_withLetter hescape hkind htext hspace (fun hi => ?_) htoken htoken'
      have hinside : InDestination tokens i :=
        hi ▸ inDestination_of_passed hbracket hparen hq hpassed
      refine ⟨?_, ?_⟩ <;> rintro rfl
      · exact hhidden (.inr ⟨hon, .inl rfl, hinside⟩)
      · exact hhidden (.inr ⟨hon, .inr rfl, hinside⟩)
    · exact rel_splitDestination? (fun _ _ => ⟨rfl, rfl⟩) h

end Letters

/-! ### Documents -/

/-- An escaped character that is not exposed might as well be a letter: the document has the same
nodes, nested in the same way. -/
theorem outline_withLetter {source : List Char} {i : Nat} {c : Char} (h : EscapeAt source i c)
    {options : InlineOptions} (hhidden : ¬ Exposed options (tokenize source) i c) :
    (documentOf options (withLetter (tokenize source) i)).outline =
      (parseMarkdown source options).root.outline := by
  obtain ⟨escape, hescape, hkind, htext⟩ := h.token
  obtain ⟨-, -, hpunctuation, -⟩ := h
  have hspace := isSpace_of_isPunctuation hpunctuation
  have hlines := lines_parseMarkdown source options
  obtain ⟨nodes, hletter, hsame⟩ := hlines.exists_alike
    (pairing_withLetter hescape hkind htext hspace hhidden)
  have hnodes := hletter.unique (lines_documentOf options _)
  have hchildren : outlines nodes = outlines (parseMarkdown source options).root.children := by
    rw [← outlines_coarse, ← outlines_coarse (parseMarkdown source options).root.children]
    exact congrArg outlines hsame
  rw [Node.outline_eq, Node.outline_eq, documentOf_kind, parseMarkdown_kind, ← hnodes, hchildren]

/-- An escaped parenthesis does not close a destination. -/
theorem outline_withLetter_parenthesis :
    EscapeAt "[a](b\\)c)".toList 5 ')' ∧
      ¬ Exposed {} (tokenize "[a](b\\)c)".toList) 5 ')' ∧
      (documentOf {} (withLetter (tokenize "[a](b\\)c)".toList) 5)).outline =
        (parseMarkdown "[a](b\\)c)".toList {}).root.outline := by
  have hescape : EscapeAt "[a](b\\)c)".toList 5 ')' :=
    ⟨⟨.text, [')'], ⟨⟨0, 5, 5⟩, ⟨0, 7, 7⟩⟩⟩, by decide +kernel, by decide +kernel,
      "[a](b".toList, "c)".toList, by decide +kernel, by decide +kernel, by decide +kernel⟩
  have hhidden : ¬ Exposed {} (tokenize "[a](b\\)c)".toList) 5 ')' := by decide +kernel
  exact ⟨hescape, hhidden, outline_withLetter hescape hhidden⟩

/-- Where it is exposed it is no letter: it marks a citation, and it ends a title. -/
theorem outline_ne_of_exposed :
    (EscapeAt "[\\@a]".toList 1 '@' ∧
      (documentOf {} (withLetter (tokenize "[\\@a]".toList) 1)).outline ≠
        (parseMarkdown "[\\@a]".toList {}).root.outline) ∧
    (EscapeAt "[a](u \"t\\\")".toList 5 '"' ∧
      (documentOf {} (withLetter (tokenize "[a](u \"t\\\")".toList) 5)).outline ≠
        (parseMarkdown "[a](u \"t\\\")".toList {}).root.outline) := by
  refine ⟨⟨?_, by decide +kernel⟩, ?_, by decide +kernel⟩
  · exact ⟨⟨.text, ['@'], ⟨⟨0, 1, 1⟩, ⟨0, 3, 3⟩⟩⟩, by decide +kernel, by decide +kernel,
      ['['], "a]".toList, by decide +kernel, by decide +kernel, by decide +kernel⟩
  · exact ⟨⟨.text, ['"'], ⟨⟨0, 8, 8⟩, ⟨0, 10, 10⟩⟩⟩, by decide +kernel, by decide +kernel,
      "[a](u \"t".toList, [')'], by decide +kernel, by decide +kernel, by decide +kernel⟩

end InlineMarkdown
