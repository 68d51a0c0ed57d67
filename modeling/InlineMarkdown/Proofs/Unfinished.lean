import InlineMarkdown.Proofs.Line
import InlineMarkdown.Proofs.Nesting

/-! Unfinished brackets.

A footnote needs a caret and a citation an at sign behind its opening bracket; an image and a
link need something behind their closing bracket. Where there is none of that (`Unfinished`) no
construct closes what it has opened (`Unfinished.not_closes`), so that the grammar has no way to
a construct at a bracket, at any depth, and the brackets can only be text. `Spells` says that
they are: in the order of the trees the texts are what stretches of the tokens say, and what is
left out between them is no bracket (`Yields.unfinished`). Where there are no other tokens than
brackets and text, the line is one text (`children_of_bracketText`). -/
namespace InlineMarkdown
open Attempt InlineParser

/-- Constructs at brackets start and end with tokens of this kind. -/
def Kind.isBracket (kind : Kind) : Bool := kind.isOpener || kind == .rightBracket

/-- No construct at a bracket can be finished with these tokens. -/
structure Unfinished (tokens : List (Token Kind)) : Prop where
  noCaret : ∀ token ∈ tokens, token.kind ≠ .caret
  noAtSign : ∀ token ∈ tokens, token.kind = .text → token.text ≠ ['@']
  noTarget : tokens.IsChain fun first next => first.kind = .rightBracket →
    next.kind ≠ .leftParen ∧ next.kind ≠ .leftBracket

variable {options : InlineOptions} {tokens : Array (Token Kind)} {stands : Nat → Position → Prop}
  {room i j k p : Nat} {token : Token Kind} {node : Node} {nodes rest : List Node}
  {texts more : List (List Char)}

/-! ### What is not closed -/

/-- Behind a closing bracket there is nothing that a link or an image could be about. -/
theorem Unfinished.not_target (h : Unfinished tokens.toList) (hbracket : KindAt tokens p .rightBracket)
    {kind : Kind} (hkind : kind = .leftParen ∨ kind = .leftBracket) : ¬ KindAt tokens (p + 1) kind := by
  rintro ⟨next, hnext, rfl⟩
  obtain ⟨first, hfirst, hclose⟩ := hbracket
  obtain ⟨hlt, rfl⟩ := Array.getElem?_eq_some_iff.1 hnext
  obtain ⟨_, rfl⟩ := Array.getElem?_eq_some_iff.1 hfirst
  obtain ⟨hparen, hleft⟩ := List.isChain_iff_getElem.1 h.noTarget p (by simpa using hlt)
    (by simpa using hclose)
  rcases hkind with hkind | hkind
  · exact hparen (by simpa using hkind)
  · exact hleft (by simpa using hkind)

/-- A destination stands in parentheses. -/
theorem paren_of_destination {target : List Char × List Char} {e : Nat}
    (h : destination.view tokens p = (some target, e)) : KindAt tokens p .leftParen := by
  obtain ⟨_, _, hopen, -⟩ := view_bind_eq_some (expect_moves _) h
  exact (view_expect_eq_some hopen).2

/-- What is behind the closing bracket of a link starts with a parenthesis or a bracket. -/
theorem target_of_link {start e : Nat} {content : List Node}
    (h : (link.closing start content).view tokens p = (some node, e)) :
    KindAt tokens p .rightBracket ∧
      (KindAt tokens (p + 1) .leftParen ∨ KindAt tokens (p + 1) .leftBracket) := by
  obtain ⟨_, _, hclose, hrest⟩ := view_bind_eq_some (expect_moves _) h
  obtain ⟨rfl, hbracket⟩ := view_expect_eq_some hclose
  refine ⟨hbracket, ?_⟩
  obtain ⟨paren, _, hlook, hrest⟩ := view_bind_eq_some (Moves.look fun _ => rfl) hrest
  obtain ⟨-, rfl⟩ : _ = paren ∧ p + 1 = _ := by simpa [view, look] using hlook
  split at hrest
  · obtain ⟨_, _, htarget, -⟩ := view_bind_eq_some destination_moves hrest
    exact .inl (paren_of_destination htarget)
  · obtain ⟨_, _, hopen, -⟩ := view_bind_eq_some (expect_moves _) hrest
    exact .inr (view_expect_eq_some hopen).2

theorem target_of_image {start e : Nat} {content : List Node}
    (h : (image.closing start content).view tokens p = (some node, e)) :
    KindAt tokens p .rightBracket ∧ KindAt tokens (p + 1) .leftParen := by
  obtain ⟨_, _, hclose, hrest⟩ := view_bind_eq_some (expect_moves _) h
  obtain ⟨rfl, hbracket⟩ := view_expect_eq_some hclose
  obtain ⟨_, _, htarget, -⟩ := view_bind_eq_some destination_moves hrest
  exact ⟨hbracket, paren_of_destination htarget⟩

/-- A construct that has been opened is not closed. -/
theorem Unfinished.not_closes (h : Unfinished tokens.toList) {kind : Kind} {frame : Frame}
    (hframe : frame ∈ framesAt options kind) {q e : Nat} {content : List Node}
    (hopening : frame.opening.view tokens i = (some (), p)) :
    (frame.closing i content).view tokens q ≠ (some node, e) := by
  intro hclosing
  rcases framesAt_cases hframe with rfl | rfl | rfl | rfl
  · obtain ⟨hbracket, hparen⟩ := target_of_image hclosing
    exact h.not_target hbracket (.inl rfl) hparen
  · obtain ⟨_, _, -, hcaret⟩ := view_bind_eq_some (expect_moves _) hopening
    obtain ⟨-, token, htoken, hkind⟩ := view_expect_eq_some hcaret
    exact h.noCaret token (mem_toList_of_getElem? htoken) hkind
  · obtain ⟨_, _, -, hat⟩ := view_bind_eq_some (expect_moves _) hopening
    rw [atSign_eq_consume] at hat
    obtain ⟨-, token, htoken, haccept⟩ := view_consume_eq_some hat
    obtain ⟨hkind, htext⟩ := Bool.and_eq_true_iff.1 haccept
    exact h.noAtSign token (mem_toList_of_getElem? htoken) (of_decide_eq_true hkind) (eq_of_beq htext)
  · obtain ⟨hbracket, htarget⟩ := target_of_link hclosing
    rcases htarget with hparen | hleft
    · exact h.not_target hbracket (.inl rfl) hparen
    · exact h.not_target hbracket (.inr rfl) hleft

/-! ### Texts in order -/

mutual

/-- The texts of a tree in order. Links are left out. -/
def Node.texts : Node → List (List Char)
  | ⟨kind, _, children⟩ =>
    match kind with
    | .text text => [text]
    | .link .. => []
    | _ => textsOf children

/-- The texts of some trees in order. Links are left out. -/
def textsOf : List Node → List (List Char)
  | [] => []
  | node :: rest => node.texts ++ textsOf rest

end

theorem texts_leaf (h : Leaf options token node) : node.texts = [] := by
  cases h <;> rfl

theorem texts_wrapper (marker : Marker) (used : Nat) (span : Span) (children : List Node) :
    Node.texts ⟨marker.wrapper used, span, children⟩ = textsOf children := by
  rcases marker.wrapper_cases used with h | h | ⟨-, h⟩ <;>
  · rw [h]
    rfl

/-- Each of the texts is that of a node. -/
theorem exists_node_of_mem_textsOf {text : List Char} (h : text ∈ textsOf nodes) :
    ∃ node ∈ treeNodes nodes, node.kind = .text text := by
  induction nodes using trees_induction with
  | nil => cases h
  | cons kind span children rest ihChildren ihRest =>
    have hbelow (h : text ∈ textsOf children) :
        ∃ node ∈ treeNodes (⟨kind, span, children⟩ :: rest), node.kind = .text text := by
      obtain ⟨node, hmem, hnode⟩ := ihChildren h
      exact ⟨node, List.mem_cons_of_mem _ (List.mem_append_left _ hmem), hnode⟩
    rcases List.mem_append.1 h with h | h
    · unfold Node.texts at h
      split at h
      · obtain rfl := List.mem_singleton.1 h
        exact ⟨_, List.mem_cons_self, rfl⟩
      · cases h
      · exact hbelow h
    · obtain ⟨node, hmem, hnode⟩ := ihRest h
      exact ⟨node, List.mem_cons_of_mem _ (List.mem_append_right _ hmem), hnode⟩

/-- From index `i` up to index `k` the texts are what stretches of the tokens say, one behind the
other. No bracket is left out. -/
inductive Spells (tokens : Array (Token Kind)) : (i k : Nat) → List (List Char) → Prop
  | done (i : Nat) : Spells tokens i i []
  | skip {i k : Nat} {token : Token Kind} {texts : List (List Char)} : tokens[i]? = some token →
      token.kind.isBracket = false → Spells tokens (i + 1) k texts → Spells tokens i k texts
  | text {i j k : Nat} {texts : List (List Char)} : i < j → j ≤ tokens.size →
      Spells tokens j k texts → Spells tokens i k (literal tokens i j :: texts)

theorem Spells.append (h : Spells tokens i j texts) (h' : Spells tokens j k more) :
    Spells tokens i k (texts ++ more) := by
  induction h with
  | done => exact h'
  | skip htoken hkind _ ih => exact .skip htoken hkind (ih h')
  | text hlt hle _ ih => exact .text hlt hle (ih h')

theorem Run.spells {marker : Marker} {n : Nat} (h : Run tokens marker i n) :
    Spells tokens i (i + n) [] := by
  induction n with
  | zero => exact .done i
  | succ n ih =>
    obtain ⟨hfront, hlast⟩ := h.split
    obtain ⟨token, htoken, hkind⟩ := hlast (i + n) (Nat.le_refl _) (Nat.lt_succ_self _)
    refine (ih hfront).append (.skip htoken ?_ (.done _))
    rw [hkind]
    cases marker <;> rfl

/-- A bracket is in one of the stretches. -/
theorem Spells.exists_stretch (h : Spells tokens i k texts) (hi : i ≤ p) (hk : p < k)
    (htoken : tokens[p]? = some token) (hkind : token.kind.isBracket = true) :
    ∃ a b, a ≤ p ∧ p < b ∧ literal tokens a b ∈ texts := by
  induction h with
  | done => omega
  | @skip i _ other _ hother hskip _ ih =>
    by_cases hp : i = p
    · subst hp
      obtain rfl := Option.some.inj (hother.symm.trans htoken)
      exact absurd hkind (ne_true_of_eq_false hskip)
    · exact ih (by omega) hk
  | @text i j _ _ hlt _ _ ih =>
    by_cases hp : p < j
    · exact ⟨i, j, hi, hp, List.mem_cons_self⟩
    · obtain ⟨a, b, ha, hb, hmem⟩ := ih (by omega) hk
      exact ⟨a, b, ha, hb, List.mem_cons_of_mem _ hmem⟩

/-- A stretch says what the token in it says, between what stands in front of it and behind it. -/
theorem literal_around (hi : i ≤ p) (hj : p < j) (htoken : tokens[p]? = some token) :
    literal tokens i j = literal tokens i p ++ token.literal ++ literal tokens (p + 1) j := by
  rw [← literal_succ htoken, literal_append hi (Nat.le_succ p), literal_append (by omega) hj]

theorem literal_of_isBracket (h : token.kind.isBracket = true) : token.literal = token.text := by
  refine Token.literal_of_ne fun marker hkind => ?_
  rw [hkind] at h
  cases marker <;> cases h

/-! ### What unfinished tokens yield -/

theorem Leaf.kind_isBracket (h : Leaf options token node) : token.kind.isBracket = false := by
  have hkinds : ∀ kind : Kind, kind.isInert = false → kind.isBracket = false := by
    intro kind
    cases kind <;> decide
  exact hkinds token.kind h.kind_isInert

/-- Unfinished tokens yield no construct at a bracket, and every bracket is in a text. -/
theorem Yields.unfinished (h : Yields options tokens stands room i k nodes)
    (htokens : Unfinished tokens.toList) :
    (∀ node ∈ treeNodes nodes, node.isBracketed options tokens = false) ∧
      Spells tokens i k (textsOf nodes) := by
  induction h with
  | nil => exact ⟨nofun, .done _⟩
  | text hlt hle _ _ _ _ ih =>
    exact ⟨forall_mem_treeNodes_cons.2 ⟨rfl, nofun, ih.1⟩, .text hlt hle ih.2⟩
  | leaf htoken hleaf _ ih =>
    refine ⟨forall_mem_treeNodes_cons.2 ⟨hleaf.isBracketed htoken, ?_, ih.1⟩, ?_⟩
    · rcases hleaf.children with hnil | ⟨-, rfl⟩
      · rw [hnil]
        exact nofun
      · exact forall_mem_treeNodes_cons.2 ⟨rfl, nofun, nofun⟩
    · rw [textsOf, texts_leaf hleaf]
      exact .skip htoken hleaf.kind_isBracket ih.2
  | wrapper _ _ hopen _ hclose _ ihChildren ih =>
    refine ⟨forall_mem_treeNodes_cons.2 ⟨wrapper_isBracketed .., ihChildren.1, ih.1⟩, ?_⟩
    rw [textsOf, texts_wrapper]
    exact hopen.spells.append (ihChildren.2.append (hclose.spells.append ih.2))
  | bracket _ hframe hopening _ _ hclosing => exact absurd hclosing (htokens.not_closes hframe hopening)

/-! ### Lines of brackets and words -/

/-- Brackets, exclamation marks, spaces and ASCII letters. -/
def isBracketText (c : Char) : Bool := c ∈ ['[', ']', '!', ' '] || c.isAlpha

section BracketText
variable {source : List Char}

theorem ne_of_isBracketText {c d : Char} (h : isBracketText c = true)
    (hd : isBracketText d = false) : c ≠ d := by
  rintro rfl
  rw [hd] at h
  cases h

theorem not_mem_of_isBracketText (h : ∀ c ∈ source, isBracketText c = true) {d : Char}
    (hd : isBracketText d = false) : d ∉ source := fun hmem =>
  absurd rfl (ne_of_isBracketText (h d hmem) hd)

theorem isBracket_of_ofChar? {c : Char} {kind : Kind} (hc : isBracketText c = true)
    (hkind : Kind.ofChar? c = some kind) : kind.isBracket = true := by
  unfold Kind.ofChar? at hkind
  split at hkind <;> cases hkind
  -- The character is one of the three, or it is not of this text.
  all_goals first | rfl | cases hc

/-- No address starts here: it would need a dot or a colon. -/
theorem urlBehind?_bracketText {text : List Char} (h : ∀ c ∈ text, isBracketText c = true)
    (before : Option Char) : urlBehind? before text = none := by
  have hopenings : (urlOpenings.all fun opening => opening.any fun c => !isBracketText c) = true := by
    decide
  unfold urlBehind?
  split
  · apply List.findSome?_eq_none_iff.2
    intro opening hopening
    obtain ⟨c, hc, hother⟩ := List.any_eq_true.1 (List.all_eq_true.1 hopenings opening hopening)
    cases hafter : after? opening text with
    | none => rfl
    | some rest =>
      have hmem : c ∈ text := by
        rw [after?_eq_some hafter]
        exact List.mem_append_left rest hc
      exact absurd rfl (ne_of_isBracketText (h c hmem) (by simpa using hother))
  · rfl

/-- The lexemes are brackets and text. -/
theorem kind_of_isBracketText (h : ∀ c ∈ source, isBracketText c = true) {lexeme : Lexeme}
    (hmem : lexeme ∈ lexemes source) : lexeme.kind.isBracket = true ∨ lexeme.kind = .text := by
  obtain ⟨before, c, rest, length, hsuffix, -, -, hscanned⟩ := exists_scanned hmem
  have htext : ∀ d ∈ c :: rest, isBracketText d = true := fun d hd => h d (hsuffix.mem hd)
  have hc := htext c List.mem_cons_self
  have hurl := urlBehind?_bracketText htext before
  generalize lexeme.kind = kind at hscanned ⊢
  cases hscanned with
  | single hkind => exact .inl (isBracket_of_ofChar? hc hkind)
  | crlf hcrlf =>
    have hreturn : c = '\r' := by
      by_contra hne
      simp [startsCrlf, after?, Ne.symm hne] at hcrlf
    exact absurd hreturn (ne_of_isBracketText hc (by decide))
  | url hfound => cases hurl.symm.trans hfound
  | newline hother | code hother | formula hother | autolink hother | html hother
    | reference hother => exact absurd hother (ne_of_isBracketText hc (by decide))
  | _ => exact .inr rfl

theorem isBracket_cases (h : ∀ c ∈ source, isBracketText c = true) {token : Token Kind}
    (hmem : token ∈ tokenize source) :
    token.kind.isBracket = true ∨ token.kind = .text ∨ token.kind = .eof := by
  cases heof : token.isEof with
  | true => exact .inr (.inr (isEof_iff.1 heof))
  | false =>
    obtain ⟨lexeme, hlexeme, hkind, -⟩ := exists_lexeme hmem heof
    rw [hkind]
    exact (kind_of_isBracketText h hlexeme).imp_right .inl

/-- Nothing is finished if no opening bracket stands right behind a closing one. -/
theorem unfinished_tokenize (h : ∀ c ∈ source, isBracketText c = true)
    (hapart : ¬ [']', '['] <:+: source) : Unfinished (tokenize source) where
  noCaret token hmem hkind := by
    have hcases := isBracket_cases h hmem
    rw [hkind] at hcases
    rcases hcases with hcases | hcases | hcases <;> cases hcases
  noAtSign token hmem _ htext := by
    have hslice := reads_of_not_mem (not_mem_of_isBracketText h (by decide)) hmem
    rw [htext] at hslice
    exact not_mem_of_isBracketText h (by decide) (mem_of_slice hslice List.mem_cons_self)
  noTarget := by
    refine List.isChain_iff_getElem.2 fun p hlt hclose => ⟨fun hparen => ?_, fun hopen => ?_⟩
    · have hcases := isBracket_cases h (List.getElem_mem hlt)
      rw [hparen] at hcases
      rcases hcases with hcases | hcases | hcases <;> cases hcases
    · have hfirst := (tokenize_getElem? (List.getElem?_eq_getElem (Nat.lt_of_succ_lt hlt))).2 ']'
        (by rw [hclose]; rfl)
      have hsecond := (tokenize_getElem? (List.getElem?_eq_getElem hlt)).2 '[' (by rw [hopen]; rfl)
      obtain ⟨before, after, hsource, -⟩ := hfirst.append hsecond
      exact hapart ⟨before, after, by rw [hsource, List.append_assoc]; rfl⟩

end BracketText

/-- A line of brackets and words is one text. -/
theorem children_of_bracketText {source : List Char} (options : InlineOptions)
    (hsource : ∀ c ∈ source, isBracketText c = true) (hapart : ¬ [']', '['] <:+: source) :
    (parseMarkdown source options).root.children =
      if source = [] then [] else [Node.ofText source (Span.covering {} source)] := by
  have hline : '\n' ∉ source := not_mem_of_isBracketText hsource (by decide)
  have hescape : '\\' ∉ source := not_mem_of_isBracketText hsource (by decide)
  rw [children_of_isText options hline, texts_of_not_mem hescape]
  rw [(children_of_line options hline).1]
  refine (lineOf_yields options source 0).isText_of_isInert (fun _ hmem => ?_)
    fun _ hframe hopening => (unfinished_tokenize hsource hapart).not_closes hframe hopening
  have hkinds : ∀ kind : Kind, kind.isBracket = true ∨ kind = .text ∨ kind = .eof →
      kind.isInert = true := by
    intro kind
    cases kind <;> decide
  exact hkinds _ (isBracket_cases hsource hmem)

/-! ### The result -/

/-- Without anything that could finish a construct at a bracket there is none, at any depth, and
every bracket and exclamation mark that a parse passes is in a text as it is; the texts are in
the order of the tokens, and no token is in two of them. In particular a line of brackets and
words is one text. -/
theorem unfinished_brackets (options : InlineOptions) :
    (∀ tokens, Unfinished tokens → ∀ c, Reachable tokens.toArray c → ∀ stop,
      let parsed := ({ options } : InlineParser).parse stop c
      (∀ node ∈ treeNodes parsed.1, node.isBracketed options tokens.toArray = false) ∧
        Spells tokens.toArray c.position parsed.2.position (textsOf parsed.1) ∧
        ∀ p token, c.position ≤ p → p < parsed.2.position → tokens[p]? = some token →
          token.kind.isBracket = true → ∃ node ∈ treeNodes parsed.1, ∃ i j, i ≤ p ∧ p < j ∧
            node.kind = .text
              (literal tokens.toArray i p ++ token.text ++ literal tokens.toArray (p + 1) j)) ∧
    ∀ source : List Char, (∀ c ∈ source, isBracketText c = true) → ¬ [']', '['] <:+: source →
      (parseMarkdown source options).root.kind = .document ∧
        (parseMarkdown source options).root.children =
          if source = [] then [] else [Node.ofText source (Span.covering {} source)] := by
  constructor
  · intro tokens htokens c hreach stop parsed
    obtain ⟨hnone, hspells⟩ := (hreach.yields options stop).unfinished htokens
    refine ⟨hnone, hspells, fun p token hp hd htoken hkind => ?_⟩
    have hplace : tokens.toArray[p]? = some token := by simpa using htoken
    obtain ⟨i, j, hi, hj, hmem⟩ := hspells.exists_stretch hp hd hplace hkind
    obtain ⟨node, hnode, htext⟩ := exists_node_of_mem_textsOf hmem
    rw [literal_around hi hj hplace, literal_of_isBracket hkind] at htext
    exact ⟨node, hnode, i, j, hi, hj, htext⟩
  · intro source hsource hapart
    exact ⟨parseMarkdown_kind source options, children_of_bracketText options hsource hapart⟩

/-- Brackets in emphasis and in front of an address, and a line of brackets and words. -/
theorem unfinished_brackets_image :
    let tokens := tokenize "*![a]* [<http://b>".toList
    let nodes := (({} : InlineParser).parse lineStop { tokens := tokens.toArray }).1
    (∀ node ∈ treeNodes nodes, node.isBracketed {} tokens.toArray = false) ∧
      textsOf nodes = [['!', '[', 'a', ']'], [' ', '[']] ∧
      (parseMarkdown "![a] b[".toList).root.children =
        [Node.ofText "![a] b[".toList ⟨{}, ⟨0, 7, 7⟩⟩] := by
  intro tokens nodes
  obtain ⟨hparses, hlines⟩ := unfinished_brackets {}
  have htokens : Unfinished tokens := ⟨by decide +kernel, by decide +kernel, by decide +kernel⟩
  have hparsed := hparses tokens htokens { tokens := tokens.toArray } .fresh lineStop
  have hsource : "![a] b[".toList.all isBracketText = true := by decide
  have hline := hlines "![a] b[".toList (List.all_eq_true.1 hsource) (by decide +kernel)
  have htexts : textsOf nodes = [['!', '[', 'a', ']'], [' ', '[']] := by decide +kernel
  exact ⟨hparsed.1, htexts, hline.2⟩

end InlineMarkdown
