import InlineMarkdown.Proofs.Canonical
import InlineMarkdown.Proofs.Enabled
import InlineMarkdown.Proofs.Endings
import InlineMarkdown.Proofs.Extraction

/-! What nodes carry is well formed.

A node carries texts beside its children: identifiers, targets, code. `Node.IsSound` says what
each kind of node may carry. The texts come from two sides. Those of a token on its own are cut
out of its lexeme, whose form the scanners guarantee (`Leaf.sound`); those of a construct at a
bracket are put together from any tokens, and checked by the closing before it makes the node
(`closing_sound`). Every node is the one or the other, so a document carries nothing else
(`parseMarkdown_sound`). -/
namespace InlineMarkdown
open Attempt InlineParser

/-- There is no white space in the text. -/
def Unspaced (text : List Char) : Prop := ∀ c ∈ text, isSpace c = false

/-- There is a kind of quote that is not in the title. -/
def Quotable (title : List Char) : Prop := ¬ ('"' ∈ title ∧ '\'' ∈ title)

/-- The texts that the node carries are such as the kind of node asks for. A link that covers an
address says the same three times: as its target, as its title and as its text. -/
def Node.IsSound (source : List Char) (node : Node) : Prop :=
  match node.kind with
  | .footnote identifier | .citation identifier => identifier ≠ [] ∧ Unspaced identifier
  | .reference identifier url title =>
    (∃ c ∈ identifier, isSpace c = false) ∧ url = [] ∧ title = []
  | .image url _ title => Unspaced url ∧ Quotable title
  | .link url title =>
    Unspaced url ∧ (¬ IsAddress source node.span → Quotable title) ∧
      (IsAddress source node.span →
        title = url ∧ url ≠ [] ∧ node.children = [Node.ofText url node.span])
  | .inlineCode code => code ≠ [] ∧ '\n' ∉ code
  | .formula formula => formula ≠ [] ∧ '\n' ∉ formula ∧ '$' ∉ formula
  | _ => True

variable {source : List Char} {options : InlineOptions} {kind : Kind} {n room i j q e : Nat}
  {node : Node} {content nodes : List Node}

/-! ### Lexemes -/

/-- The slice of a token that the scanners recognise as a whole, and how it came about. -/
theorem exists_scanned_text {token : Token Kind} (htoken : token ∈ tokenize source)
    (hkind : token.kind ≠ .text) (heof : token.kind ≠ .eof) :
    ∃ before c rest length, token.text = (c :: rest).take length ∧
      Scanned before c rest token.kind length := by
  obtain ⟨lexeme, hmem, hsame, htext⟩ := exists_lexeme htoken (beq_false_of_ne heof)
  obtain ⟨before, c, rest, length, -, hraw, -, hscanned⟩ := exists_scanned hmem
  refine ⟨before, c, rest, length, ?_, hsame ▸ hscanned⟩
  rcases lexeme.text_cases with ⟨c, -, hescape, -⟩ | ⟨-, hplain⟩
  · exact absurd (hsame.trans (kind_of_backslash hmem (by rw [hescape]; rfl))) hkind
  · rw [htext, hplain, hraw]

/-- What is left of padded code is not nothing. -/
theorem unpadded_ne_nil {inner : List Char} (h : isPadded inner = true) :
    (inner.drop 1).dropLast ≠ [] := by
  obtain ⟨code, rfl, c, hc, -⟩ := exists_of_isPadded h
  rw [List.drop_one, List.tail_cons, List.dropLast_concat]
  exact List.ne_nil_of_mem hc

theorem sound_code {token : Token Kind} (htoken : token ∈ tokenize source)
    (hkind : token.kind = .inlineCode) :
    stripFences token.text backtick ≠ [] ∧ '\n' ∉ stripFences token.text backtick := by
  obtain ⟨before, c, rest, length, htext, hscanned⟩ :=
    exists_scanned_text htoken (by simp [hkind]) (by simp [hkind])
  have hcode := hscanned.found.1 hkind
  rw [htext]
  have hline := codeSpan?_lineBound.not_mem codeSpan?_within hcode
  refine ⟨?_, fun h => hline ((stripFences_sublist _ _).subset h)⟩
  obtain ⟨n, inner, -, hne, hhead, htake⟩ := codeSpan?_spec hcode
  rw [htake, stripFences_fenced rfl hne hhead]
  split
  · rename_i hpadded
    exact unpadded_ne_nil (Bool.and_eq_true_iff.1 hpadded).2
  · exact hne

theorem sound_formula {token : Token Kind} (htoken : token ∈ tokenize source)
    (hkind : token.kind = .formula) :
    stripFences token.text '$' ≠ [] ∧ '\n' ∉ stripFences token.text '$' ∧
      '$' ∉ stripFences token.text '$' := by
  obtain ⟨before, c, rest, length, htext, hscanned⟩ :=
    exists_scanned_text htoken (by simp [hkind]) (by simp [hkind])
  obtain ⟨n, body, -, hne, hbody, htake⟩ := formula?_spec (hscanned.found.2.1 hkind)
  have hhead : body.head? ≠ some '$' := fun h => (hbody '$' (List.mem_of_head? h)).1 rfl
  rw [htext, htake, stripFences_fenced rfl hne hhead]
  exact ⟨hne, fun h => (hbody _ h).2 rfl, fun h => (hbody _ h).1 rfl⟩

theorem isSpace_of_isSchemeChar {c : Char} (h : isSchemeChar c = true) : isSpace c = false := by
  simp only [isSchemeChar, Bool.or_eq_true, beq_iff_eq] at h
  rcases h with ((h | rfl) | rfl) | rfl
  · exact isSpace_of_isAlphanum h
  all_goals rfl

theorem isSpace_of_isMailboxChar {c : Char} (h : isMailboxChar c = true) : isSpace c = false := by
  have hsigns : ".!#$%&'*+/=?^_\x60\x7b|\x7d~-".toList.all (!isSpace ·) = true := by decide
  simp only [isMailboxChar, Bool.or_eq_true, beq_iff_eq, or_assoc] at h
  rcases h with h | h
  · exact isSpace_of_isAlphanum h
  · simpa using List.all_eq_true.1 hsigns c (by simpa using h)

theorem unspaced_append {a b : List Char} : Unspaced (a ++ b) ↔ Unspaced a ∧ Unspaced b :=
  List.forall_mem_append

theorem IsAngleAddress.unspaced {address : List Char} (h : IsAngleAddress address) :
    Unspaced address := by
  have hsign {sign : Char} (hsign : isSpace sign = false) : Unspaced [sign] :=
    List.forall_mem_singleton.2 hsign
  cases h with
  | scheme hscheme hpath =>
    simp only [unspaced_append]
    exact ⟨⟨⟨⟨hsign rfl, fun c hc => isSpace_of_isSchemeChar (hscheme c hc)⟩, hsign rfl⟩,
      fun c hc => (hpath c hc).1⟩, hsign rfl⟩
  | mail hmailbox hhost =>
    simp only [unspaced_append]
    refine ⟨⟨⟨⟨hsign rfl, fun c hc => isSpace_of_isMailboxChar (hmailbox c hc)⟩, hsign rfl⟩,
      fun c hc => ?_⟩, hsign rfl⟩
    rcases hhost c hc with hletter | rfl | rfl
    · exact isSpace_of_isAlphanum hletter
    all_goals rfl

theorem isSpace_of_isUrlChar {c : Char} (h : isUrlChar c = true) : isSpace c = false := by
  simp only [isUrlChar, Bool.and_eq_true, Bool.not_eq_true'] at h
  exact h.1.1.1.1.1.1

theorem IsBareAddress.unspaced {address : List Char} (h : IsBareAddress address) :
    Unspaced address := by
  have hopenings : urlOpenings.all (·.all (!isSpace ·)) = true := by decide
  obtain ⟨hopening, hbody, hlast, -⟩ := h
  simp only [unspaced_append]
  refine ⟨⟨fun c hc => ?_, fun c hc => isSpace_of_isUrlChar (hbody c hc)⟩,
    List.forall_mem_singleton.2 (isSpace_of_isUrlChar hlast)⟩
  simpa using List.all_eq_true.1 (List.all_eq_true.1 hopenings _ hopening) c hc

/-- An address has no white space in it, with its brackets and without. -/
theorem unspaced_address {token : Token Kind} (htoken : token ∈ tokenize source)
    (hkind : token.kind = .autolink ∨ token.kind = .url) :
    Unspaced ((between? '<' '>' token.text).getD token.text) := by
  have hnot : token.kind ≠ .text ∧ token.kind ≠ .eof := by
    rcases hkind with hkind | hkind <;> simp [hkind]
  obtain ⟨before, c, rest, length, htext, hscanned⟩ := exists_scanned_text htoken hnot.1 hnot.2
  obtain ⟨-, -, hautolink, hurl⟩ := hscanned.found
  have hall : Unspaced token.text := by
    rw [htext]
    rcases hkind with hkind | hkind
    · exact (isAngleAddress_of_autolink? (hautolink hkind)).unspaced
    · exact (isBareAddress_of_url? (hurl hkind)).unspaced
  cases hbetween : between? '<' '>' token.text with
  | none => exact hall
  | some inner => exact fun c hc => hall c ((between?_sublist hbetween).subset hc)

/-! ### What tokens are on their own -/

theorem Leaf.sound {token : Token Kind} (h : Leaf options token node)
    (htoken : token ∈ tokenize source) : ∀ n ∈ treeNodes [node], n.IsSound source := by
  cases h with
  | code hkind => exact forall_mem_treeNodes_cons.2 ⟨sound_code htoken hkind, nofun, nofun⟩
  | formula _ hkind =>
    exact forall_mem_treeNodes_cons.2 ⟨sound_formula htoken hkind, nofun, nofun⟩
  | html => exact forall_mem_treeNodes_cons.2 ⟨trivial, nofun, nofun⟩
  | address _ hkind =>
    have haddress : IsAddress source token.span := ⟨token, htoken, hkind, rfl⟩
    have hlink : (addressLink token).IsSound source :=
      ⟨unspaced_address htoken hkind, fun hnot => absurd haddress hnot,
        fun _ => ⟨rfl, target_ne_nil (length_text_address htoken hkind), rfl⟩⟩
    exact forall_mem_treeNodes_cons.2
      ⟨hlink, forall_mem_treeNodes_cons.2 ⟨trivial, nofun, nofun⟩, nofun⟩

/-! ### What constructs are made of -/

/-- A title that is read was in quotes of a kind that is not in it. -/
theorem quotable_of_splitDestination? {raw url title : List Char}
    (h : splitDestination? raw = some (url, title)) : Quotable title := by
  unfold splitDestination? at h
  dsimp only at h
  split at h
  · rename_i hread
    obtain ⟨_, -, hsame⟩ := Option.map_eq_some_iff.1 h
    obtain ⟨_, quote, -, -, -, hquote, hnot⟩ := quotedTitle?_eq_some_iff.1 hread
    rw [← (Prod.mk.inj hsame).2]
    rintro ⟨hdouble, hsingle⟩
    rcases hquote with rfl | rfl
    · exact hnot hdouble
    · exact hnot hsingle
  · obtain ⟨_, -, hsame⟩ := Option.map_eq_some_iff.1 h
    rw [← (Prod.mk.inj hsame).2]
    exact fun hboth => List.not_mem_nil hboth.1

section Closings
variable {tokens : Array (Token Kind)} {frame : Frame}

theorem destination_sound {url title : List Char}
    (h : destination.view tokens q = (some (url, title), e)) : Unspaced url ∧ Quotable title := by
  obtain ⟨_, _, -, h⟩ := view_bind_eq_some (expect_moves _) h
  obtain ⟨raw, _, -, h⟩ := view_bind_eq_some (rawUntil_moves _) h
  obtain ⟨_, _, -, h⟩ := view_bind_eq_some (expect_moves _) h
  have hsplit : splitDestination? raw = some (url, title) := congrArg Prod.fst h
  exact ⟨isSpace_of_splitDestination? hsplit, quotable_of_splitDestination? hsplit⟩

theorem exists_of_referenceName? {label name : List Char}
    (h : referenceName? label content = some name) : ∃ c ∈ name, isSpace c = false := by
  obtain ⟨hblank, hname⟩ := Option.ite_none_left_eq_some.1 h
  rw [trim_isEmpty, Option.some.inj hname] at hblank
  simpa using hblank

/-- A closing makes a node only if what the node is to carry is well formed. -/
theorem closing_sound (hframe : frame ∈ framesAt options kind)
    (h : (frame.closing i content).view tokens q = (some node, e))
    (haddress : ¬ IsAddress source node.span) : node.IsSound source := by
  rcases framesAt_cases hframe with rfl | rfl | rfl | rfl
  · obtain ⟨_, _, -, h⟩ := view_bind_eq_some (expect_moves _) h
    obtain ⟨⟨url, title⟩, _, htarget, h⟩ := view_bind_eq_some destination_moves h
    rw [view_nodeSince h]
    exact destination_sound htarget
  · obtain ⟨word, _, hword, h⟩ := view_bind_eq_some (identifier_moves _) h
    rw [view_nodeSince h]
    exact (identifier_eq_some hword).2
  · obtain ⟨word, _, hword, h⟩ := view_bind_eq_some (identifier_moves _) h
    rw [view_nodeSince h]
    exact (identifier_eq_some hword).2
  · obtain ⟨_, _, -, h⟩ := view_bind_eq_some (expect_moves _) h
    obtain ⟨isParen, _, -, h⟩ := view_bind_eq_some (Moves.look fun _ => rfl) h
    cases isParen with
    | true =>
      obtain ⟨⟨url, title⟩, _, htarget, h⟩ := view_bind_eq_some destination_moves h
      obtain ⟨hurl, htitle⟩ := destination_sound htarget
      rw [view_nodeSince h] at haddress ⊢
      exact ⟨hurl, fun _ => htitle, fun h => absurd h haddress⟩
    | false =>
      obtain ⟨_, _, -, h⟩ := view_bind_eq_some (expect_moves _) h
      obtain ⟨label, _, -, h⟩ := view_bind_eq_some (rawUntil_moves _) h
      obtain ⟨_, _, -, h⟩ := view_bind_eq_some (expect_moves _) h
      obtain ⟨name, _, hname, h⟩ := view_bind_eq_some (Moves.ofOption _) h
      have hread : referenceName? label content = some name := congrArg Prod.fst hname
      rw [view_nodeSince h]
      exact ⟨exists_of_referenceName? hread, rfl, rfl⟩

end Closings

/-! ### Documents -/

theorem sound_wrapper {marker : Marker} {used : Nat} {span : Span} {children : List Node} :
    Node.IsSound source ⟨marker.wrapper used, span, children⟩ := by
  rcases marker.wrapper_cases used with h | h | ⟨-, h⟩ <;> rw [h] <;> trivial

/-- Whatever the tokens of a source yield is well formed, at every depth. -/
theorem Yields.sound (h : YieldsFrom options source n room i j nodes) :
    ∀ node ∈ treeNodes nodes, node.IsSound source :=
  h.forall_nodes (fun _ _ _ => trivial)
    (fun htoken hleaf =>
      hleaf.sound (List.mem_of_mem_drop (List.mem_toArray.1 (Array.mem_of_getElem? htoken))))
    (fun _ => sound_wrapper)
    fun hkind hframe hclosing => closing_sound hframe hclosing
      (not_isAddress rfl hkind hframe (closing_ends hframe hclosing))

/-- What the nodes of a document carry is well formed. The identifier of a footnote or a citation
is a word; that of a reference is not blank, and a reference has neither target nor title. The
target of a link or an image has no white space in it, and its title not both kinds of quotes,
unless the link is that of an address, which is its target, its title and its only text alike and
is not empty. Code and formulas are not empty and on one line, and in formulas there is no dollar
sign. -/
theorem parseMarkdown_sound (source : List Char) (options : InlineOptions) :
    let root := (parseMarkdown source options).root
    ∀ node ∈ root :: root.descendants, node.IsSound source := by
  intro root
  have hkind : root.kind = .document := parseMarkdown_kind source options
  refine List.forall_mem_cons.2 ⟨?_, forall_descendants (fun _ => trivial) Yields.sound⟩
  unfold Node.IsSound
  rw [hkind]
  trivial

end InlineMarkdown
