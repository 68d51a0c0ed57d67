import InlineMarkdown.Proofs.Normal

/-! What is switched off does not occur.

`InlineOptions.Admits` says of a node that its construct is switched on. The grammar asks for
the option wherever it makes a node (`Yields.admitted`); of a link that is no address it has to
be shown that it does not cover an address all the same, which it cannot, since it starts with a
bracket and no two tokens start at the same place (`eq_of_start_eq`). So whatever is in a
document is switched on (`parseMarkdown_admitted`). -/
namespace InlineMarkdown
open InlineParser

/-- The options have the construct of the node switched on. A link that covers an address is
that of the address. -/
def InlineOptions.Admits (options : InlineOptions) (source : List Char) (node : Node) : Prop :=
  match node.kind with
  | .strike => options.strikethrough = true
  | .footnote _ => options.footnotes = true
  | .citation _ => options.citations = true
  | .formula _ => options.formulas = true
  | .html _ => options.html = true
  | .image .. => options.images = true
  | .reference .. => options.links = true
  | .link .. =>
    (IsAddress source node.span → options.autolinks = true) ∧
      (¬ IsAddress source node.span → options.links = true)
  | _ => True

variable {source : List Char} {options : InlineOptions} {n room i j : Nat} {node : Node}
  {nodes : List Node}

/-! ### Places of tokens -/

/-- Two tokens that say something do not start at the same place. -/
theorem eq_of_start_eq {m : Nat} {first second : Token Kind}
    (hfirst : (tokenize source)[m]? = some first) (hsecond : (tokenize source)[n]? = some second)
    (heof : first.isEof = false) (heof' : second.isEof = false)
    (hstart : first.span.start = second.span.start) : m = n := by
  have hlt {m n : Nat} {first second : Token Kind} (hfirst : (tokenize source)[m]? = some first)
      (hsecond : (tokenize source)[n]? = some second) (heof : first.isEof = false)
      (hstart : first.span.start = second.span.start) : ¬ m < n := by
    intro hlt
    have hmem := List.mem_of_getElem? hfirst
    refine text_ne_nil hmem heof (text_eq_nil hmem ?_)
    rw [hstart, (tokenize_getElem? hfirst).1, (tokenize_getElem? hsecond).1]
    exact offset_markAt_le hlt
  have hle := hlt hfirst hsecond heof hstart
  have hge := hlt hsecond hfirst heof' hstart.symm
  omega

theorem spanSince_start {c : Cursor} {start : Nat} {first : Token Kind}
    (h : c.tokens[start]? = some first) : (c.spanSince start).start = first.span.start := by
  unfold Cursor.spanSince
  rw [h]
  dsimp only
  split <;> rfl

/-- Where a construct starts there is no address. -/
theorem not_isAddress {tokens : Array (Token Kind)} {kind : Kind} {frame : Frame} {e : Nat}
    {content : List Node} (htokens : tokens = ((tokenize source).drop n).toArray)
    (hkind : KindAt tokens i kind) (hframe : frame ∈ framesAt options kind)
    (hends : frame.Ends tokens i e content node) : ¬ IsAddress source node.span := by
  rintro ⟨address, hmem, haddress, hspan⟩
  obtain ⟨first, hfirst, rfl⟩ := hkind
  obtain ⟨_, _, -, rfl⟩ := hends
  have hplace : (tokenize source)[n + i]? = some first := by
    rw [htokens, List.getElem?_toArray, List.getElem?_drop] at hfirst
    exact hfirst
  obtain ⟨m, hm⟩ := List.getElem?_of_mem hmem
  have hstart : first.span.start = address.span.start := by
    rw [hspan]
    exact (spanSince_start (c := { tokens, position := e }) hfirst).symm
  have hopener : first.kind.isOpener = true :=
    isOpener_of_framesAt fun hnil => List.not_mem_nil (hnil ▸ hframe)
  have heof : first.isEof = false := by
    cases hkind : first.kind <;>
      simp [Kind.isOpener, Token.isEof, TokenKind.isEof, hkind] at hopener ⊢
  have heof' : address.isEof = false := by
    rcases haddress with hkind | hkind <;> simp [Token.isEof, TokenKind.isEof, hkind]
  obtain rfl := eq_of_start_eq hplace hm heof heof' hstart
  obtain rfl : first = address := Option.some.inj (hplace.symm.trans hm)
  rcases haddress with hkind | hkind <;> rw [hkind] at hopener <;> cases hopener

/-! ### What tokens yield -/

theorem admits_wrapper {marker : Marker} {used : Nat} {span : Span} {children : List Node}
    (hon : marker = .tilde → options.strikethrough = true) :
    options.Admits source ⟨marker.wrapper used, span, children⟩ := by
  rcases marker.wrapper_cases used with h | h | ⟨htilde, h⟩ <;> rw [h]
  · trivial
  · trivial
  · exact hon htilde

theorem Frame.Ends.admits {tokens : Array (Token Kind)} {start e : Nat} {kind : Kind}
    {frame : Frame} {content : List Node} (hframe : frame ∈ framesAt options kind)
    (h : frame.Ends tokens start e content node) (haddress : ¬ IsAddress source node.span) :
    options.Admits source node := by
  have hon := isOn_of_mem_framesAt hframe
  obtain ⟨_, _, hbuilds, rfl⟩ := h
  cases hbuilds with
  | link => exact ⟨fun h => absurd h haddress, fun _ => hon⟩
  | _ => exact hon

theorem Leaf.admits {token : Token Kind} (h : Leaf options token node)
    (htoken : token ∈ tokenize source) : ∀ n ∈ treeNodes [node], options.Admits source n := by
  cases h with
  | code => exact forall_mem_treeNodes_cons.2 ⟨trivial, nofun, nofun⟩
  | formula hon | html hon => exact forall_mem_treeNodes_cons.2 ⟨hon, nofun, nofun⟩
  | address hon hkind =>
    have haddress : IsAddress source token.span := ⟨token, htoken, hkind, rfl⟩
    exact forall_mem_treeNodes_cons.2 ⟨⟨fun _ => hon, fun h => absurd haddress h⟩,
      forall_mem_treeNodes_cons.2 ⟨trivial, nofun, nofun⟩, nofun⟩

/-- Whatever the tokens of a source yield is switched on, at every depth. -/
theorem Yields.admitted (h : YieldsFrom options source n room i j nodes) :
    ∀ node ∈ treeNodes nodes, options.Admits source node := by
  refine h.forall_nodes (fun _ _ _ => trivial) (fun htoken hleaf => ?_) admits_wrapper
    fun hkind hframe hclosing => ?_
  · exact hleaf.admits (List.mem_of_mem_drop (List.mem_toArray.1 (Array.mem_of_getElem? htoken)))
  · have hends := closing_ends hframe hclosing
    exact hends.admits hframe (not_isAddress rfl hkind hframe hends)

/-! ### Documents -/

/-- A construct that is switched off occurs nowhere in a document. -/
theorem parseMarkdown_admitted (source : List Char) (options : InlineOptions) :
    let root := (parseMarkdown source options).root
    ∀ node ∈ root :: root.descendants, options.Admits source node := by
  intro root
  have hkind : root.kind = .document := parseMarkdown_kind source options
  refine List.forall_mem_cons.2 ⟨?_, forall_descendants (fun _ => trivial) Yields.admitted⟩
  unfold InlineOptions.Admits
  rw [hkind]
  trivial

end InlineMarkdown
