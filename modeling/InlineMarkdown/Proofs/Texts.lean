import InlineMarkdown.Proofs.Lines
import InlineMarkdown.Proofs.Lossless
import InlineMarkdown.Proofs.Pending

/-! Texts say what their tokens say.

The nodes of a line are yielded by its tokens (`Lines.yields`), and so is what is below any of
them, except for the link of an address. So the text of a text node is that of a stretch of
tokens, which are the ones inside its span: every other token lies apart from it
(`Node.Literally`). Nothing of a run that is never closed or of a bracket that matches
nothing is lost. -/
namespace InlineMarkdown

variable {source : List Char} {options : InlineOptions} {n : Nat} {node : Node} {nodes : List Node}

/-! ### Lines and the grammar -/

/-- The grammar over the tokens of a source from one of them on. -/
abbrev YieldsFrom (options : InlineOptions) (source : List Char) (n room i j : Nat)
    (nodes : List Node) : Prop :=
  Yields options ((tokenize source).drop n).toArray (fun p place => place = markAt source (n + p))
    room i j nodes

/-- A line is yielded by the tokens it passes, with room for 64 levels. -/
theorem lineOf_yields (options : InlineOptions) (source : List Char) (n : Nat) :
    YieldsFrom options source n 64 0 (lineOf options ((tokenize source).drop n)).2.position
      (lineOf options ((tokenize source).drop n)).1 :=
  (InlineParser.atRoom_yields { options } (laid_tokenize source n).milestones 64 lineStop
    { tokens := ((tokenize source).drop n).toArray } rfl (Nat.zero_le _)).1

theorem Yields.of_mem {tokens : Array (Token Kind)} {stands : Nat → Position → Prop}
    {room i j : Nat} (h : Yields options tokens stands room i j nodes) (hnode : node ∈ nodes) :
    ∃ p q, Yields options tokens stands room p q [node] := by
  obtain ⟨front, behind, rfl⟩ := List.append_of_mem hnode
  obtain ⟨p, -, hrest⟩ := h.split
  obtain ⟨q, hself, -⟩ := hrest.uncons
  exact ⟨p, q, hself⟩

/-- What the tokens of a source become line by line is breaks and what its tokens yield. -/
theorem Lines.yields {queue : List (Token Kind)} (h : Lines options queue nodes)
    (hqueue : queue = (tokenize source).drop n) : ∀ node ∈ nodes,
      (∃ token ∈ tokenize source, token.kind = .newline ∧ node = ⟨.softBreak, token.span, []⟩) ∨
        ∃ n i j, YieldsFrom options source n 64 i j [node] := by
  induction h generalizing n with
  | done => exact nofun
  | @softBreak token rest nodes hkind _ ih =>
    have hmem : token ∈ tokenize source :=
      List.mem_of_mem_drop (hqueue ▸ List.mem_cons_self)
    have hrest : rest = (tokenize source).drop (n + 1) := by
      rw [← List.tail_drop, ← hqueue, List.tail_cons]
    exact List.forall_mem_cons.2 ⟨.inl ⟨token, hmem, hkind, rfl⟩, ih hrest⟩
  | line _ _ _ _ ih =>
    subst hqueue
    refine List.forall_mem_append.2 ⟨fun node hnode => .inr ⟨n, ?_⟩, ih (by rw [List.drop_drop])⟩
    exact (lineOf_yields options source n).of_mem hnode

/-- What holds of breaks and of all that the tokens of the source yield holds of every node of its
document but the root. -/
theorem forall_descendants {P : Node → Prop} (hbreak : ∀ span, P ⟨.softBreak, span, []⟩)
    (hyields : ∀ {n room i j : Nat} {nodes : List Node}, YieldsFrom options source n room i j nodes →
      ∀ node ∈ treeNodes nodes, P node) :
    ∀ node ∈ (parseMarkdown source options).root.descendants, P node := by
  intro node hnode
  rw [Node.descendants_eq] at hnode
  obtain ⟨child, hchild, hbelow⟩ := mem_treeNodes.1 hnode
  rcases (lines_parseMarkdown source options).yields (n := 0) rfl child hchild with
    ⟨token, -, -, rfl⟩ | ⟨n, i, j, hyield⟩
  · rcases hbelow with rfl | hbelow
    · exact hbreak token.span
    · cases hbelow
  · exact hyields hyield node (mem_treeNodes.2 ⟨child, List.mem_singleton.2 rfl, hbelow⟩)

/-! ### Tokens inside a span -/

/-- The token lies inside the span. -/
def Span.holds (span : Span) (token : Token Kind) : Bool :=
  span.start.offset ≤ token.span.start.offset && token.span.stop.offset ≤ span.stop.offset

/-- The token lies in front of the span or behind it. -/
def Span.misses (span : Span) (token : Token Kind) : Bool :=
  token.span.stop.offset ≤ span.start.offset || span.stop.offset ≤ token.span.start.offset

/-- The text of the node is what the tokens inside its span say, one after the other, and every
other token lies apart from it. Where these tokens are no escapes, that is what the source
reads there. -/
structure Node.Literally (source : List Char) (node : Node) : Prop where
  text : node.ownText = ((tokenize source).filter node.span.holds).flatMap (·.text)
  whole : ∀ token ∈ tokenize source, node.span.holds token = true ∨ node.span.misses token = true
  verbatim : (∀ token ∈ tokenize source, node.span.holds token = true →
      Slice source token.span.start token.span.stop token.text) →
    Slice source node.span.start node.span.stop node.ownText

theorem Slice.unique {p q : Position} {text text' : List Char} (h : Slice source p q text)
    (h' : Slice source p q text') : text = text' := by
  obtain ⟨before, after, hsource, hp, hq⟩ := h
  obtain ⟨before', after', hsource', hp', hq'⟩ := h'
  have hstart := congrArg Position.offset (hp.symm.trans hp')
  have hstop := congrArg Position.offset (hq.symm.trans hq')
  simp only [Position.advance_offset, Nat.zero_add, Nat.add_left_cancel_iff] at hstart hstop
  have hbefore := append_inj_of_byteLength (hsource.symm.trans hsource') hstart
  rw [hsource, hbefore, List.append_cancel_left_eq] at hsource'
  exact append_inj_of_byteLength hsource' hstop

/-- A token of one character reads and says that character. -/
theorem reads_of_ofChar? {token : Token Kind} {c : Char} (h : token ∈ tokenize source)
    (hc : Kind.ofChar? c = some token.kind) :
    token.text = [c] ∧ Slice source token.span.start token.span.stop [c] := by
  obtain ⟨n, hn⟩ := List.getElem?_of_mem h
  obtain ⟨hspan, hchar⟩ := tokenize_getElem? hn
  have hslice : Slice source token.span.start token.span.stop [c] := by
    rw [hspan]
    exact hchar c hc
  refine ⟨?_, hslice⟩
  obtain ⟨body, htokens, hbody⟩ := tokenize_eq source
  rw [htokens] at h
  rcases List.mem_append.1 h with h | h
  · obtain ⟨-, raw, -, hraw, hreads⟩ := hbody token h
    obtain rfl := hraw.unique hslice
    rcases hreads with ⟨_, _, hescape, _⟩ | ⟨-, htext⟩
    · cases hescape
    · exact htext
  · obtain rfl := List.mem_singleton.1 h
    exact absurd hc (ofChar?_ne_eof c)

/-- The tokens of a source are literal as they are. -/
theorem literal_eq_text {token : Token Kind} (h : token ∈ tokenize source) :
    token.literal = token.text := by
  by_cases hmarker : ∃ marker : Marker, token.kind = marker.kind
  · obtain ⟨marker, hkind⟩ := hmarker
    have hchar := marker.ofChar?_char
    rw [← hkind] at hchar
    rw [Token.literal_of_marker hkind, (reads_of_ofChar? h hchar).1]
  · exact Token.literal_of_ne fun marker hkind => hmarker ⟨marker, hkind⟩

theorem offset_markAt_le {m n : Nat} (h : m ≤ n) :
    (markAt source m).offset ≤ (markAt source n).offset := by
  rw [(slice_markAt source h).stop_eq, Position.advance_offset]
  exact Nat.le_add_right _ _

/-- A token without extent says nothing. -/
theorem text_eq_nil {token : Token Kind} (h : token ∈ tokenize source)
    (hextent : token.span.stop.offset ≤ token.span.start.offset) : token.text = [] := by
  obtain ⟨body, htokens, hbody⟩ := tokenize_eq source
  rw [htokens] at h
  rcases List.mem_append.1 h with h | h
  · obtain ⟨-, raw, hraw, hslice, -⟩ := hbody token h
    rw [hslice.stop_eq, Position.advance_offset] at hextent
    exact absurd (eq_nil_of_byteLength_eq_zero (by omega)) hraw
  · obtain rfl := List.mem_singleton.1 h
    rfl

/-! ### Spans from mark to mark -/

section Between
variable {m n : Nat} {span : Span}

/-- Tokens between the marks are inside the span, and all others lie apart from it. -/
theorem holds_or_misses (hstart : span.start = markAt source m) (hstop : span.stop = markAt source n)
    {p : Nat} {token : Token Kind} (htoken : (tokenize source)[p]? = some token) :
    (m ≤ p → p < n → span.holds token = true) ∧ (p < m ∨ n ≤ p → span.misses token = true) := by
  have hspan := (tokenize_getElem? htoken).1
  simp only [Span.holds, Span.misses, hspan, hstart, hstop, Bool.and_eq_true, Bool.or_eq_true,
    decide_eq_true_eq]
  exact ⟨fun hm hn => ⟨offset_markAt_le hm, offset_markAt_le hn⟩,
    Or.imp (fun h => offset_markAt_le h) fun h => offset_markAt_le h⟩

/-- What is both inside a span and apart from it says nothing. -/
theorem flatMap_filter_of_misses {tokens : List (Token Kind)}
    (h : ∀ token ∈ tokens, token ∈ tokenize source ∧ span.misses token = true) :
    (tokens.filter span.holds).flatMap (·.text) = [] := by
  rw [List.flatMap_eq_nil_iff]
  intro token htoken
  obtain ⟨hmem, hholds⟩ := List.mem_filter.1 htoken
  obtain ⟨hsource, hmisses⟩ := h token hmem
  apply text_eq_nil hsource
  simp only [Span.holds, Span.misses, Bool.and_eq_true, Bool.or_eq_true, decide_eq_true_eq]
    at hholds hmisses
  omega

/-- The tokens inside the span say what those between the marks say. -/
theorem texts_inside (hle : m ≤ n) (hstart : span.start = markAt source m)
    (hstop : span.stop = markAt source n) :
    ((tokenize source).filter span.holds).flatMap (·.text) =
      (((tokenize source).drop m).take (n - m)).flatMap (·.text) := by
  have hsplit : tokenize source = (tokenize source).take m ++
      (((tokenize source).drop m).take (n - m) ++ (tokenize source).drop n) := by
    have hdrop : (tokenize source).drop n = ((tokenize source).drop m).drop (n - m) := by
      rw [List.drop_drop, Nat.add_sub_cancel' hle]
    rw [hdrop, List.take_append_drop, List.take_append_drop]
  have hfront : ∀ token ∈ (tokenize source).take m,
      token ∈ tokenize source ∧ span.misses token = true := by
    intro token htoken
    obtain ⟨p, hp⟩ := List.getElem?_of_mem htoken
    rw [List.getElem?_take, Option.ite_none_right_eq_some] at hp
    obtain ⟨hlt, hp⟩ := hp
    exact ⟨List.mem_of_getElem? hp, (holds_or_misses hstart hstop hp).2 (.inl hlt)⟩
  have hbehind : ∀ token ∈ (tokenize source).drop n,
      token ∈ tokenize source ∧ span.misses token = true := by
    intro token htoken
    obtain ⟨p, hp⟩ := List.getElem?_of_mem htoken
    rw [List.getElem?_drop] at hp
    exact ⟨List.mem_of_getElem? hp,
      (holds_or_misses hstart hstop hp).2 (.inr (Nat.le_add_right n p))⟩
  have hinside : ∀ token ∈ ((tokenize source).drop m).take (n - m), span.holds token = true := by
    intro token htoken
    obtain ⟨p, hp⟩ := List.getElem?_of_mem htoken
    rw [List.getElem?_take, Option.ite_none_right_eq_some] at hp
    obtain ⟨hlt, hp⟩ := hp
    rw [List.getElem?_drop] at hp
    exact (holds_or_misses hstart hstop hp).1 (Nat.le_add_right m p) (by omega)
  conv => lhs; rw [hsplit]
  rw [List.filter_append, List.filter_append, List.flatMap_append, List.flatMap_append,
    flatMap_filter_of_misses hfront, flatMap_filter_of_misses hbehind,
    List.filter_eq_self.2 hinside, List.nil_append, List.append_nil]

/-- Where the tokens between the marks are no escapes, the source reads what they say. -/
theorem slice_between (hle : m ≤ n) (hn : n ≤ (tokenize source).length)
    (h : ∀ token ∈ ((tokenize source).drop m).take (n - m),
      Slice source token.span.start token.span.stop token.text) :
    Slice source (markAt source m) (markAt source n)
      ((((tokenize source).drop m).take (n - m)).flatMap (·.text)) := by
  obtain ⟨k, rfl⟩ := Nat.exists_eq_add_of_le hle
  rw [Nat.add_sub_cancel_left] at h ⊢
  induction k with
  | zero => exact (slice_markAt source (Nat.le_refl m)).point
  | succ k ih =>
    obtain ⟨token, htoken⟩ : ∃ token, (tokenize source)[m + k]? = some token :=
      ⟨_, List.getElem?_eq_getElem (by omega)⟩
    have hlast : ((tokenize source).drop m)[k]? = some token := by rwa [List.getElem?_drop]
    rw [List.take_add_one, hlast] at h ⊢
    rw [List.flatMap_append]
    refine (ih (Nat.le_add_right m k) (by omega)
      fun t ht => h t (List.mem_append_left _ ht)).append ?_
    have hslice := h token (by simp)
    rw [(tokenize_getElem? htoken).1] at hslice
    simpa [Nat.add_assoc] using hslice

end Between

/-! ### Texts of a document -/

/-- A text that is yielded says what its tokens say. -/
theorem Yields.literally {room i j : Nat} (h : YieldsFrom options source n room i j [node])
    (htext : node.isText = true) : node.Literally source := by
  obtain ⟨k, hlt, hle, -, hstart, hstop, hnode, -⟩ := h.uncons_text htext
  have hlength : n + k ≤ (tokenize source).length := by
    rw [List.size_toArray, List.length_drop] at hle
    omega
  have hmarks : n + i ≤ n + k := Nat.add_le_add_left (Nat.le_of_lt hlt) n
  have hown : node.ownText =
      (((tokenize source).drop (n + i)).take (n + k - (n + i))).flatMap (·.text) := by
    rw [hnode]
    show literal _ i k = _
    unfold literal
    rw [List.drop_drop, Nat.add_sub_add_left]
    apply List.flatMap_congr
    intro token htoken
    exact literal_eq_text (List.mem_of_mem_drop (List.mem_of_mem_take htoken))
  refine ⟨by rw [hown, texts_inside hmarks hstart hstop], fun token htoken => ?_, fun h => ?_⟩
  · obtain ⟨p, hp⟩ := List.getElem?_of_mem htoken
    obtain ⟨hholds, hmisses⟩ := holds_or_misses hstart hstop hp
    by_cases hinside : n + i ≤ p ∧ p < n + k
    · exact .inl (hholds hinside.1 hinside.2)
    · exact .inr (hmisses (by omega))
  · rw [hown, hstart, hstop]
    refine slice_between hmarks hlength fun token htoken => ?_
    obtain ⟨p, hp⟩ := List.getElem?_of_mem htoken
    rw [List.getElem?_take, Option.ite_none_right_eq_some, List.getElem?_drop] at hp
    have hholds := (holds_or_misses hstart hstop hp.2).1 (Nat.le_add_right _ p) (by omega)
    exact h token (List.mem_of_getElem? hp.2) hholds

/-- The node is the link of an address in the source. -/
def Node.IsAddressLink (source : List Char) (node : Node) : Prop :=
  (∃ url title, node.kind = .link url title) ∧ IsAddress source node.span

theorem isAddressLink_addressLink {token : Token Kind} (h : token ∈ tokenize source)
    (hkind : token.kind = .autolink ∨ token.kind = .url) :
    (InlineParser.addressLink token).IsAddressLink source :=
  ⟨⟨_, _, rfl⟩, token, h, hkind, rfl⟩

/-- Texts directly below a node of a line say what their tokens say. -/
theorem Yields.children_literally {room i j : Nat} (h : YieldsFrom options source n room i j nodes)
    {parent child : Node} (hparent : parent ∈ treeNodes nodes)
    (haddress : ¬ parent.IsAddressLink source) (hchild : child ∈ parent.children)
    (htext : child.isText = true) : child.Literally source := by
  cases h.derived parent hparent with
  | yields hbelow =>
    obtain ⟨p, q, hself⟩ := hbelow.of_mem hchild
    exact hself.literally htext
  | address htoken hkind hlink =>
    have hmem := List.mem_of_mem_drop (List.mem_toArray.1 (Array.mem_of_getElem? htoken))
    exact absurd (hlink ▸ isAddressLink_addressLink hmem hkind) haddress

/-- Every text of a document, at any depth, says exactly what the tokens inside its span say, in
order, and no token is inside its span in part only. The text of an address alone is not meant,
which leaves out the brackets around it. Delimiters, brackets and parentheses, which are all
that a run left open or a bracket without a match consists of, say what the source reads. -/
theorem parseMarkdown_texts (source : List Char) (options : InlineOptions) :
    let root := (parseMarkdown source options).root
    (∀ parent ∈ root :: root.descendants, ¬ parent.IsAddressLink source →
      ∀ child ∈ parent.children, child.isText = true → child.Literally source) ∧
      ∀ token ∈ tokenize source, (∃ c, Kind.ofChar? c = some token.kind) →
        Slice source token.span.start token.span.stop token.text := by
  intro root
  have hlines := (lines_parseMarkdown source options).yields (n := 0) rfl
  refine ⟨List.forall_mem_cons.2 ⟨fun _ child hchild htext => ?_, ?_⟩, ?_⟩
  · rcases hlines child hchild with ⟨_, -, -, rfl⟩ | ⟨n, i, j, hyields⟩
    · cases htext
    · exact hyields.literally htext
  · intro parent hparent haddress child hchild htext
    rw [root.descendants_eq] at hparent
    obtain ⟨top, htop, hbelow⟩ := mem_treeNodes.1 hparent
    rcases hlines top htop with ⟨_, -, -, rfl⟩ | ⟨n, i, j, hyields⟩
    · rcases hbelow with rfl | hbelow
      · cases hchild
      · cases hbelow
    · have hmem : parent ∈ treeNodes [top] := mem_treeNodes.2 ⟨top, List.mem_singleton.2 rfl, hbelow⟩
      exact hyields.children_literally hmem haddress hchild htext
  · rintro token htoken ⟨c, hc⟩
    obtain ⟨htext, hslice⟩ := reads_of_ofChar? htoken hc
    rwa [htext]

end InlineMarkdown
