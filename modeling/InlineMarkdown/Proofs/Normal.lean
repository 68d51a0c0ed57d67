import InlineMarkdown.Proofs.Clean
import InlineMarkdown.Proofs.Document
import InlineMarkdown.Proofs.Scan
import InlineMarkdown.Proofs.Texts

/-! Documents are in normal form.

Joining leaves no two texts next to each other within a line, and between lines there are
breaks (`Lines.separate`). What tokens yield is inline, says something where it is text, and
has nothing below it where it is a leaf (`Yields.inline`); what a pair of runs wraps is never
nothing, as `parseMarkdown_placed` has it. So every node of a document is in normal form
(`parseMarkdown_normal`). -/
namespace InlineMarkdown

/-! ### Kinds of nodes -/

/-- A node of this kind has nothing below it. -/
def NodeKind.isLeaf : NodeKind → Bool
  | .text _ | .inlineCode _ | .formula _ | .html _ | .image .. | .footnote _ | .citation _
  | .softBreak => true
  | _ => false

/-- A node of this kind stands for a pair of runs around something. -/
def NodeKind.isWrapper : NodeKind → Bool
  | .emphasis | .strong | .strike => true
  | _ => false

/-- The node and its children are as every node of a document is. -/
structure Node.IsNormal (node : Node) : Prop where
  apart : Apart node.children
  text : ∀ text, node.kind = .text text → text ≠ []
  leaf : node.kind.isLeaf = true → node.children = []
  wrapper : node.kind.isWrapper = true → node.children ≠ []

variable {source : List Char} {options : InlineOptions} {n room i j : Nat} {node : Node}
  {nodes : List Node}

/-! ### Lines are apart -/

/-- Where a line has to end there is a break or nothing more. -/
theorem Lines.head_isText {queue : List (Token Kind)} (h : Lines options queue nodes)
    (hstop : ∀ token ∈ queue.head?, token.kind ∈ lineStop) :
    ∀ next ∈ nodes.head?, next.isText = false := by
  cases h with
  | done => exact nofun
  | softBreak =>
    intro next hnext
    obtain rfl := Option.some.inj hnext
    rfl
  | line hfront heof hkind =>
    rcases List.mem_cons.1 (hstop _ hfront) with hnewline | hend
    · exact absurd hnewline hkind
    · exact absurd (isEof_iff.2 (List.mem_singleton.1 hend)) (ne_true_of_eq_false heof)

/-- Behind a line stands the end of one. -/
theorem lineOf_stops (options : InlineOptions) (queue : List (Token Kind)) :
    ∀ token ∈ (queue.drop (lineOf options queue).2.position).head?, token.kind ∈ lineStop :=
  pastLine_stops options { queue, node := Node.emptyDocument }

theorem lineOf_separate (options : InlineOptions) (queue : List (Token Kind)) :
    Separate (lineOf options queue).1 :=
  coalesce_separate _

/-- No two texts are next to each other, neither in a line nor between lines. -/
theorem Lines.separate {queue : List (Token Kind)} (h : Lines options queue nodes) :
    Separate nodes := by
  induction h with
  | done => exact .nil
  | softBreak _ _ ih => exact separate_cons.2 ⟨fun _ _ => .inl rfl, .nil, ih⟩
  | line _ _ _ hrest ih =>
    exact (lineOf_separate options _).append ih (hrest.head_isText (lineOf_stops options _))

/-! ### What tokens yield -/

/-- The node may be part of a line. -/
structure Node.IsInline (node : Node) : Prop where
  kind : node.kind ≠ .document ∧ node.kind ≠ .softBreak
  text : ∀ text, node.kind = .text text → text ≠ []
  leaf : node.kind.isLeaf = true → node.children = []

/-- Every token but the last is a lexeme. -/
theorem exists_lexeme {token : Token Kind} (h : token ∈ tokenize source)
    (heof : token.isEof = false) :
    ∃ lexeme ∈ lexemes source, token.kind = lexeme.kind ∧ token.text = lexeme.text := by
  obtain ⟨body, hplace, hbody⟩ := place_eq {} (lexemes source)
  unfold tokenize at h
  rw [hplace] at h
  rcases List.mem_append.1 h with h | h
  · obtain ⟨front, lexeme, behind, hsplit, rfl⟩ := hbody token h
    exact ⟨lexeme, hsplit ▸ by simp, rfl, rfl⟩
  · obtain rfl := List.mem_singleton.1 h
    cases heof

theorem text_ne_nil {token : Token Kind} (h : token ∈ tokenize source)
    (heof : token.isEof = false) : token.text ≠ [] := by
  obtain ⟨lexeme, hmem, -, htext⟩ := exists_lexeme h heof
  rw [htext]
  rcases lexeme.text_cases with ⟨c, -, -, hescape⟩ | ⟨-, hraw⟩
  · rw [hescape]
    exact List.cons_ne_nil c []
  · rw [hraw]
    exact raw_ne_nil hmem

/-- An address says three characters at least. -/
theorem length_text_address {token : Token Kind} (h : token ∈ tokenize source)
    (hkind : token.kind = .autolink ∨ token.kind = .url) : 3 ≤ token.text.length := by
  have heof : token.isEof = false := by
    rcases hkind with hkind | hkind <;> simp [Token.isEof, TokenKind.isEof, hkind]
  obtain ⟨lexeme, hmem, hlexeme, htext⟩ := exists_lexeme h heof
  rw [hlexeme] at hkind
  rw [htext]
  rcases lexeme.text_cases with ⟨c, -, hescape, -⟩ | ⟨-, hraw⟩
  · have htext := kind_of_backslash hmem (by rw [hescape]; rfl)
    rw [htext] at hkind
    rcases hkind with hkind | hkind <;> cases hkind
  · rw [hraw]
    exact length_address hmem hkind

theorem isInline_text {text : List Char} (h : text ≠ []) (span : Span) :
    (Node.ofText text span).IsInline where
  kind := ⟨nofun, nofun⟩
  text own hown := by
    obtain rfl := NodeKind.text.inj hown
    exact h
  leaf _ := rfl

/-- Without the brackets around it an address still says something. -/
theorem target_ne_nil {text : List Char} (h : 3 ≤ text.length) :
    (between? '<' '>' text).getD text ≠ [] := by
  cases text with
  | nil => cases h
  | cons c inner =>
    unfold between?
    dsimp only
    split
    · rw [Option.getD_some, ← List.length_pos_iff, List.length_dropLast]
      simp only [List.length_cons] at h
      omega
    · exact List.cons_ne_nil c inner

/-- The link of an address and its text may be part of a line. -/
theorem isInline_addressLink {token : Token Kind} (h : token ∈ tokenize source)
    (hkind : token.kind = .autolink ∨ token.kind = .url) :
    ∀ node ∈ treeNodes [InlineParser.addressLink token], node.IsInline := by
  have hurl := target_ne_nil (length_text_address h hkind)
  exact forall_mem_treeNodes_cons.2 ⟨⟨⟨nofun, nofun⟩, nofun, nofun⟩,
    forall_mem_treeNodes_cons.2 ⟨isInline_text hurl _, nofun, nofun⟩, nofun⟩

theorem isInline_wrapper {marker : Marker} {used : Nat} {span : Span} {children : List Node} :
    Node.IsInline ⟨marker.wrapper used, span, children⟩ := by
  rcases marker.wrapper_cases used with h | h | ⟨-, h⟩ <;>
  · rw [h]
    exact ⟨⟨nofun, nofun⟩, nofun, nofun⟩

theorem Frame.Ends.isInline {frame : Frame} {tokens : Array (Token Kind)} {start e : Nat}
    {content : List Node} (h : frame.Ends tokens start e content node) : node.IsInline := by
  obtain ⟨_, _, hbuilds, rfl⟩ := h
  cases hbuilds with
  | link | reference => exact ⟨⟨nofun, nofun⟩, nofun, nofun⟩
  | _ => exact ⟨⟨nofun, nofun⟩, nofun, fun _ => rfl⟩

/-- Whatever the tokens of a source yield may be part of a line, at every depth. -/
theorem Yields.inline (h : YieldsFrom options source n room i j nodes) :
    ∀ node ∈ treeNodes nodes, node.IsInline := by
  have hmem {p : Nat} {token : Token Kind}
      (htoken : ((tokenize source).drop n).toArray[p]? = some token) : token ∈ tokenize source :=
    List.mem_of_mem_drop (List.mem_toArray.1 (Array.mem_of_getElem? htoken))
  refine h.forall_nodes (@fun i j span hlt hle heof => isInline_text ?_ span)
    (fun htoken hleaf => ?_) (fun _ => isInline_wrapper)
    fun _ hframe hclosing => (InlineParser.closing_ends hframe hclosing).isInline
  · -- The first of the tokens says something already.
    have htoken := Array.getElem?_eq_getElem (Nat.lt_of_lt_of_le hlt hle)
    have hfirst := text_ne_nil (hmem htoken) (heof i (Nat.le_refl i) hlt _ htoken)
    rw [← literal_append (Nat.le_succ i) hlt, literal_succ htoken, literal_eq_text (hmem htoken)]
    exact List.append_ne_nil_of_left_ne_nil hfirst _
  · cases hleaf with
    | address _ hkind => exact isInline_addressLink (hmem htoken) hkind
    | _ => exact forall_mem_treeNodes_cons.2 ⟨⟨⟨nofun, nofun⟩, nofun, fun _ => rfl⟩, nofun, nofun⟩

/-! ### Documents -/

/-- What a pair of runs wraps is not nothing. -/
theorem Placed.children_ne_nil (h : Placed source node) (hkind : node.kind.isWrapper = true) :
    node.children ≠ [] := by
  have hframed := h.framed
  generalize node.kind = kind at hframed hkind
  cases kind with
  | emphasis | strong => exact hframed.elim (·.1) (·.1)
  | strike =>
    obtain ⟨_, -, hwrapped⟩ := hframed
    exact hwrapped.1
  | _ => cases hkind

/-- Every document is in normal form. No two neighbouring children of a node are both text and
no text is empty; leaves have no children, and emphasis, strong emphasis and strikethrough have
some. The root alone is a document, and breaks are directly below it only. -/
theorem parseMarkdown_normal (source : List Char) (options : InlineOptions) :
    let root := (parseMarkdown source options).root
    root.kind = .document ∧
      (∀ node ∈ root :: root.descendants, node.IsNormal) ∧
      (∀ node ∈ root.descendants, node.kind ≠ .document) ∧
      ∀ child ∈ root.children, ∀ node ∈ child.descendants, node.kind ≠ .softBreak := by
  intro root
  have hkind : root.kind = .document := parseMarkdown_kind source options
  have hlines := lines_parseMarkdown source options
  have hseparate : Separate root.children := hlines.separate
  have hplaced := (parseMarkdown_placed source options).2
  -- A child of the root is a break, or a node of a line with all that is below it.
  have hchildren : ∀ child ∈ root.children, child.kind = .softBreak ∧ child.children = [] ∨
      ∀ node ∈ treeNodes [child], node.IsInline := by
    intro child hchild
    rcases hlines.yields (n := 0) rfl child hchild with ⟨_, -, -, rfl⟩ | ⟨n, i, j, hyields⟩
    · exact .inl ⟨rfl, rfl⟩
    · exact .inr hyields.inline
  have hbelow : ∀ child ∈ root.children, ∀ node ∈ child.descendants, node.IsInline := by
    intro child hchild node hnode
    rcases hchildren child hchild with ⟨-, hnil⟩ | hinline
    · rw [child.descendants_eq, hnil] at hnode
      cases hnode
    · exact hinline node (mem_treeNodes.2 ⟨child, List.mem_singleton.2 rfl, .inr hnode⟩)
  have hnodes : ∀ node ∈ root.descendants, Placed source node ∧
      (node.kind = .softBreak ∧ node.children = [] ∨ node.IsInline) := by
    intro node hnode
    rw [root.descendants_eq] at hnode
    obtain ⟨child, hchild, rfl | hdeeper⟩ := mem_treeNodes.1 hnode
    · refine ⟨hplaced _ hchild, (hchildren _ hchild).imp_right fun hinline => ?_⟩
      exact hinline node (mem_treeNodes.2 ⟨node, List.mem_singleton.2 rfl, .inl rfl⟩)
    · exact ⟨(hplaced child hchild).descendants node hdeeper, .inr (hbelow child hchild node hdeeper)⟩
  refine ⟨hkind, List.forall_mem_cons.2 ⟨⟨hseparate.top, ?_, ?_, ?_⟩, fun node hnode => ?_⟩,
    fun node hnode => ?_, fun child hchild node hnode => (hbelow child hchild node hnode).kind.2⟩
  · rw [hkind]
    exact nofun
  · rw [hkind]
    exact nofun
  · rw [hkind]
    exact nofun
  · obtain ⟨hplace, hshape⟩ := hnodes node hnode
    have hapart := hseparate.below node (root.descendants_eq ▸ hnode)
    rcases hshape with ⟨hbreak, hnil⟩ | hinline
    · refine ⟨hapart, ?_, fun _ => hnil, ?_⟩ <;>
      · rw [hbreak]
        exact nofun
    · exact ⟨hapart, hinline.text, hinline.leaf, hplace.children_ne_nil⟩
  · rcases (hnodes node hnode).2 with ⟨hbreak, -⟩ | hinline
    · rw [hbreak]
      exact nofun
    · exact hinline.kind.1

end InlineMarkdown
