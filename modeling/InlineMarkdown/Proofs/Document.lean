import InlineMarkdown.Proofs.Joining
import InlineMarkdown.Proofs.Placement
import InlineMarkdown.Proofs.Rounds

/-! Documents tile their source.

Each round of a parse puts behind the root's children what covers the tokens it takes, so
that the children tile what has been read (`Covered`). At the end that is the whole source,
and every node below the root stands where its span says. -/
namespace InlineMarkdown

/-! ### Nodes at any depth -/

/-- What is placed is placed at every depth. -/
theorem Placed.descendants {source : List Char} {root : Node} (h : Placed source root) :
    ∀ node ∈ root.descendants, Placed source node := by
  induction h with
  | @mk root _ _ _ hbelow ih =>
    intro node hnode
    rw [root.descendants_eq] at hnode
    obtain ⟨child, hchild, rfl | hdeeper⟩ := mem_treeNodes.1 hnode
    · exact hbelow _ hchild
    · exact ih child hchild node hdeeper

/-! ### Rounds -/

variable {source : List Char} {options : InlineOptions} {ctx : Context Kind Node}
  {token : Token Kind} {rest : List (Token Kind)}

/-- Some tokens of the source are left, and the root's children tile what was in front of
them. -/
def Covered (source : List Char) (ctx : Context Kind Node) : Prop :=
  ∃ n, ctx.queue = (tokenize source).drop n ∧
    Tiles ctx.node.children {} (markAt source n) ∧ ∀ child ∈ ctx.node.children, Placed source child

theorem covered_start (source : List Char) (reports : List Event) :
    Covered source { queue := tokenize source, node := Node.emptyDocument, reports } :=
  ⟨0, rfl, rfl, nofun⟩

/-- Nodes that tile the next tokens go behind the children. -/
theorem Covered.extend {n m : Nat} {nodes : List Node} {ctx' : Context Kind Node}
    (htiles : Tiles ctx.node.children {} (markAt source n))
    (hplaced : ∀ child ∈ ctx.node.children, Placed source child)
    (hqueue : ctx'.queue = (tokenize source).drop m) (hnode : ctx'.node = ctx.node.extend nodes)
    (hnodes : Tiles nodes (markAt source n) (markAt source m))
    (hbelow : ∀ node ∈ nodes, Placed source node) : Covered source ctx' := by
  refine ⟨m, hqueue, ?_, ?_⟩
  · rw [hnode]
    exact tiles_append.2 ⟨_, htiles, hnodes⟩
  · rw [hnode]
    intro child hchild
    rcases List.mem_append.1 hchild with hchild | hchild
    · exact hplaced child hchild
    · exact hbelow child hchild

/-- A break covers the line end that it stands for. -/
theorem Covered.break {ctx' : Context Kind Node} (hqueue : ctx.queue = token :: rest)
    (hrest : ctx'.queue = rest) (hnode : ctx'.node = ctx.node.append ⟨.softBreak, token.span, []⟩)
    (h : Covered source ctx) : Covered source ctx' := by
  obtain ⟨n, hdrop, htiles, hplaced⟩ := h
  have hlaid := laid_tokenize source n
  rw [← hdrop] at hlaid
  have hfirst : ctx.queue.toArray[0]? = some token := by simp [hqueue]
  obtain ⟨_, hslice⟩ := hlaid.covers hfirst
  have hspan := hlaid.span hfirst
  have hbehind : ctx'.queue = (tokenize source).drop (n + 1) := by
    rw [hrest, ← List.tail_drop, ← hdrop, hqueue]
    rfl
  refine .extend htiles hplaced hbehind hnode (tiles_singleton.2 hspan) fun node hbreak => ?_
  obtain rfl := List.mem_singleton.1 hbreak
  exact placed_leaf hslice trivial

/-- The nodes of a line cover the tokens that they are read from. -/
theorem Covered.line {ctx' : Context Kind Node}
    (hrest : ctx'.queue = ctx.queue.drop (ctx.line options).2.position)
    (hnode : ctx'.node = ctx.node.extend (ctx.line options).1) (h : Covered source ctx) :
    Covered source ctx' := by
  obtain ⟨n, hdrop, htiles, hplaced⟩ := h
  have hlaid := laid_tokenize source n
  rw [← hdrop] at hlaid
  obtain ⟨hnodes, hbelow⟩ := InlineParser.parse_places { options } lineStop
    { tokens := ctx.queue.toArray } (Nat.zero_le _) hlaid
  have hbehind : ctx'.queue = (tokenize source).drop (n + (ctx.line options).2.position) := by
    rw [hrest, hdrop, List.drop_drop]
  exact .extend htiles hplaced hbehind hnode hnodes hbelow

/-- At the end of the input the children tile the source. -/
theorem Covered.whole (h : Covered source ctx) (hend : ctx.AtEnd) :
    Tiles ctx.node.children {} (Position.advance {} source) ∧
      ∀ child ∈ ctx.node.children, Placed source child := by
  obtain ⟨n, hdrop, htiles, hplaced⟩ := h
  suffices hlength : (lexemes source).length ≤ n by
    rw [markAt_of_le hlength] at htiles
    exact ⟨htiles, hplaced⟩
  rcases hfront : (tokenize source)[n]? with _ | token
  · have := List.getElem?_eq_none_iff.1 hfront
    rw [length_tokenize] at this
    omega
  · have hqueue : ctx.front? = some token := by simp [Context.front?, hdrop, hfront]
    have heof : token.kind = .eof := by simpa [Token.isEof, TokenKind.isEof] using hend token hqueue
    exact Nat.le_of_eq (eq_of_kind_eq_eof hfront heof).symm

theorem parseMarkdown_placed (source : List Char) (options : InlineOptions) :
    Tiles (parseMarkdown source options).root.children {} (Position.advance {} source) ∧
      ∀ child ∈ (parseMarkdown source options).root.children, Placed source child := by
  obtain ⟨hcovered, hend⟩ := markdown_induct options
    (fun hqueue _ hrest hnode h => h.break hqueue hrest hnode)
    (fun _ _ _ hrest hnode h => h.line hrest hnode) (covered_start source [])
  exact hcovered.whole hend

/-! ### Documents -/

/-- The root's children cover the source without gap or overlap. Every span below the root
starts and ends at a walk over the source, and frames what is below its node: emphasis,
strong emphasis and strikethrough keep their marks outside their children, and links and
references their brackets. -/
theorem parseMarkdown_tiles (source : List Char) (options : InlineOptions) :
    let root := (parseMarkdown source options).root
    Tiles root.children {} (Position.advance {} source) ∧
      (root.children = [] ↔ source = []) ∧
      ∀ node ∈ root.descendants,
        node.span.start.Marks source ∧ node.span.stop.Marks source ∧
          Framed source node.kind node.span node.children := by
  intro root
  obtain ⟨htiles, hplaced⟩ := parseMarkdown_placed source options
  refine ⟨htiles, ⟨fun hnil => ?_, fun hnil => ?_⟩, fun node hnode => ?_⟩
  · rw [hnil] at htiles
    have hoffset := congrArg Position.offset htiles
    rw [Position.advance_offset] at hoffset
    exact eq_nil_of_byteLength_eq_zero (by simpa using hoffset.symm)
  · subst hnil
    rfl
  · rw [root.descendants_eq] at hnode
    obtain ⟨child, hchild, hdeep⟩ := mem_treeNodes.1 hnode
    have hnode : Placed source node := by
      rcases hdeep with rfl | hdeep
      · exact hplaced _ hchild
      · exact (hplaced child hchild).descendants node hdeep
    obtain ⟨_, hslice⟩ := hnode.covers
    exact ⟨hslice.marks_start, hslice.marks_stop, hnode.framed⟩

end InlineMarkdown
