import InlineMarkdown.Proofs.Rounds

/-! Documents line by line.

`Lines` relates a queue of tokens to the nodes that the driver makes of it: line ends are
breaks, and what is between them is parsed as one run each. Nothing else of the driver's
state counts, so the relation is a function of the queue (`Lines.unique`), and the children of
the document that tokens make are their lines (`lines_documentOf`). -/
namespace InlineMarkdown

variable {options : InlineOptions} {queue rest : List (Token Kind)} {nodes more : List Node}

/-- What the inline parser makes of the tokens at the front of a queue. -/
def lineOf (options : InlineOptions) (queue : List (Token Kind)) : List Node × Cursor :=
  ({ options } : InlineParser).parse lineStop { tokens := queue.toArray }

/-- The nodes that a queue of tokens becomes, up to the end of the input. -/
inductive Lines (options : InlineOptions) : List (Token Kind) → List Node → Prop
  | done {queue : List (Token Kind)} : (∀ token ∈ queue.head?, token.isEof = true) →
      Lines options queue []
  | softBreak {token : Token Kind} {rest : List (Token Kind)} {nodes : List Node} :
      token.kind = .newline → Lines options rest nodes →
      Lines options (token :: rest) (⟨.softBreak, token.span, []⟩ :: nodes)
  | line {token : Token Kind} {queue : List (Token Kind)} {nodes : List Node} :
      queue.head? = some token → token.isEof = false → token.kind ≠ .newline →
      Lines options (queue.drop (lineOf options queue).2.position) nodes →
      Lines options queue ((lineOf options queue).1 ++ nodes)

theorem isEof_iff {token : Token Kind} : token.isEof = true ↔ token.kind = .eof := beq_iff_eq

/-- A queue becomes one list of nodes only. -/
theorem Lines.unique (h : Lines options queue nodes) (h' : Lines options queue more) :
    nodes = more := by
  induction h generalizing more with
  | done hend =>
    cases h' with
    | done => rfl
    | softBreak hkind =>
      have heof := isEof_iff.1 (hend _ rfl)
      cases heof.symm.trans hkind
    | line hfront heof => exact absurd (hend _ hfront) (ne_true_of_eq_false heof)
  | softBreak hkind _ ih =>
    cases h' with
    | done hend =>
      have heof := isEof_iff.1 (hend _ rfl)
      cases heof.symm.trans hkind
    | softBreak _ hrest => rw [ih hrest]
    | line hfront _ hother =>
      obtain rfl := Option.some.inj hfront
      exact absurd hkind hother
  | line hfront heof hkind _ ih =>
    cases h' with
    | done hend => exact absurd (hend _ hfront) (ne_true_of_eq_false heof)
    | softBreak hother =>
      obtain rfl := Option.some.inj hfront
      exact absurd hother hkind
    | line _ _ _ hrest => rw [ih hrest]

/-- If the first line of a queue is also the last, the nodes are those of that line. -/
theorem Lines.eq_lineOf (h : Lines options queue nodes)
    (hfront : ∀ token ∈ queue.head?, token.kind ≠ .newline)
    (hlast : ∀ token ∈ (queue.drop (lineOf options queue).2.position).head?, token.isEof = true) :
    nodes = (lineOf options queue).1 := by
  cases h with
  | @done queue hend =>
    cases queue with
    | nil => rfl
    | cons token rest =>
      have heof : token.kind ∈ lineStop := by simp [lineStop, isEof_iff.1 (hend token rfl)]
      let ctx : Context Kind Node := { queue := token :: rest, node := Node.emptyDocument }
      have hline : ctx.line options = ([], _) := line_of_stop options rfl heof
      exact (congrArg Prod.fst hline).symm
  | softBreak hkind => exact absurd hkind (hfront _ rfl)
  | line _ _ _ hrest => rw [hrest.unique (.done hlast), List.append_nil]

/-! ### The driver -/

/-- The document that the driver makes of tokens. -/
def documentOf (options : InlineOptions) (tokens : List (Token Kind)) : Node :=
  ((markdown options).consumers.drive { queue := tokens, node := Node.emptyDocument }).node

theorem documentOf_kind (options : InlineOptions) (tokens : List (Token Kind)) :
    (documentOf options tokens).kind = .document :=
  (markdown_induct options (P := fun ctx => ctx.node.kind = .document)
    (fun _ _ _ hnode h => hnode ▸ h) (fun _ _ _ _ hnode h => hnode ▸ h) rfl).1

/-- The root of a parse is a document. -/
theorem parseMarkdown_kind (source : List Char) (options : InlineOptions) :
    (parseMarkdown source options).root.kind = .document :=
  documentOf_kind options (tokenize source)

variable {tokens : List (Token Kind)} {ctx ctx' : Context Kind Node} {token : Token Kind}

/-- The children so far are lines of the tokens, once what is left has become nodes too. -/
def Context.Continues (options : InlineOptions) (tokens : List (Token Kind))
    (ctx : Context Kind Node) : Prop :=
  ∀ more, Lines options ctx.queue more → Lines options tokens (ctx.node.children ++ more)

theorem Context.Continues.softBreak (h : ctx.Continues options tokens)
    (hqueue : ctx.queue = token :: rest) (hkind : token.kind = .newline) (hrest : ctx'.queue = rest)
    (hnode : ctx'.node = ctx.node.append ⟨.softBreak, token.span, []⟩) :
    ctx'.Continues options tokens := by
  intro more hmore
  rw [hrest] at hmore
  have hlines : Lines options ctx.queue _ := hqueue ▸ Lines.softBreak hkind hmore
  have hall := h _ hlines
  rw [hnode]
  show Lines options tokens ((ctx.node.children ++ [_]) ++ more)
  rwa [List.append_assoc]

theorem Context.Continues.line (h : ctx.Continues options tokens)
    (hqueue : ctx.queue = token :: rest) (heof : token.isEof = false)
    (hkind : token.kind ≠ .newline)
    (hrest : ctx'.queue = ctx.queue.drop (ctx.line options).2.position)
    (hnode : ctx'.node = ctx.node.extend (ctx.line options).1) : ctx'.Continues options tokens := by
  intro more hmore
  rw [hrest] at hmore
  have hfront : ctx.queue.head? = some token := by rw [hqueue]; rfl
  have hall := h _ (.line hfront heof hkind hmore)
  rw [hnode]
  show Lines options tokens ((ctx.node.children ++ _) ++ more)
  rwa [List.append_assoc]

theorem lines_documentOf (options : InlineOptions) (tokens : List (Token Kind)) :
    Lines options tokens (documentOf options tokens).children := by
  have hstart : Context.Continues options tokens
      { queue := tokens, node := Node.emptyDocument } := fun _ h => h
  obtain ⟨hlines, hend⟩ := markdown_induct options
    (fun hqueue hkind hrest hnode h => h.softBreak hqueue hkind hrest hnode)
    (fun hqueue heof hkind hrest hnode h => h.line hqueue heof hkind hrest hnode) hstart
  have hall := hlines [] (.done hend)
  rwa [List.append_nil] at hall

/-- The children of a document are the lines of its source. -/
theorem lines_parseMarkdown (source : List Char) (options : InlineOptions) :
    Lines options (tokenize source) (parseMarkdown source options).root.children :=
  lines_documentOf options (tokenize source)

end InlineMarkdown
