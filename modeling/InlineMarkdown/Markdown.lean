import InlineMarkdown.Engine.Parse
import InlineMarkdown.Inline.Parser
import InlineMarkdown.Token.Tokenize

/-! Markdown's inline constructs as a language.

Two consumers share the tokens: one hands a line's worth of them to the inline
parser, the other turns the line ends between into breaks. Every token is the
business of one of them, so a Markdown parse records no diagnostics. -/
namespace InlineMarkdown

instance : TreeNode Node where
  children := Node.children
  append := Node.append
  children_append _ _ := rfl

/-- Where a line of inline content ends. -/
def lineStop : List Kind := [.newline, .eof]

/-- The node with `children` behind its own. -/
def Node.extend (node : Node) (children : List Node) : Node :=
  { node with children := node.children ++ children }

/-- Parses the tokens up to the end of the line. -/
def inlineConsumer (options : InlineOptions) : Consumer Kind Node where
  name := "inline"
  consume ctx _ :=
    let (nodes, cursor) :=
      ({ options } : InlineParser).parse lineStop { tokens := ctx.queue.toArray }
    if cursor.position = 0 then (false, ctx)
    else
      (true,
        { ctx with
          queue := ctx.queue.drop cursor.position
          node := ctx.node.extend nodes
          reports :=
            .inlineRun cursor.position nodes.length :: (cursor.reports ++ ctx.reports) })
  queue_suffix ctx token := by
    dsimp only
    split
    · exact List.suffix_refl _
    · exact List.drop_suffix _ _

/-- Turns the end of a line into a break. -/
def lineBreakConsumer : Consumer Kind Node where
  name := "line-break"
  consume ctx token :=
    if token.kind = .newline then
      (true, (ctx.advance 1).append ⟨.softBreak, token.span, []⟩)
    else (false, ctx)
  queue_suffix ctx token := by
    split
    · exact ctx.queue_advance_suffix 1
    · exact List.suffix_refl _

def markdown (options : InlineOptions) : Language Kind Node where
  name := "markdown"
  tokenize := InlineMarkdown.tokenize
  consumers := .ofList [inlineConsumer options, lineBreakConsumer]

/-- The document that a Markdown text is. -/
def parseMarkdown (input : List Char) (options : InlineOptions := {}) : Parsed Node :=
  (markdown options).parse input Node.emptyDocument

end InlineMarkdown
