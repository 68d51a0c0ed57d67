import InlineMarkdown.Destination
import InlineMarkdown.Lexeme.CodeSpan
import InlineMarkdown.Inline.Attempt
import InlineMarkdown.Inline.Delimiter
import InlineMarkdown.Inline.Options

/-! The inline parser.

`InlineParser.parse` turns tokens into nodes up to a token at which it has to stop.
Runs of delimiters go to the draft; a bracket starts a try at an image, a footnote,
a citation or a link, which parses what is inside the same way, one level deeper.
A try that fails leaves its bracket as text, and parsing goes on behind it.

The recursion is on the room that is left for nesting: `atRoom` parses content
inside which that many levels may be opened. Within a level every step passes a
token, so the number of tokens left bounds the number of steps. -/
namespace InlineMarkdown

/-- How hard the parser tries. -/
structure Search where
  /-- A start that is known to fail is not tried again. -/
  remember : Bool := true
  /-- How deep tries may be nested. -/
  nesting : Nat := 64
deriving DecidableEq, Repr

structure InlineParser where
  options : InlineOptions := {}
  search : Search := {}
deriving DecidableEq, Repr

/-- Parses nodes up to a token of one of the kinds, or the end. The cursor is left at
the token that stopped it. -/
abbrev ParseContent : Type := (stop : List Kind) → Cursor → List Node × Cursor

/-- A construct around bracketed content: what opens it, and what has to follow the
content. The closing knows the token at which the construct starts. -/
structure Frame where
  construct : Construct
  opening : Attempt Unit
  closing : (start : Nat) → (content : List Node) → Attempt Node

namespace Frame

/-- The whole construct. `parse` parses what is inside. -/
def attempt (frame : Frame) (parse : ParseContent) : Attempt Node := do
  let start ← Attempt.look (·.position)
  frame.opening
  let content ← Attempt.ofStep (parse [.rightBracket])
  frame.closing start content

/-- The first construct that matches. -/
def firstOf (parse : ParseContent) : List Frame → Attempt Node
  | [] => Attempt.fail
  | frame :: rest =>
    (Attempt.speculate frame.construct (frame.attempt parse)).orElse (firstOf parse rest)

end Frame

namespace InlineParser

/-! ### Constructs at brackets -/

/-- The address and title between parentheses. -/
def destination : Attempt (List Char × List Char) := do
  Attempt.expect .leftParen
  let raw ← Attempt.rawUntil .rightParen
  Attempt.expect .rightParen
  Attempt.ofOption (splitDestination? raw)

/-- The closing bracket behind content that is a single word. -/
def identifier (content : List Node) : Attempt (List Char) := do
  Attempt.expect .rightBracket
  let word := flattenText content
  if word.isEmpty || word.any isSpace then Attempt.fail else return word

/-- A node from the token at `start` up to here. -/
def nodeSince (start : Nat) (kind : NodeKind) (children : List Node) : Attempt Node :=
  Attempt.look fun c => ⟨kind, c.spanSince start, children⟩

/-- An exclamation mark, bracketed content and a destination. -/
def image : Frame where
  construct := .image
  opening := do
    Attempt.expect .exclamation
    Attempt.expect .leftBracket
  closing start alt := do
    Attempt.expect .rightBracket
    let (url, title) ← destination
    nodeSince start (.image url (flattenText alt) title) []

/-- A caret and an identifier in brackets. -/
def footnote : Frame where
  construct := .footnote
  opening := do
    Attempt.expect .leftBracket
    Attempt.expect .caret
  closing start content := do
    let word ← identifier content
    nodeSince start (.footnote word) []

/-- Passes the text of an at sign. -/
def atSign : Attempt Unit := fun c =>
  match c.peek with
  | some token =>
    if token.kind = .text && token.text == ['@'] then (some (), c.advance) else (none, c)
  | none => (none, c)

/-- An at sign and an identifier in brackets. -/
def citation : Frame where
  construct := .citation
  opening := do
    Attempt.expect .leftBracket
    atSign
  closing start content := do
    let word ← identifier content
    nodeSince start (.citation word) []

/-- The identifier of a reference whose label is `label` and whose text is in
`children`: the label, or the text if the label is blank. -/
def referenceName? (label : List Char) (children : List Node) : Option (List Char) :=
  let name := if (trim label).isEmpty then flattenText children else trim label
  if (trim name).isEmpty then none else some name

/-- Bracketed text, and behind it a destination or the label of a reference. -/
def link : Frame where
  construct := .link
  opening := Attempt.expect .leftBracket
  closing start children := do
    Attempt.expect .rightBracket
    if (← Attempt.look (·.isAt .leftParen)) then
      let (url, title) ← destination
      nodeSince start (.link url title) children
    else
      Attempt.expect .leftBracket
      let label ← Attempt.rawUntil .rightBracket
      Attempt.expect .rightBracket
      let name ← Attempt.ofOption (referenceName? label children)
      nodeSince start (.reference name [] []) children

/-- What an opening bracket may start, in the order in which it is tried. -/
def bracketFrames (options : InlineOptions) : List Frame :=
  (if options.footnotes then [footnote] else []) ++
    (if options.citations then [citation] else []) ++ if options.links then [link] else []

/-- What an opening bracket starts: a footnote, a citation or a link, whichever of
those that are switched on matches first. -/
def bracket (options : InlineOptions) (parse : ParseContent) : Attempt Node :=
  Frame.firstOf parse (bracketFrames options)

/-- A try at an image. `inner` parses the content of the next level, if there is
room for one. -/
def tryImage (parser : InlineParser) (inner : Option ParseContent) : Attempt Node :=
  if parser.options.images then
    Attempt.bracketed parser.search.remember inner .image image.attempt
  else Attempt.fail

/-- A try at what an opening bracket starts. -/
def tryBracket (parser : InlineParser) (inner : Option ParseContent) : Attempt Node :=
  if parser.options.footnotes || parser.options.citations || parser.options.links then
    Attempt.bracketed parser.search.remember inner .bracket (bracket parser.options)
  else Attempt.fail

/-! ### One step -/

/-- A run of delimiters. Tildes mean nothing alone or when strikethrough is off. -/
def delimiterRun (parser : InlineParser) (marker : Marker) (draft : Draft) (c : Cursor) :
    Draft × Cursor :=
  let (run, c) := c.bumpRun marker.kind
  match run.head?, run.getLast? with
  | some first, some last =>
    if marker = .tilde && (run.length < 2 || !parser.options.strikethrough) then
      (draft.pushText (marker.run run.length) ⟨first.span.start, last.span.stop⟩, c)
    else (draft.resolve marker run.length first.span.start, c)
  | _, _ => (draft, c)

/-- The link that an address stands for: its target, title and text are one. -/
def addressLink (token : Token Kind) : Node :=
  let url := (between? '<' '>' token.text).getD token.text
  ⟨.link url url, token.span, [Node.ofText url token.span]⟩

/-- The node that a token is on its own, if it is one with these options. -/
def leaf? (options : InlineOptions) (token : Token Kind) : Option Node :=
  match token.kind with
  | .inlineCode => some ⟨.inlineCode (stripFences token.text backtick), token.span, []⟩
  | .formula =>
    if options.formulas then some ⟨.formula (stripFences token.text '$'), token.span, []⟩ else none
  | .htmlTag | .htmlBlock | .htmlUnclosedBlock | .htmlEntity =>
    if options.html then some ⟨.html token.text, token.span, []⟩ else none
  | .autolink | .url => if options.autolinks then some (addressLink token) else none
  | _ => none

/-- The node that a try yields, or else the current token as text. -/
def orText (attempt : Attempt Node) (token : Token Kind) (draft : Draft) (c : Cursor) :
    Draft × Cursor :=
  match attempt c with
  | (some node, c) => (draft.push node, c)
  | (none, c) => (draft.pushText token.text token.span, c.advance)

/-- Parses what starts at the current token `token`. -/
def step (parser : InlineParser) (inner : Option ParseContent) (token : Token Kind)
    (draft : Draft) (c : Cursor) : Draft × Cursor :=
  match token.kind with
  | .asterisk => parser.delimiterRun .asterisk draft c
  | .underscore => parser.delimiterRun .underscore draft c
  | .tilde => parser.delimiterRun .tilde draft c
  | .exclamation => orText (parser.tryImage inner) token draft c
  | .leftBracket => orText (parser.tryBracket inner) token draft c
  | _ =>
    match leaf? parser.options token with
    | some node => (draft.push node, c.advance)
    | none => (draft.pushText token.text token.span, c.advance)

/-! ### All steps -/

/-- Parsing ends at this token. -/
def stopsAt (stop : List Kind) (c : Cursor) (token : Token Kind) : Bool :=
  token.isEof || stop.contains token.kind || c.abandoned

/-- At most `limit` steps. -/
def steps (parser : InlineParser) (inner : Option ParseContent) (stop : List Kind) :
    (limit : Nat) → Draft → Cursor → Draft × Cursor
  | 0, draft, c => (draft, c)
  | limit + 1, draft, c =>
    match c.peek with
    | none => (draft, c)
    | some token =>
      if stopsAt stop c token then (draft, c)
      else
        let (draft, c) := parser.step inner token draft c
        steps parser inner stop limit draft c

/-- One level of content. -/
def level (parser : InlineParser) (inner : Option ParseContent) : ParseContent := fun stop c =>
  let (draft, c) := parser.steps inner stop c.remaining {} c
  (draft.finish, c)

/-- Content inside which `room` levels may be opened. -/
def atRoom (parser : InlineParser) : (room : Nat) → ParseContent
  | 0 => parser.level none
  | room + 1 => parser.level (some (parser.atRoom room))

/-- Parses nodes up to a token of one of the kinds in `stop`, or the end of the
input; that token is not passed. -/
def parse (parser : InlineParser) : ParseContent := fun stop c =>
  parser.atRoom (parser.search.nesting - c.depth) stop c

end InlineParser
end InlineMarkdown
