import InlineMarkdown.Proofs.Brackets
import InlineMarkdown.Proofs.Lines

/-! Legible trees are read as they were written.

Each node is read as a node of the same shape, with what is behind it in front of the cursor,
so trees side by side are (`reads`), and with them the lines of a document
(`parseMarkdown_toMarkdown`). -/
namespace InlineMarkdown
open Attempt InlineParser

variable {s : Setting} {draft : Draft} {c : Cursor} {start : Position} {before : Option Char}
  {tail : List Char}

/-- The node is read, as a node of the same shape. -/
def Setting.ReadsNode (s : Setting) (draft : Draft) (c : Cursor) (tail : List Char) (node : Node) :
    Prop :=
  ∃ node' c' start', node'.shape = node.shape ∧ s.read draft c = s.read (draft.push node') c' ∧
    c'.Faces start' (node.writeIn s.outer).getLast? tail

/-! ### Leaves -/

theorem readsNode_leaf {kind : Kind} {node : Node}
    (h : c.Faces start before (node.writeIn s.outer ++ tail))
    (hread : ReadAs before kind (node.writeIn s.outer) tail)
    (hleaf : ∀ span, ∃ node', leaf? {} ⟨kind, Lexeme.text ⟨kind, node.writeIn s.outer⟩, span⟩ =
      some node' ∧ node'.shape = node.shape) :
    s.ReadsNode draft c tail node := by
  obtain ⟨node', hleaf, hshape⟩ := hleaf ⟨start, start.advance (node.writeIn s.outer)⟩
  exact ⟨node', c.advance, _, hshape, Setting.read_leaf draft h hread hleaf, h.advance hread⟩

theorem readsNode_code {code : List Char} {span : Span} (hne : code ≠ []) (hline : '\n' ∉ code)
    (htail : tail.head? ≠ some backtick)
    (h : c.Faces start before (codeSpan code ++ tail)) :
    s.ReadsNode draft c tail ⟨.inlineCode code, span, []⟩ := by
  refine readsNode_leaf h (readAs_codeSpan hne hline htail) fun place => ⟨_, rfl, ?_⟩
  have hcode : stripFences (Lexeme.text ⟨.inlineCode, codeSpan code⟩) backtick = code := by
    rw [text_codeSpan, stripFences_codeSpan hne]
  show Node.shape ⟨.inlineCode (stripFences (Lexeme.text ⟨.inlineCode, codeSpan code⟩) backtick), _, []⟩ = _
  rw [hcode]
  rfl

theorem readsNode_formula {body : List Char} {span : Span} (hne : body ≠ [])
    (hbody : ∀ c ∈ body, c ≠ '$' ∧ c ≠ '\n')
    (h : c.Faces start before (fencedFormula body ++ tail)) :
    s.ReadsNode draft c tail ⟨.formula body, span, []⟩ := by
  refine readsNode_leaf h (readAs_fencedFormula hne hbody _) fun place => ⟨_, rfl, ?_⟩
  have hformula : stripFences (Lexeme.text ⟨.formula, fencedFormula body⟩) '$' = body := by
    rw [text_fencedFormula, stripFences_fencedFormula hne hbody]
  show Node.shape ⟨.formula (stripFences (Lexeme.text ⟨.formula, fencedFormula body⟩) '$'), _, []⟩ = _
  rw [hformula]
  rfl

theorem readsNode_html {html : List Char} {span : Span}
    (hkind : (kindBetween? before tail html).any Kind.isHtml = true)
    (h : c.Faces start before (html ++ tail)) : s.ReadsNode draft c tail ⟨.html html, span, []⟩ := by
  obtain ⟨ch, rest, rfl, hch⟩ := head_of_kindBetween? hkind
  obtain ⟨kind, hkind, hread⟩ := readAs_of_kindBetween? hkind
  have htext : Lexeme.text ⟨kind, ch :: rest⟩ = ch :: rest :=
    text_of_ne (by rcases hch with rfl | rfl <;> decide) rest
  refine readsNode_leaf h hread fun place => ⟨⟨.html (ch :: rest), place, []⟩, ?_, rfl⟩
  have hleaf : leaf? {} ⟨kind, Lexeme.text ⟨kind, ch :: rest⟩, place⟩ =
      some ⟨.html (Lexeme.text ⟨kind, ch :: rest⟩), place, []⟩ := by
    cases kind <;> first | rfl | exact nomatch hkind
  rw [htext] at hleaf
  exact (congrArg (fun text => leaf? {} ⟨kind, text, place⟩) htext).trans hleaf

theorem shape_addressLink {token : Token Kind} {url : List Char}
    (h : (between? '<' '>' token.text).getD token.text = url) (span place : Span) :
    (addressLink token).shape = Node.shape ⟨.link url url, span, [Node.ofText url place]⟩ := by
  unfold addressLink
  rw [h]
  rfl

theorem readsNode_addressLink {kind : Kind} {url : List Char} {span place : Span}
    (h : c.Faces start before (writeAddress url ++ tail))
    (hread : ReadAs before kind (writeAddress url) tail)
    (hkind : ∀ token, token.kind = kind → leaf? {} token = some (addressLink token))
    (hurl : (between? '<' '>' (Lexeme.text ⟨kind, writeAddress url⟩)).getD
      (Lexeme.text ⟨kind, writeAddress url⟩) = url) :
    s.ReadsNode draft c tail ⟨.link url url, span, [Node.ofText url place]⟩ := by
  have hwrite : Node.writeIn s.outer ⟨.link url url, span, [Node.ofText url place]⟩ = writeAddress url :=
    writeIn_address (by simp [isAddress, Node.ofText, Node.text?]) span
  refine readsNode_leaf (by rwa [hwrite]) (by rwa [hwrite]) fun other => ⟨_, hkind _ rfl, ?_⟩
  exact shape_addressLink (by rwa [hwrite]) span place

/-- An address is read as a link to itself, in angle brackets and without them. -/
theorem readsNode_address {url : List Char} {span place : Span}
    (hlegible : isLegibleAddress before tail url = true)
    (h : c.Faces start before (writeAddress url ++ tail)) :
    s.ReadsNode draft c tail ⟨.link url url, span, [Node.ofText url place]⟩ := by
  unfold isLegibleAddress at hlegible
  split at hlegible
  · rename_i hbracket
    have hform : writeAddress url = '<' :: (url ++ ['>']) := if_pos hbracket
    have hread : ReadAs before .autolink (writeAddress url) tail := by
      rw [hform]
      exact readAs_address (beq_iff_eq.1 hlegible) tail
    have htext : Lexeme.text ⟨.autolink, writeAddress url⟩ = '<' :: (url ++ ['>']) := by
      rw [hform]
      exact text_of_ne (by decide) _
    refine readsNode_addressLink h hread (fun token htoken => by unfold leaf?; rw [htoken]; rfl) ?_
    rw [htext]
    simp [between?]
  · rename_i hbare
    have hform : writeAddress url = url := if_neg hbare
    have haddress := beq_iff_eq.1 hlegible
    obtain ⟨ch, rest, rfl⟩ := List.exists_cons_of_ne_nil (l := url) (by
      rintro rfl
      exact Nat.lt_irrefl 0 (url?_within (urlBehind?_eq_some.1 haddress).2).1)
    have hch := mem_of_urlBehind? haddress
    have hplain : isSpecial ch = false ∧ ch ≠ '\r' ∧ ch ≠ '<' ∧ ch ≠ '\\' := by
      simp only [List.mem_cons, List.not_mem_nil, or_false] at hch
      rcases hch with rfl | rfl | rfl <;> decide
    have hread : ReadAs before .url (writeAddress (ch :: rest)) tail := by
      rw [hform]
      refine ⟨ch, rest, rfl, ?_⟩
      have hcrlf : startsCrlf (ch :: (rest ++ tail)) = false := by
        simp [startsCrlf, after?, hplain.2.1.symm]
      have hurl : urlBehind? before (ch :: (rest ++ tail)) = some (ch :: rest).length := haddress
      rw [scan_ordinary hplain.1 hcrlf, hurl]
    have htext : Lexeme.text ⟨.url, writeAddress (ch :: rest)⟩ = ch :: rest := by
      rw [hform]
      exact text_of_ne hplain.2.2.2 rest
    refine readsNode_addressLink h hread (fun token htoken => by unfold leaf?; rw [htoken]; rfl) ?_
    rw [htext]
    simp [between?, hplain.2.2.1]

/-! ### Brackets -/

/-- An attempt that succeeds goes to the draft. -/
theorem read_try {ch : Char} {text : List Char} {kind : Kind} {node : Node} {c' : Cursor}
    (h : c.Faces start before (ch :: text)) (hch : Kind.ofChar? ch = some kind)
    (hkind : kind = .exclamation ∨ kind = .leftBracket)
    (hattempt : ({} : InlineParser).attemptAt (({} : InlineParser).inside s.room) kind c =
      (some node, c')) :
    s.read draft c = s.read (draft.push node) c' := by
  have hread : ReadAs before kind [ch] text := readAs_single _ hch
  have h' : c.Faces start before ([ch] ++ text) := h
  have hframes : framesAt ({} : InlineParser).options kind ≠ [] := by
    rcases hkind with rfl | rfl <;> nofun
  have hstop : kind ≠ .eof ∧ kind ∉ s.stop := by
    rcases hkind with rfl | rfl <;> exact ⟨nofun, Setting.not_mem_stop nofun nofun nofun⟩
  rw [Setting.read_step (h'.peek hread) h.abandoned hstop.1 hstop.2,
    step_of_framesAt_ne_nil _ _ _ _ hframes]
  unfold orText
  rw [hattempt]

theorem readsNode_image {url alt title : List Char} {span : Span} (hroom : 0 < s.room)
    (htarget : isLegibleTarget url title tail = true)
    (hback : isReadBack true (']' :: '(' :: linkDestination url title ++ ')' :: tail) 0 (some '[') alt = true)
    (h : c.Faces start before (Node.writeIn s.outer ⟨.image url alt title, span, []⟩ ++ tail)) :
    s.ReadsNode draft c tail ⟨.image url alt title, span, []⟩ := by
  obtain ⟨room, hroom⟩ : ∃ room, s.room = room + 1 := ⟨s.room - 1, by omega⟩
  have hwritten : Node.writeIn s.outer ⟨.image url alt title, span, []⟩ ++ tail =
      '!' :: '[' :: (escapeText alt ++ ']' :: '(' :: (linkDestination url title ++ ')' :: tail)) := by
    simp [Node.writeIn]
  rw [hwritten] at h
  obtain ⟨hexclamation, hbracket⟩ := h.descend.expect rfl
  obtain ⟨hopen, hinside⟩ := hbracket.expect rfl
  have hopening : image.opening c.descend = (some (), c.descend.advance.advance) := by
    show (expect .exclamation >>= fun _ => expect .leftBracket) _ = _
    rw [bind_some hexclamation, hopen]
  obtain ⟨nodes, c₁, start₁, before₁, hcontent, hspelt, hend⟩ := read_alt room hback hinside
  obtain ⟨place, c₂, start₂, hclosing, hbehind⟩ :=
    close_image nodes htarget hend c.descend.position
  have hattempt := (attempt_open image hopening hcontent).trans hclosing
  obtain ⟨c', hbracketed, hfaces⟩ := bracketed_read .image h hattempt hbehind
  refine ⟨⟨.image url (flattenText nodes) title, place, []⟩, c', start₂, ?_,
    read_try h rfl (.inl rfl) ?_, ?_⟩
  · rw [hspelt]
    rfl
  · rw [hroom]
    exact hbracketed
  · have hlast : (Node.writeIn s.outer ⟨.image url alt title, span, []⟩).getLast? = some ')' :=
      List.getLast?_concat
    rw [hlast]
    exact hfaces

/-- What is in brackets is read as the construct whose attempt succeeds. -/
theorem readsNode_bracket {text : List Char} {node node' : Node} {room : Nat} {c₁ : Cursor}
    {start' : Position} (hroom : s.room = room + 1)
    (h : c.Faces start before ('[' :: text))
    (hattempt : bracket {} (({} : InlineParser).atRoom room) c.descend = (some node', c₁))
    (hbehind : c₁.Faces start' (node.writeIn s.outer).getLast? tail) (hshape : node'.shape = node.shape) :
    s.ReadsNode draft c tail node := by
  obtain ⟨c', hbracketed, hfaces⟩ := bracketed_read .bracket h hattempt hbehind
  refine ⟨node', c', start', hshape, read_try h rfl (.inr rfl) ?_, hfaces⟩
  rw [hroom]
  exact hbracketed

theorem readsNode_footnote {word : List Char} {span : Span} (hroom : 0 < s.room)
    (hword : isWord word = true) (hback : isReadBack true (']' :: tail) 0 (some '^') word = true)
    (h : c.Faces start before (Node.writeIn s.outer ⟨.footnote word, span, []⟩ ++ tail)) :
    s.ReadsNode draft c tail ⟨.footnote word, span, []⟩ := by
  obtain ⟨room, hroom⟩ : ∃ room, s.room = room + 1 := ⟨s.room - 1, by omega⟩
  have hwritten : Node.writeIn s.outer ⟨.footnote word, span, []⟩ ++ tail =
      '[' :: '^' :: (escapeText word ++ ']' :: tail) := by
    simp [Node.writeIn]
  rw [hwritten] at h
  obtain ⟨place, c₁, start₁, hattempt, hbehind⟩ :=
    footnote_marks.attempt_word room hword hback h.descend
  have hlast : (Node.writeIn s.outer ⟨.footnote word, span, []⟩).getLast? = some ']' :=
    List.getLast?_concat
  rw [← hlast] at hbehind
  exact readsNode_bracket hroom h (firstOf_hit hattempt) hbehind rfl

theorem readsNode_citation {word : List Char} {span : Span} (hroom : 0 < s.room)
    (hword : isWord word = true) (hback : isReadBack true (']' :: tail) 0 (some '@') word = true)
    (h : c.Faces start before (Node.writeIn s.outer ⟨.citation word, span, []⟩ ++ tail)) :
    s.ReadsNode draft c tail ⟨.citation word, span, []⟩ := by
  obtain ⟨room, hroom⟩ : ∃ room, s.room = room + 1 := ⟨s.room - 1, by omega⟩
  have hwritten : Node.writeIn s.outer ⟨.citation word, span, []⟩ ++ tail =
      '[' :: '@' :: (escapeText word ++ ']' :: tail) := by
    simp [Node.writeIn]
  rw [hwritten] at h
  have horderly := atRoom_orderly {} room
  obtain ⟨c₁, hfootnote, hfailed, habandoned⟩ :=
    footnote_marks.attempt_miss room tail h.descend (by simp) (by simp)
  obtain ⟨c₂, hnext, hfaces⟩ := firstOf_miss [citation, link] footnote_regular horderly
    h.descend hfootnote hfailed habandoned
  obtain ⟨place, c₃, start₃, hattempt, hbehind⟩ :=
    citation_marks.attempt_word room hword hback hfaces
  have hlast : (Node.writeIn s.outer ⟨.citation word, span, []⟩).getLast? = some ']' :=
    List.getLast?_concat
  rw [← hlast] at hbehind
  exact readsNode_bracket hroom h (hnext.trans (firstOf_hit hattempt)) hbehind rfl

/-! ### Links -/

/-- Without its mark, what a mark stands in front of is legible. -/
theorem exists_cut {children : List Node} {mark : Char} (hmark : mark = '^' ∨ mark = '@')
    (hlegible : areLegible s before tail children = true) (hs : s.bracketed = true)
    (hhead : (writeIn s.outer children ++ tail).head? = some mark) (htail : tail.head? ≠ some mark) :
    ∃ cut, areLegible s (some mark) tail cut = true ∧
      writeIn s.outer children = mark :: writeIn s.outer cut ∧
      flattenText cut = (flattenText children).drop 1 := by
  cases children with
  | nil => exact absurd hhead htail
  | cons node rest =>
    obtain ⟨hnode, hapart, hrest⟩ := areLegible_cons.1 hlegible
    obtain ⟨ch, behind, hwritten, hstarts⟩ := node.starts_of_legible hnode
    obtain rfl : ch = mark := by
      rw [writeIn, hwritten] at hhead
      exact Option.some.inj hhead
    have htext := hstarts.mark hmark
    obtain ⟨kind, span, below⟩ := node
    cases kind with
    | text text =>
      simp only [Node.isLegible, Setting.wrapper?, isLegibleLeaf, Bool.and_eq_true, Bool.or_eq_true,
        Bool.not_eq_true', List.isEmpty_iff] at hnode
      obtain ⟨rfl, ⟨⟨hne, -⟩, hcrlf⟩, hback⟩ := hnode
      have hwritten : escapeText text = ch :: behind := hwritten
      obtain ⟨d, text, rfl⟩ := List.exists_cons_of_ne_nil (l := text) (by simpa using hne)
      have hplain : isMarkup d = false := by
        cases hd : isMarkup d with
        | false => rfl
        | true =>
          rw [escapeText_markup hd] at hwritten
          obtain rfl := (List.cons.inj hwritten).1
          rcases hmark with h | h <;> cases h
      rw [escapeText_plain hplain] at hwritten
      obtain ⟨rfl, rfl⟩ := List.cons.inj hwritten
      have hspecial : isSpecial d = true := by rcases hmark with rfl | rfl <;> rfl
      rw [isReadBack_cons (by rw [escapeText_plain hplain]; exact urlBehind?_of_special hspecial)] at hback
      have hwrite : Node.writeIn s.outer ⟨.text (d :: text), span, []⟩ = d :: escapeText text :=
        escapeText_plain hplain text
      rw [hwrite] at hrest
      cases text with
      | nil =>
        refine ⟨rest, hrest, ?_, ?_⟩
        · rw [writeIn, hwrite]
          rfl
        · simp [flattenText, Node.textContent]
      | cons e text =>
        refine ⟨⟨.text (e :: text), span, []⟩ :: rest, areLegible_cons.2 ⟨?_, hapart, ?_⟩, ?_, ?_⟩
        · rw [List.getLast?_cons_cons] at hcrlf
          simp only [Node.isLegible, Setting.wrapper?, isLegibleLeaf, Bool.and_eq_true,
            Bool.not_eq_true', hback, hs, hcrlf]
          simp
        · obtain ⟨f, more, hmore, -⟩ := @starts_text s none [] (e :: text) (List.cons_ne_nil e text)
          rw [hmore, List.getLast?_cons_cons, ← hmore] at hrest
          exact hrest
        · rw [writeIn, hwrite, writeIn]
          rfl
        · simp [flattenText, Node.textContent]
    | _ => cases htext

/-- The first character behind the bracket of a link's text is not a mark that is escaped. -/
theorem escape_writeIn {children : List Node} (h : areLegible s before tail children = true)
    (htail : tail.head? ≠ some '\\') (hhead : (writeIn s.outer children ++ tail).head? = some '\\') :
    ((writeIn s.outer children ++ tail).drop 1).head?.any isMarkup = true := by
  cases children with
  | nil => exact absurd hhead htail
  | cons node rest =>
    obtain ⟨hnode, -, -⟩ := areLegible_cons.1 h
    obtain ⟨ch, behind, hwritten, hstarts⟩ := node.starts_of_legible hnode
    rw [writeIn, hwritten] at hhead ⊢
    have hescape := hstarts.escape (Option.some.inj hhead)
    cases behind with
    | nil => cases hescape
    | cons d more => exact hescape

/-- Content that is not taken for a footnote or citation is read as a link's text. -/
theorem readsNode_link {kind : NodeKind} {span : Span} {children : List Node} (after : List Char)
    (hroom : 0 < s.room)
    (hwritten : Node.writeIn s.outer ⟨kind, span, children⟩ ++ tail =
      '[' :: (writeIn none children ++ ']' :: after))
    (hlegible : areLegible s.inside (some '[') (']' :: after) children = true)
    (hmark : isMark children = false)
    (hreads : ∀ nodes, (writeIn none nodes).length ≤ (writeIn none children).length →
      s.inside.Reads nodes)
    (hclosing : ∀ {c : Cursor} {start : Position} {before : Option Char}
        (content : List Node) (i : Nat),
      c.Faces start before (']' :: after) →
        ∃ place c' start', link.closing i content c = (some ⟨kind, place, content⟩, c') ∧
          c'.Faces start' (Node.writeIn s.outer ⟨kind, span, children⟩).getLast? tail)
    (h : c.Faces start before (Node.writeIn s.outer ⟨kind, span, children⟩ ++ tail)) :
    s.ReadsNode draft c tail ⟨kind, span, children⟩ := by
  obtain ⟨room, hroom⟩ : ∃ room, s.room = room + 1 := ⟨s.room - 1, by omega⟩
  have hinside : s.inside = ⟨room, true, []⟩ := by
    unfold Setting.inside
    rw [hroom]
    rfl
  rw [hinside] at hlegible hreads
  rw [hwritten] at h
  have horderly := atRoom_orderly {} room
  have hescape := escape_writeIn hlegible (by simp)
  -- Neither of the two constructs with a mark takes the content.
  have hmiss {frame : Frame} {mark : Char} {kind : List Char → NodeKind} {c : Cursor} {start : Position}
      {before : Option Char} (hmarks : Marks frame mark kind) (hch : mark = '^' ∨ mark = '@')
      (h : c.Faces start before ('[' :: (writeIn none children ++ ']' :: after))) :=
    hmarks.attempt_miss room after h hescape fun hhead => by
      have htail : (']' :: after).head? ≠ some mark := by rcases hch with rfl | rfl <;> simp
      obtain ⟨cut, hcut, hwrite, hflat⟩ := exists_cut hch hlegible rfl hhead htail
      have hwrite : writeIn none children = mark :: writeIn none cut := hwrite
      refine ⟨cut, by rw [hwrite]; rfl, hreads cut (by rw [hwrite]; simp), hcut, ?_⟩
      rw [hflat]
      have hfirst : (writeIn none children).head? = some mark := by rw [hwrite]; rfl
      simp only [isMark, hfirst] at hmark
      rcases hch with rfl | rfl <;> simpa using hmark
  obtain ⟨c₁, hfootnote, hfailed₁, habandoned₁⟩ := hmiss footnote_marks (.inl rfl) h.descend
  obtain ⟨c₂, hnext₂, hfaces₂⟩ := firstOf_miss [citation, link] footnote_regular horderly
    h.descend hfootnote hfailed₁ habandoned₁
  obtain ⟨c₃, hcitation, hfailed₃, habandoned₃⟩ := hmiss citation_marks (.inr rfl) hfaces₂
  obtain ⟨c₄, hnext₄, hfaces₄⟩ := firstOf_miss [link] citation_regular horderly
    hfaces₂ hcitation hfailed₃ habandoned₃
  obtain ⟨hopen, hcontent⟩ := hfaces₄.expect rfl
  obtain ⟨nodes, c₅, start₅, before₅, hparse, hshapes, hend⟩ :=
    read_content (hreads children (Nat.le_refl _)) hlegible hcontent
  obtain ⟨place, c₆, start₆, hclose, hbehind⟩ := hclosing nodes c₄.position hend
  have hattempt := (attempt_open link hopen hparse).trans hclose
  refine readsNode_bracket hroom h ((hnext₂.trans hnext₄).trans (firstOf_hit hattempt)) hbehind ?_
  rw [Node.shape_eq, Node.shape_eq]
  exact congrArg (Node.mk kind {}) hshapes

/-- A link with a destination is read, if trees that are written shorter are. -/
theorem readsNode_destination {url title : List Char} {span : Span} {children : List Node} {n : Nat}
    (ih : ∀ nodes, (writeIn s.inside.outer nodes).length < n → s.inside.Reads nodes)
    (hlength : (Node.writeIn s.outer ⟨.link url title, span, children⟩).length ≤ n)
    (hbracket : ¬ isAddress url title children = true) (hroom : 0 < s.room)
    (htarget : isLegibleTarget url title tail = true) (hmark : isMark children = false)
    (hchildren : areLegible s.inside (some '[')
      (']' :: '(' :: linkDestination url title ++ ')' :: tail) children = true)
    (h : c.Faces start before (Node.writeIn s.outer ⟨.link url title, span, children⟩ ++ tail)) :
    s.ReadsNode draft c tail ⟨.link url title, span, children⟩ := by
  have hwrite := @writeIn_link s.outer url title children hbracket span
  rw [hwrite] at hlength
  refine readsNode_link ('(' :: (linkDestination url title ++ ')' :: tail)) hroom
    (by rw [hwrite]; simp) hchildren hmark (fun nodes hle => ih nodes ?_) (fun _ i hfaces => ?_) h
  · show (writeIn none nodes).length < n
    simp only [List.length_append, List.length_cons] at hlength
    omega
  · obtain ⟨place, c', start', hclose, hbehind⟩ := close_link htarget hfaces i
    refine ⟨place, c', start', hclose, ?_⟩
    rw [hwrite, List.getLast?_concat]
    exact hbehind

/-- A reference is read in the same way. -/
theorem readsNode_reference {identifier : List Char} {span : Span} {children : List Node} {n : Nat}
    (ih : ∀ nodes, (writeIn s.inside.outer nodes).length < n → s.inside.Reads nodes)
    (hlength : (Node.writeIn s.outer ⟨.reference identifier [] [], span, children⟩).length ≤ n)
    (hroom : 0 < s.room) (hne : identifier ≠ []) (htrim : trim identifier = identifier)
    (hraw : isRaw .rightBracket '[' (']' :: tail) identifier = true)
    (hmark : isMark children = false)
    (hchildren : areLegible s.inside (some '[') (']' :: '[' :: identifier ++ ']' :: tail) children =
      true)
    (h : c.Faces start before
      (Node.writeIn s.outer ⟨.reference identifier [] [], span, children⟩ ++ tail)) :
    s.ReadsNode draft c tail ⟨.reference identifier [] [], span, children⟩ := by
  have hwrite : Node.writeIn s.outer ⟨.reference identifier [] [], span, children⟩ =
      '[' :: writeIn none children ++ [']', '['] ++ identifier ++ [']'] := rfl
  rw [hwrite] at hlength
  refine readsNode_link ('[' :: (identifier ++ ']' :: tail)) hroom
    (by rw [hwrite]; simp) hchildren hmark (fun nodes hle => ih nodes ?_) (fun _ i hfaces => ?_) h
  · show (writeIn none nodes).length < n
    simp only [List.length_append, List.length_cons] at hlength
    omega
  · obtain ⟨place, c', start', hclose, hbehind⟩ := close_reference hne htrim hraw hfaces i
    refine ⟨place, c', start', hclose, ?_⟩
    rw [hwrite, List.getLast?_concat]
    exact hbehind

/-! ### Trees -/

/-- A leaf is read. -/
theorem readsNode_of_leaf {kind : NodeKind} {span : Span}
    (hlegible : isLegibleLeaf s before tail kind = true)
    (hline : s.isTop = true → kind ≠ .softBreak) (hfits : draft.Fits s)
    (hends : Node.isText ⟨kind, span, []⟩ = true →
      Ends (Node.writeIn s.outer ⟨kind, span, []⟩).getLast? tail)
    (hparted : Node.isText ⟨kind, span, []⟩ = true → draft.Parted)
    (h : c.Faces start before (Node.writeIn s.outer ⟨kind, span, []⟩ ++ tail)) :
    s.ReadsNode draft c tail ⟨kind, span, []⟩ := by
  cases kind with
  | softBreak => exact absurd rfl (hline hlegible)
  | text text =>
    simp only [isLegibleLeaf, Bool.and_eq_true, Bool.or_eq_true, Bool.not_eq_true'] at hlegible
    obtain ⟨⟨⟨hne, hnewline⟩, hcrlf⟩, hback⟩ := hlegible
    have hne : text ≠ [] := by simpa using hne
    have hlast : (escapeText text).getLast? = text.getLast? := getLast?_escapeText text
    have hends : Ends text.getLast? tail := hlast ▸ hends rfl
    obtain ⟨place, c', start', hread, hfaces⟩ := Setting.read_text hfits.index (hparted rfl) h hne hends
      (fun htail hcr => by simp [htail, hcr] at hcrlf) hback fun hmem => by
        rcases hnewline with h | h
        · exact h
        · simp [hmem] at h
    refine ⟨Node.ofText text place, c', start', rfl, hread, ?_⟩
    show c'.Faces start' (escapeText text).getLast? tail
    rwa [hlast]
  | inlineCode code =>
    simp only [isLegibleLeaf, Bool.and_eq_true, Bool.not_eq_true', bne_iff_ne] at hlegible
    exact readsNode_code (by simpa using hlegible.1.1) (by simpa using hlegible.1.2) hlegible.2 h
  | formula body =>
    simp only [isLegibleLeaf, Bool.and_eq_true, Bool.not_eq_true', List.all_eq_true, bne_iff_ne]
      at hlegible
    exact readsNode_formula (by simpa using hlegible.1) hlegible.2 h
  | html html => exact readsNode_html hlegible h
  | image url alt title =>
    simp only [isLegibleLeaf, Bool.and_eq_true, decide_eq_true_eq] at hlegible
    exact readsNode_image hlegible.1.1 hlegible.1.2 hlegible.2 h
  | footnote word =>
    simp only [isLegibleLeaf, Bool.and_eq_true, decide_eq_true_eq] at hlegible
    exact readsNode_footnote hlegible.1.1 hlegible.1.2 hlegible.2 h
  | citation word =>
    simp only [isLegibleLeaf, Bool.and_eq_true, decide_eq_true_eq] at hlegible
    exact readsNode_citation hlegible.1.1 hlegible.1.2 hlegible.2 h
  | _ => cases hlegible

/-- Every node is read, if trees that are written shorter are. -/
theorem readsNode_of_legible {node : Node} {n : Nat}
    (ih : ∀ (s : Setting) (nodes : List Node), (writeIn s.outer nodes).length < n → s.Reads nodes)
    (hlength : (node.writeIn s.outer).length ≤ n)
    (hlegible : node.isLegible s before tail = true)
    (hline : s.isTop = true → node.kind ≠ .softBreak) (htildes : runLength '~' tail ≠ 1)
    (hfits : draft.Fits s)
    (hends : node.isText = true → Ends (node.writeIn s.outer).getLast? tail)
    (hparted : node.isText = true → draft.Parted)
    (h : c.Faces start before (node.writeIn s.outer ++ tail)) : s.ReadsNode draft c tail node := by
  obtain ⟨kind, span, children⟩ := node
  unfold Node.isLegible at hlegible
  split at hlegible
  · rename_i marker count hwrapper
    simp only [Bool.and_eq_true, Bool.not_eq_true'] at hlegible
    obtain ⟨⟨hopened, hne⟩, hchildren⟩ := hlegible
    have hcount := s.wrapper?_count hwrapper
    have hshort : (writeIn (s.under marker).outer children).length < n := by
      rw [writeIn_wrapper hwrapper] at hlength
      simp only [List.length_append, Marker.run, List.length_replicate] at hlength
      omega
    obtain ⟨place, nodes, c', start', hshapes, hread, hfaces⟩ :=
      Setting.read_wrapper hwrapper (by simpa using hopened) (by simpa using hne) hchildren
        (ih _ _ hshort) htildes hfits h
    refine ⟨_, c', start', ?_, hread, hfaces⟩
    rw [Node.shape_eq, Node.shape_eq]
    exact congrArg (Node.mk kind {}) hshapes
  · split at hlegible
    · rename_i url title _
      split at hlegible
      · rename_i haddress
        simp only [Bool.and_eq_true] at hlegible
        obtain ⟨rfl, place, rfl⟩ := children_of_isAddress haddress hlegible.1
        rw [writeIn_address haddress] at h
        exact readsNode_address hlegible.2 h
      · rename_i hbracket
        simp only [Bool.and_eq_true, decide_eq_true_eq, Bool.not_eq_true'] at hlegible
        obtain ⟨⟨⟨hroom, htarget⟩, hmark⟩, hchildren⟩ := hlegible
        exact readsNode_destination (ih s.inside) hlength hbracket hroom htarget hmark hchildren h
    · rename_i identifier url title _
      simp only [Bool.and_eq_true, decide_eq_true_eq, Bool.not_eq_true', List.isEmpty_iff, beq_iff_eq]
        at hlegible
      obtain ⟨⟨⟨⟨⟨⟨⟨hroom, rfl⟩, rfl⟩, hne⟩, htrim⟩, hraw⟩, hmark⟩, hchildren⟩ := hlegible
      exact readsNode_reference (ih s.inside) hlength hroom (by simpa using hne) htrim hraw hmark
        hchildren h
    · simp only [Bool.and_eq_true, List.isEmpty_iff] at hlegible
      obtain ⟨rfl, hleaf⟩ := hlegible
      exact readsNode_of_leaf hleaf hline hfits hends hparted h

/-- Legible trees side by side are read. -/
theorem reads (n : Nat) :
    ∀ (s : Setting) (nodes : List Node), (writeIn s.outer nodes).length < n → s.Reads nodes := by
  induction n with
  | zero => exact fun _ _ h => absurd h (Nat.not_lt_zero _)
  | succ n ih =>
    intro s nodes hlength before tail draft c start hlegible htail hline hfits hparted h
    cases nodes with
    | nil => exact ⟨[], c, start, rfl, by rw [Draft.add_nil], h⟩
    | cons node rest =>
      obtain ⟨hnode, hapart, hrest⟩ := areLegible_cons.1 hlegible
      obtain ⟨ch, behind, hwritten, -⟩ := node.starts_of_legible hnode
      have hsum : (node.writeIn s.outer).length + (writeIn s.outer rest).length < n + 1 := by
        rw [writeIn, List.length_append] at hlength
        exact hlength
      have hpos : 0 < (node.writeIn s.outer).length := by
        rw [hwritten]
        exact Nat.zero_lt_succ _
      rw [writeIn, List.append_assoc] at h
      obtain ⟨node', c₁, start₁, hshape, hread, hfaces⟩ := readsNode_of_legible ih (by omega) hnode
        (fun htop => hline htop node (List.mem_cons_self ..)) (tildes_writeIn hrest htail) hfits
        (fun htext => ends_writeIn hrest htail (hapart htext)) hparted h
      have hparted' : rest.head?.any Node.isText = true → (draft.push node').Parted := by
        intro hfirst
        refine Draft.parted_push draft ?_
        rw [isText_of_shape hshape]
        cases htext : node.isText with
        | false => rfl
        | true => exact absurd hfirst (by rw [hapart htext]; exact Bool.false_ne_true)
      obtain ⟨nodes, c', start', hshapes, hread', hfaces'⟩ := ih s rest (by omega) hrest htail
        (fun htop other hother => hline htop other (List.mem_cons_of_mem _ hother))
        (hfits.push node') hparted' hfaces
      refine ⟨node' :: nodes, c', start', ?_, ?_, ?_⟩
      · rw [shapes_cons, shapes_cons, hshape, hshapes]
      · rw [hread, hread', Draft.push_add]
      · rw [writeIn, List.getLast?_append, Option.or_assoc]
        rw [hwritten] at hfaces' ⊢
        rwa [List.getLast?_eq_some_getLast (List.cons_ne_nil ch behind)] at hfaces' ⊢

/-! ### Documents -/

/-- A line that is legible is read up to its end. -/
theorem line_read {ctx : Context Kind Node} {line : List Node}
    (hqueue : ctx.queue = place start (lexemesBehind before (writeIn none line ++ tail)))
    (hlegible : areLegible {} before tail line = true)
    (hline : ∀ node ∈ line, node.kind ≠ .softBreak)
    (htail : tail = [] ∨ ∃ more, tail = '\n' :: more) :
    shapes (ctx.line {}).1 = shapes line ∧ ∃ start',
      ctx.queue.drop (ctx.line {}).2.position =
        place start' (lexemesBehind ((writeIn none line).getLast?.or before) tail) := by
  have hfaces : Cursor.Faces { tokens := ctx.queue.toArray } start before (writeIn none line ++ tail) :=
    ⟨hqueue, IndexSet.contains_empty, rfl⟩
  have hcloses : Closes tail := by
    rcases htail with rfl | ⟨more, rfl⟩
    · exact closes_nil
    · exact closes_cons rfl (by decide) more
  obtain ⟨nodes, c', start', hshapes, hread, hend⟩ := reads _ {} line (Nat.lt_succ_self _) hlegible
    hcloses (fun _ => hline) (.empty _) (fun _ _ _ => rfl) hfaces
  have hstop : ∃ token, c'.peek = some token ∧ (token.isEof = true ∨ token.kind ∈ lineStop) := by
    rcases htail with rfl | ⟨more, rfl⟩
    · exact ⟨_, hend.peek_nil, .inl rfl⟩
    · have hend' : c'.Faces start' _ (['\n'] ++ more) := hend
      exact ⟨_, hend'.peek (readAs_newline more), .inr (List.mem_cons_self ..)⟩
  obtain ⟨token, hpeek, hstop⟩ := hstop
  have hparsed : ctx.line {} = (nodes, c') := by
    rw [← Draft.finish_add hlegible hshapes]
    unfold Context.line InlineParser.parse
    rw [atRoom_eq_level]
    exact Setting.level_of_read hread hpeek hstop
  have htokens := (line_leads ctx {}).tokens
  rw [hparsed] at htokens ⊢
  refine ⟨hshapes, start', ?_⟩
  have hdrop := hend.tokens
  rw [htokens] at hdrop
  exact hdrop

/-- A list of trees is a line and what is behind it. -/
theorem exists_line (nodes : List Node) : ∃ line behind, nodes = line ++ behind ∧
    (∀ node ∈ line, node.kind ≠ .softBreak) ∧ ∀ node ∈ behind.head?, node.kind = .softBreak := by
  induction nodes with
  | nil => exact ⟨[], [], rfl, nofun, nofun⟩
  | cons node rest ih =>
    by_cases hbreak : node.kind = .softBreak
    · exact ⟨[], node :: rest, rfl, nofun, by simpa using hbreak⟩
    · obtain ⟨line, behind, rfl, hline, hbehind⟩ := ih
      exact ⟨node :: line, behind, rfl, by simpa [hbreak] using hline, hbehind⟩

variable {ctx ctx' : Context Kind Node} {token : Token Kind} {queue : List (Token Kind)}
  {nodes : List Node}

/-- The nodes under the root have the shapes of the first of some trees, and the rest of these
is written in front of the driver. -/
structure Reread (nodes : List Node) (done rest : List Node) (ctx : Context Kind Node) : Prop where
  split : nodes = done ++ rest
  root : ctx.node.shape = ⟨.document, {}, shapes done⟩
  written : ∃ before start, areLegible {} before [] rest = true ∧
    ctx.queue = place start (lexemesBehind before (writeIn none rest))

theorem reread_start (h : areLegible {} none [] nodes = true) :
    Reread nodes [] nodes { queue := tokenize (toMarkdown nodes), node := Node.emptyDocument } :=
  ⟨rfl, rfl, none, {}, h, rfl⟩

theorem shape_extend {node : Node} {kind : NodeKind} {shapes' : List Node}
    (h : node.shape = ⟨kind, {}, shapes'⟩) (children : List Node) :
    (node.extend children).shape = ⟨kind, {}, shapes' ++ shapes children⟩ := by
  obtain ⟨_, _, below⟩ := node
  obtain ⟨rfl, -, rfl⟩ := Node.mk.inj h
  show Node.shape ⟨_, _, below ++ children⟩ = _
  rw [Node.shape, shapes_append]

namespace Reread
variable {done rest : List Node}

/-- The line in front of the driver is read. -/
theorem line (h : Reread nodes done rest ctx) : ∃ line behind, rest = line ++ behind ∧
    (∀ node ∈ behind.head?, node.kind = .softBreak) ∧ shapes (ctx.line {}).1 = shapes line ∧
    ∀ ctx' : Context Kind Node, ctx'.queue = ctx.queue.drop (ctx.line {}).2.position →
      ctx'.node = ctx.node.extend (ctx.line {}).1 → Reread nodes (done ++ line) behind ctx' := by
  obtain ⟨hsplit, hroot, before, start, hlegible, hplace⟩ := h
  obtain ⟨line, behind, rfl, hline, hbehind⟩ := exists_line rest
  obtain ⟨hlegibleLine, hlegibleBehind⟩ := areLegible_append hlegible
  rw [List.append_nil] at hlegibleLine
  rw [writeIn_append] at hplace
  have htail : writeIn none behind = [] ∨ ∃ text, writeIn none behind = '\n' :: text := by
    cases behind with
    | nil => exact .inl rfl
    | cons node more =>
      obtain ⟨kind, span, below⟩ := node
      obtain rfl : kind = .softBreak := hbehind _ rfl
      exact .inr ⟨_, rfl⟩
  obtain ⟨hshapes, start', hdrop⟩ := line_read hplace hlegibleLine hline htail
  refine ⟨line, behind, rfl, hbehind, hshapes, fun ctx' hqueue hnode => ⟨?_, ?_, ?_⟩⟩
  · rw [hsplit, List.append_assoc]
  · rw [hnode, shape_extend hroot, shapes_append, hshapes]
  · exact ⟨_, start', hlegibleBehind, hqueue.trans hdrop⟩

/-- Where a line ends there is a break, or nothing is left. -/
theorem stop (h : Reread nodes done rest ctx) (hqueue : ctx.queue = token :: queue)
    (hstop : token.kind ∈ lineStop) :
    (token.kind = .eof ∧ rest = []) ∨
      (token.kind = .newline ∧ ∃ node more, ∀ ctx' : Context Kind Node, ctx'.queue = queue →
        ctx'.node = ctx.node.append ⟨.softBreak, token.span, []⟩ →
          Reread nodes (done ++ [node]) more ctx') := by
  obtain ⟨line, behind, rfl, hbehind, hshapes, -⟩ := h.line
  rw [line_of_stop {} hqueue hstop] at hshapes
  obtain rfl := shapes_eq_nil hshapes.symm
  obtain ⟨hsplit, hroot, before, start, hlegible, hplace⟩ := h
  rw [List.nil_append] at *
  cases behind with
  | nil =>
    obtain ⟨rfl, -⟩ := List.cons.inj (hqueue.symm.trans hplace)
    exact .inl ⟨rfl, rfl⟩
  | cons node more =>
    obtain ⟨kind, span, below⟩ := node
    obtain rfl : kind = .softBreak := hbehind _ rfl
    obtain ⟨hleaf, -, hmore⟩ := areLegible_cons.1 hlegible
    obtain rfl : below = [] := by
      have hbelow : below.isEmpty = true := (Bool.and_eq_true _ _ ▸ hleaf).1
      simpa using hbelow
    have hnewline : ReadAs before .newline ['\n'] (writeIn none more) := readAs_newline _
    have hwritten : writeIn none (⟨.softBreak, span, []⟩ :: more) = ['\n'] ++ writeIn none more := rfl
    rw [hwritten, hnewline.lexemes] at hplace
    obtain ⟨rfl, hrest⟩ := List.cons.inj (hqueue.symm.trans hplace)
    refine .inr ⟨rfl, ⟨.softBreak, span, []⟩, more, fun ctx' hqueue' hnode => ⟨?_, ?_, ?_⟩⟩
    · rw [hsplit, List.append_assoc, List.singleton_append]
    · rw [hnode, Node.append, ← Node.extend, shape_extend hroot, shapes_append]
      rfl
    · exact ⟨some '\n', start.advance ['\n'], hmore, hqueue'.trans hrest⟩

theorem exists_token (h : Reread nodes done rest ctx) : ∃ token queue, ctx.queue = token :: queue := by
  obtain ⟨-, -, before, start, -, hplace⟩ := h
  rw [hplace]
  cases lexemesBehind before (writeIn none rest) with
  | nil => exact ⟨_, _, rfl⟩
  | cons => exact ⟨_, _, rfl⟩

/-- At the end of the input all trees have been read. -/
theorem whole (h : Reread nodes done rest ctx) (hend : ctx.AtEnd) :
    ctx.node.shape = ⟨.document, {}, shapes nodes⟩ := by
  obtain ⟨token, queue, hqueue⟩ := h.exists_token
  have heof : token.kind = .eof := by
    have hfront : ctx.front? = some token := by simp [Context.front?, hqueue]
    simpa [Token.isEof, TokenKind.isEof] using hend token hfront
  obtain ⟨-, rfl⟩ | ⟨hnewline, -⟩ := h.stop hqueue (by simp [lineStop, heof])
  · rw [h.root, h.split, List.append_nil]
  · cases heof.symm.trans hnewline

end Reread

/-- What is written for legible trees reads as those trees. -/
theorem shape_parseMarkdown (h : areLegible {} none [] nodes = true) :
    (parseMarkdown (toMarkdown nodes)).root.shape = ⟨.document, {}, shapes nodes⟩ := by
  have hbreak {ctx ctx' : Context Kind Node} {token : Token Kind} {queue : List (Token Kind)}
      (hqueue : ctx.queue = token :: queue) (hkind : token.kind = .newline) (hrest : ctx'.queue = queue)
      (hnode : ctx'.node = ctx.node.append ⟨.softBreak, token.span, []⟩) :
      (∃ done rest, Reread nodes done rest ctx) → ∃ done rest, Reread nodes done rest ctx' := by
    rintro ⟨done, rest, h⟩
    obtain ⟨heof, -⟩ | ⟨-, node, more, hnext⟩ := h.stop hqueue (by simp [lineStop, hkind])
    · cases hkind.symm.trans heof
    · exact ⟨_, _, hnext ctx' hrest hnode⟩
  obtain ⟨⟨done, rest, hreread⟩, hend⟩ := markdown_induct {} hbreak
    (fun _ _ _ hrest hnode hreread => by
      obtain ⟨done, rest, h⟩ := hreread
      obtain ⟨line, behind, -, -, -, hnext⟩ := h.line
      exact ⟨_, _, hnext _ hrest hnode⟩)
    ⟨_, _, reread_start h⟩
  exact hreread.whole hend

/-- Trees that are legible are parsed again as they were, up to their spans. -/
theorem parseMarkdown_toMarkdown (source : List Char)
    (h : areLegible {} none [] (parseMarkdown source).root.children = true) :
    (parseMarkdown (parseMarkdown source).root.toMarkdown).root.shape =
      (parseMarkdown source).root.shape := by
  have hkind := parseMarkdown_kind source {}
  generalize (parseMarkdown source).root = root at h hkind ⊢
  obtain ⟨kind, span, children⟩ := root
  obtain rfl : kind = .document := hkind
  have hwrite : Node.toMarkdown ⟨.document, span, children⟩ = toMarkdown children := rfl
  rw [hwrite, shape_parseMarkdown h, Node.shape]

/-- Every construct of a line can be legible at once. -/
theorem parseMarkdown_toMarkdown_line :
    let source := "**a _b_** ~~s~~ `x` $f$ <i> &amp; [l](u \"t\") ![i](p) [^n] [@c] \\*".toList
    (parseMarkdown (parseMarkdown source).root.toMarkdown).root.shape =
      (parseMarkdown source).root.shape :=
  parseMarkdown_toMarkdown _ (by decide +kernel)

/-- Emphasis below struck text below emphasis is not legible: the markers alternate only between
emphasis that is nested directly, so `*~~_a_~~*` is written as `*~~*a*~~*`. -/
theorem shape_toMarkdown_struck :
    (parseMarkdown (parseMarkdown "*~~_a_~~*".toList).root.toMarkdown).root.shape ≠
      (parseMarkdown "*~~_a_~~*".toList).root.shape := by
  decide +kernel

end InlineMarkdown
