import InlineMarkdown.Proofs.Destination
import InlineMarkdown.Proofs.Reading
import InlineMarkdown.Proofs.TextRuns

/-! Constructs at brackets, read as they were written.

What stands in brackets is a level of its own; behind it stand a destination, a label or
nothing. The attempts before the one that is meant fail without a trace: a link's text is not
taken for a footnote or citation (`isMark`). -/
namespace InlineMarkdown
open Attempt InlineParser

/-! ### What stands behind the content -/

section Closing
variable {c : Cursor} {start : Position} {before : Option Char} {tail : List Char}
  {children : List Node} {url title : List Char}

theorem read_destination (hlegible : isLegibleTarget url title tail = true)
    (h : c.Faces start before ('(' :: (linkDestination url title ++ ')' :: tail))) :
    ∃ c' start', destination c = (some (url, title), c') ∧ c'.Faces start' (some ')') tail := by
  simp only [isLegibleTarget, Bool.and_eq_true] at hlegible
  obtain ⟨hopen, hinside⟩ := h.expect rfl
  obtain ⟨c₁, start₁, before₁, hraw, hbehind⟩ :=
    Cursor.Faces.rawUntil ')' rfl _ hlegible.2 hinside
  obtain ⟨hclose, hafter⟩ := hbehind.expect rfl
  refine ⟨c₁.advance, _, ?_, hafter⟩
  show (expect .leftParen >>= fun _ => rawUntil .rightParen >>= fun raw =>
    expect .rightParen >>= fun _ => ofOption (splitDestination? raw)) c = _
  rw [bind_some hopen, bind_some hraw, bind_some hclose, splitDestination?_linkDestination hlegible.1]
  rfl

theorem close_link (hlegible : isLegibleTarget url title tail = true)
    (h : c.Faces start before (']' :: '(' :: (linkDestination url title ++ ')' :: tail))) (i : Nat) :
    ∃ span c' start', link.closing i children c = (some ⟨.link url title, span, children⟩, c') ∧
      c'.Faces start' (some ')') tail := by
  obtain ⟨hclose, hparen⟩ := h.expect rfl
  obtain ⟨c', start', hdestination, hbehind⟩ := read_destination hlegible hparen
  refine ⟨c'.spanSince i, c', start', ?_, hbehind⟩
  have hat : look (·.isAt .leftParen) c.advance = (some true, c.advance) := by
    simp only [look, hparen.isAt rfl]
  show (expect .rightBracket >>= fun _ => look (·.isAt .leftParen) >>= fun isParen => _) c = _
  rw [bind_some hclose, bind_some hat]
  show (destination >>= fun target => nodeSince i (.link target.1 target.2) children) c.advance = _
  rw [bind_some hdestination]
  rfl

theorem close_image (children : List Node) (hlegible : isLegibleTarget url title tail = true)
    (h : c.Faces start before (']' :: '(' :: (linkDestination url title ++ ')' :: tail))) (i : Nat) :
    ∃ span c' start', image.closing i children c =
        (some ⟨.image url (flattenText children) title, span, []⟩, c') ∧
      c'.Faces start' (some ')') tail := by
  obtain ⟨hclose, hparen⟩ := h.expect rfl
  obtain ⟨c', start', hdestination, hbehind⟩ := read_destination hlegible hparen
  refine ⟨c'.spanSince i, c', start', ?_, hbehind⟩
  show (expect .rightBracket >>= fun _ => destination >>= fun target =>
    nodeSince i (.image target.1 (flattenText children) target.2) []) c = _
  rw [bind_some hclose, bind_some hdestination]
  rfl

theorem close_reference {identifier : List Char} (hne : identifier ≠ [])
    (htrim : trim identifier = identifier)
    (hraw : isRaw .rightBracket '[' (']' :: tail) identifier = true)
    (h : c.Faces start before (']' :: '[' :: (identifier ++ ']' :: tail))) (i : Nat) :
    ∃ span c' start', link.closing i children c =
        (some ⟨.reference identifier [] [], span, children⟩, c') ∧
      c'.Faces start' (some ']') tail := by
  obtain ⟨hclose, hbracket⟩ := h.expect rfl
  obtain ⟨hopen, hinside⟩ := hbracket.expect rfl
  obtain ⟨c₁, start₁, before₁, hlabel, hbehind⟩ :=
    Cursor.Faces.rawUntil ']' rfl _ hraw hinside
  obtain ⟨hend, hafter⟩ := hbehind.expect rfl
  refine ⟨c₁.advance.spanSince i, c₁.advance, _, ?_, hafter⟩
  have hat : look (·.isAt .leftParen) c.advance = (some false, c.advance) := by
    have hne : ('[' :: (identifier ++ ']' :: tail)).head? ≠ some '(' := by simp
    simp only [look, hbracket.isAt_ne rfl hne]
  have hname : ofOption (referenceName? identifier children) c₁.advance =
      (some identifier, c₁.advance) := by
    simp [ofOption, referenceName?, htrim, hne]
  show (expect .rightBracket >>= fun _ => look (·.isAt .leftParen) >>= fun isParen => _) c = _
  rw [bind_some hclose, bind_some hat]
  show (expect .leftBracket >>= fun _ => rawUntil .rightBracket >>= fun label =>
    expect .rightBracket >>= fun _ => ofOption (referenceName? label children) >>= fun name =>
      nodeSince i (.reference name [] []) children) c.advance = _
  rw [bind_some hopen, bind_some hlabel, bind_some hend]
  show (ofOption (referenceName? identifier children) >>= fun name =>
    nodeSince i (.reference name [] []) children) c₁.advance = _
  rw [bind_some hname]
  rfl

/-- An identifier is taken if it is a word, and nothing else is. -/
theorem read_identifier (children : List Node) (h : c.Faces start before (']' :: tail)) :
    identifier children c =
      (if isWord (flattenText children) then some (flattenText children) else none, c.advance) := by
  obtain ⟨hclose, -⟩ := h.expect rfl
  show (expect .rightBracket >>= fun _ =>
    if (flattenText children).isEmpty || (flattenText children).any isSpace then Attempt.fail
    else pure (flattenText children)) c = _
  rw [bind_some hclose]
  unfold isWord
  cases (flattenText children).isEmpty <;> cases (flattenText children).any isSpace <;> rfl

end Closing

/-! ### Content that is only text -/

/-- A text, or a bare address. -/
def Node.IsFlat (node : Node) : Prop :=
  (∃ text span, node = Node.ofText text span) ∨ ∃ token, node = addressLink token

theorem Node.IsFlat.appendText? {node joined : Node} {text : List Char} {span : Span}
    (h : node.IsFlat) (hjoined : node.appendText? text span = some joined) :
    joined.IsFlat ∧ joined.textContent = node.textContent ++ text := by
  rcases h with ⟨own, place, rfl⟩ | ⟨token, rfl⟩
  · obtain rfl := Option.some.inj hjoined
    refine ⟨.inl ⟨_, _, rfl⟩, ?_⟩
    simp [Node.ofText, Node.textContent, flattenText]
  · cases hjoined

theorem bare_of_isFlat {nodes : List Node} (h : ∀ node ∈ nodes, node.IsFlat) : Bare nodes := by
  induction nodes with
  | nil => exact .nil
  | cons node rest ih =>
    obtain ⟨hnode, hrest⟩ := List.forall_mem_cons.1 h
    rcases hnode with ⟨text, span, rfl⟩ | ⟨token, rfl⟩
    · exact bare_cons.2 ⟨fun _ => rfl, .nil, ih hrest⟩
    · exact bare_cons.2 ⟨nofun, bare_ofText _ _, ih hrest⟩

/-- Nothing is open in the draft, and its nodes are texts and bare addresses. -/
structure Draft.Flat (draft : Draft) : Prop where
  stack : draft.stack = []
  nodes : ∀ node ∈ draft.nodes.toList, node.IsFlat

theorem Draft.Flat.push {draft : Draft} (h : draft.Flat) {node : Node} (hnode : node.IsFlat) :
    (draft.push node).Flat ∧
      flattenText (draft.push node).nodes.toList =
        flattenText draft.nodes.toList ++ node.textContent := by
  refine ⟨⟨h.stack, fun other hother => ?_⟩, ?_⟩
  · have hother : other ∈ draft.nodes.toList ∨ other = node := by
      simpa [Draft.push] using hother
    rcases hother with hother | rfl
    · exact h.nodes other hother
    · exact hnode
  · simp [Draft.push, flattenText_append, flattenText]

theorem Draft.Flat.pushText {draft : Draft} (h : draft.Flat) (text : List Char) (span : Span) :
    (draft.pushText text span).Flat ∧
      flattenText (draft.pushText text span).nodes.toList =
        flattenText draft.nodes.toList ++ text := by
  rcases draft.pushText_cases text span with hpush | ⟨last, joined, -, hlast, hjoined, hpush⟩
  · rw [hpush]
    have htext : (Node.ofText text span).textContent = text := by
      simp [Node.ofText, Node.textContent, flattenText]
    have hflat := h.push (.inl ⟨text, span, rfl⟩)
    rwa [htext] at hflat
  · rw [← Array.getLast?_toList] at hlast
    obtain ⟨front, hnodes⟩ := List.getLast?_eq_some_iff.1 hlast
    obtain ⟨hflat, hcontent⟩ := (h.nodes last (by rw [hnodes]; simp)).appendText? hjoined
    have hjoinedNodes : (draft.pushText text span).nodes.toList = front ++ [joined] := by
      rw [hpush]
      simp [hnodes]
    refine ⟨⟨by rw [hpush]; exact h.stack, fun other hother => ?_⟩, ?_⟩
    · rw [hjoinedNodes] at hother
      rcases List.mem_append.1 hother with hother | hother
      · exact h.nodes other (by rw [hnodes]; exact List.mem_append_left _ hother)
      · obtain rfl := List.mem_singleton.1 hother
        exact hflat
    · rw [hjoinedNodes, hnodes]
      simp [flattenText_append, flattenText, hcontent]

theorem textContent_addressLink {token : Token Kind} (h : token.text.head? ≠ some '<') :
    (addressLink token).textContent = token.text := by
  have hbetween : between? '<' '>' token.text = none := by
    cases htext : token.text with
    | nil => rfl
    | cons c rest =>
      have hc : c ≠ '<' := by
        rintro rfl
        exact h (by rw [htext]; rfl)
      simp [between?, hc]
  simp [addressLink, hbetween, Node.ofText, Node.textContent, flattenText]

/-- Text in brackets is read as text and bare addresses that say it. -/
theorem Setting.read_flat {s : Setting} {tail : List Char} (hs : s.bracketed = true) (limit : Nat) :
    ∀ {text : List Char} (draft : Draft) {c : Cursor} {start : Position} {before : Option Char},
      text.length ≤ limit → draft.Flat → isReadBack true (']' :: tail) 0 before text = true →
      c.Faces start before (escapeText text ++ ']' :: tail) →
        ∃ draft' c' start' before', s.read draft c = s.read draft' c' ∧ draft'.Flat ∧
          flattenText draft'.nodes.toList = flattenText draft.nodes.toList ++ text ∧
          c'.Faces start' before' (']' :: tail) := by
  induction limit with
  | zero =>
    intro text draft c start before hlength hflat _ h
    obtain rfl := List.eq_nil_of_length_eq_zero (Nat.le_zero.1 hlength)
    exact ⟨draft, c, start, before, rfl, hflat, by simp, h⟩
  | succ limit ih =>
    intro text draft c start before hlength hflat hback h
    by_cases hne : text = []
    · subst hne
      exact ⟨draft, c, start, before, rfl, hflat, by simp, h⟩
    have hspecial : ∀ c ∈ (']' :: tail).head?, isSpecial c = true := by
      intro c hc
      obtain rfl := Option.some.inj hc
      rfl
    obtain ⟨lexeme, rest, hpiece⟩ :=
      exists_piece hne (ends_of_special hspecial _) (by simp) hback
    have hshort : rest.length ≤ limit :=
      Nat.le_of_lt_succ (Nat.lt_of_lt_of_le hpiece.length_lt hlength)
    -- The next piece goes to the draft, as text or as an address.
    obtain ⟨draft₁, c₁, start₁, hread, hflat₁, hspelt, hfaces⟩ :
        ∃ draft₁ c₁ start₁, s.read draft c = s.read draft₁ c₁ ∧ draft₁.Flat ∧
          flattenText draft₁.nodes.toList = flattenText draft.nodes.toList ++ lexeme.text ∧
          c₁.Faces start₁ lexeme.text.getLast? (escapeText rest ++ ']' :: tail) := by
      rcases or_assoc.2 hpiece.kind_cases with hkind | ⟨hkind, -, hhead⟩
      · obtain ⟨c₁, start₁, span, hread, hfaces⟩ := read_piece (s := s) draft h hpiece hkind
          fun _ => hs
        obtain ⟨hflat₁, hspelt⟩ := hflat.pushText lexeme.text span
        exact ⟨draft.pushText lexeme.text span, c₁, start₁, hread, hflat₁, hspelt, hfaces⟩
      · obtain ⟨kind, raw⟩ := lexeme
        obtain rfl : kind = .url := hkind
        rw [hpiece.escape_eq, List.append_assoc] at h
        have hfaces := h.advance hpiece.readAs
        rw [hpiece.last] at hfaces
        have hread := read_leaf (s := s) draft h hpiece.readAs rfl
        obtain ⟨hflat₁, hspelt⟩ := hflat.push (.inr ⟨_, rfl⟩ : (addressLink _).IsFlat)
        refine ⟨_, c.advance, _, hread, hflat₁, hspelt.trans ?_, hfaces⟩
        rw [textContent_addressLink hhead]
    obtain ⟨draft', c', start', before', hrest, hflat', hspelt', hfaces'⟩ :=
      ih draft₁ hshort hflat₁ hpiece.back hfaces
    refine ⟨draft', c', start', before', hread.trans hrest, hflat', ?_, hfaces'⟩
    rw [hspelt', hspelt, List.append_assoc, ← hpiece.text_eq]

/-! ### Content as a level -/

section Content
variable {c : Cursor} {start : Position} {before : Option Char} {tail : List Char} {room : Nat}

/-- A level of content ends at the closing bracket. -/
theorem atRoom_of_read {draft : Draft} {c' : Cursor}
    (hread : Setting.read ⟨room, true, []⟩ {} c = Setting.read ⟨room, true, []⟩ draft c')
    (h : c'.Faces start before (']' :: tail)) :
    ({} : InlineParser).atRoom room [.rightBracket] c = (draft.finish, c') := by
  have hend : ReadAs before .rightBracket [']'] tail := readAs_single _ rfl
  have h' : c'.Faces start before ([']'] ++ tail) := h
  rw [atRoom_eq_level]
  exact Setting.level_of_read hread (h'.peek hend) (.inr (by simp [Setting.stop]))

/-- Legible content is read as the trees that it was. -/
theorem read_content {children : List Node} (hreads : Setting.Reads ⟨room, true, []⟩ children)
    (hlegible : areLegible ⟨room, true, []⟩ before (']' :: tail) children = true)
    (h : c.Faces start before (writeIn none children ++ ']' :: tail)) :
    ∃ nodes c' start' before', ({} : InlineParser).atRoom room [.rightBracket] c = (nodes, c') ∧
      shapes nodes = shapes children ∧ c'.Faces start' before' (']' :: tail) := by
  have hcloses : Closes (']' :: tail) := closes_cons rfl (by decide) tail
  obtain ⟨nodes, c', start', hshapes, hread, hfaces⟩ := hreads hlegible hcloses nofun (.empty _)
    (fun _ _ _ => rfl) h
  refine ⟨nodes, c', start', _, ?_, hshapes, hfaces⟩
  rw [atRoom_of_read hread hfaces, Draft.finish_add hlegible hshapes]

/-- Text that is read back is read as nodes that say it. -/
theorem read_alt (room : Nat) {text : List Char} (hback : isReadBack true (']' :: tail) 0 before text = true)
    (h : c.Faces start before (escapeText text ++ ']' :: tail)) :
    ∃ nodes c' start' before', ({} : InlineParser).atRoom room [.rightBracket] c = (nodes, c') ∧
      flattenText nodes = text ∧ c'.Faces start' before' (']' :: tail) := by
  obtain ⟨draft, c', start', before', hread, hflat, hspelt, hfaces⟩ :=
    Setting.read_flat (s := ⟨room, true, []⟩) rfl text.length {} (Nat.le_refl _) ⟨rfl, nofun⟩ hback h
  refine ⟨draft.finish, c', start', before', atRoom_of_read hread hfaces, ?_, hfaces⟩
  exact (flattenText_coalesce (bare_of_isFlat hflat.nodes)).trans (by simpa [flattenText] using hspelt)

end Content

/-! ### Attempts -/

section Attempts
variable {frame : Frame} {frames : List Frame} {parse : ParseContent} {c c₁ c₂ : Cursor}
  {start : Position} {before : Option Char} {text tail : List Char}

theorem attempt_open (frame : Frame) {content : List Node} (hopen : frame.opening c = (some (), c₁))
    (hcontent : parse [.rightBracket] c₁ = (content, c₂)) :
    frame.attempt parse c = frame.closing c.position content c₂ := by
  have hparse : ofStep (parse [.rightBracket]) c₁ = (some content, c₂) := by
    simp only [ofStep, hcontent]
  show (frame.opening >>= fun _ => ofStep (parse [.rightBracket]) >>= frame.closing c.position) c = _
  rw [bind_some hopen, bind_some hparse]

theorem attempt_closed (hopen : frame.opening c = (none, c₁)) :
    frame.attempt parse c = (none, c₁) := by
  show (frame.opening >>= fun _ => ofStep (parse [.rightBracket]) >>= frame.closing c.position) c = _
  exact bind_none hopen

theorem firstOf_hit {node : Node} (h : frame.attempt parse c = (some node, c₁)) :
    Frame.firstOf parse (frame :: frames) c = (some node, c₁) := by
  simp only [Frame.firstOf, Attempt.orElse, speculate, h]

/-- An attempt that fails leaves the cursor where it was. -/
theorem firstOf_miss (frames : List Frame) (hframe : frame.Regular) (hparse : parse.Orderly)
    (h : c.Faces start before text) (hattempt : frame.attempt parse c = (none, c₁))
    (hfailed : ∀ p, c₁.failed.contains p = false) (habandoned : c₁.abandoned = false) :
    ∃ c', Frame.firstOf parse (frame :: frames) c = Frame.firstOf parse frames c' ∧
      c'.Faces start before text := by
  have hleads := (Frame.attempt_leads hframe hparse (Nat.le_of_lt h.lt_size)).1
  rw [hattempt] at hleads
  refine ⟨(c₁.report (.noMatch frame.construct c.position)).reset c.position, ?_, ?_, hfailed,
    habandoned⟩
  · simp only [Frame.firstOf, Attempt.orElse, speculate, hattempt]
  · have hposition : min c.position c₁.tokens.size = c.position := by
      rw [hleads.tokens]
      exact Nat.min_eq_left (Nat.le_of_lt h.lt_size)
    show c₁.tokens.toList.drop (min c.position c₁.tokens.size) = _
    rw [hposition, hleads.tokens]
    exact h.tokens

/-- An attempt at a bracket with room for another level is an attempt at what it may start. -/
theorem bracketed_read (construct : Construct) {attempt : ParseContent → Attempt Node} {node : Node}
    {start' : Position} {before' : Option Char} (h : c.Faces start before text)
    (hattempt : attempt parse c.descend = (some node, c₁)) (hbehind : c₁.Faces start' before' tail) :
    ∃ c', bracketed true (some parse) construct attempt c = (some node, c') ∧
      c'.Faces start' before' tail := by
  refine ⟨c₁.ascend.2, ?_, hbehind.tokens, hbehind.failed, ?_⟩
  · have hknown : c.knownFailure c.position = false := h.failed c.position
    have hascend : c₁.ascend = (false, c₁.ascend.2) := by
      unfold Cursor.ascend
      rw [hbehind.abandoned]
    simp only [bracketed, hknown, speculate, hattempt]
    rw [hascend]
    rfl
  · show (c₁.abandoned && _) = false
    rw [hbehind.abandoned]
    rfl

end Attempts

/-! ### Footnotes and citations -/

/-- A construct that a mark behind the bracket starts, around a word. -/
structure Marks (frame : Frame) (mark : Char) (kind : List Char → NodeKind) : Prop where
  regular : frame.Regular
  opens {c : Cursor} {start : Position} {before : Option Char} {text : List Char} :
    c.Faces start before ('[' :: mark :: text) →
      ∃ c' start', frame.opening c = (some (), c') ∧ c'.Faces start' (some mark) text
  closed {c : Cursor} {start : Position} {before : Option Char} {text : List Char} :
    c.Faces start before ('[' :: text) → text.head? ≠ some mark →
      (text.head? = some '\\' → (text.drop 1).head?.any isMarkup = true) →
      ∃ c' start' before', frame.opening c = (none, c') ∧ c'.Faces start' before' text
  closing (i : Nat) (content : List Node) :
    frame.closing i content = identifier content >>= fun word => nodeSince i (kind word) []

theorem footnote_marks : Marks footnote '^' .footnote where
  regular := footnote_regular
  opens h := by
    obtain ⟨hbracket, hmark⟩ := h.expect rfl
    obtain ⟨hcaret, hbehind⟩ := hmark.expect rfl
    refine ⟨_, _, ?_, hbehind⟩
    show (expect .leftBracket >>= fun _ => expect .caret) _ = _
    rw [bind_some hbracket, hcaret]
  closed h hhead _ := by
    obtain ⟨hbracket, hbehind⟩ := h.expect rfl
    refine ⟨_, _, _, ?_, hbehind⟩
    show (expect .leftBracket >>= fun _ => expect .caret) _ = _
    rw [bind_some hbracket, hbehind.expect_ne rfl hhead]
  closing _ _ := rfl

/-- Only an at sign says an at sign, and an at sign that is escaped. -/
theorem raw_of_text_eq_at {lexeme : Lexeme} (h : lexeme.text = ['@']) :
    lexeme.raw = ['@'] ∨ lexeme.raw = ['\\', '@'] := by
  unfold Lexeme.text at h
  split at h
  · rename_i c hraw
    split at h
    · rw [hraw, h]
      simp
    · rw [h] at hraw
      exact nomatch hraw
  · exact .inl h

theorem atSign_ne {c : Cursor} {start : Position} {before : Option Char} {text : List Char}
    (h : c.Faces start before text) (hhead : text.head? ≠ some '@')
    (hescape : text.head? = some '\\' → (text.drop 1).head?.any isMarkup = true) :
    atSign c = (none, c) := by
  cases text with
  | nil =>
    unfold atSign
    rw [h.peek_nil]
    rfl
  | cons ch rest =>
    obtain ⟨raw, tail, htext, hread, -, -⟩ := exists_readAs before ch rest
    have hfaces := h
    rw [htext] at hfaces
    have hspelt : Lexeme.text ⟨(scan before ch rest).1, raw⟩ ≠ ['@'] := by
      intro hat
      rcases raw_of_text_eq_at hat with rfl | rfl
      · obtain ⟨rfl, -⟩ := List.cons.inj htext
        exact hhead rfl
      · obtain ⟨rfl, rfl⟩ := List.cons.inj htext
        exact nomatch hescape rfl
    unfold atSign
    rw [hfaces.peek hread]
    simp [hspelt]

theorem citation_marks : Marks citation '@' .citation where
  regular := citation_regular
  opens {c start before text} h := by
    obtain ⟨hbracket, hmark⟩ := h.expect rfl
    have hread : ReadAs (some '[') .text ['@'] text := readAs_at text
    have hmark : c.advance.Faces _ _ (['@'] ++ text) := hmark
    refine ⟨_, _, ?_, hmark.advance hread⟩
    show (expect .leftBracket >>= fun _ => atSign) _ = _
    rw [bind_some hbracket]
    unfold atSign
    rw [hmark.peek hread]
    rfl
  closed h hhead hescape := by
    obtain ⟨hbracket, hbehind⟩ := h.expect rfl
    refine ⟨_, _, _, ?_, hbehind⟩
    show (expect .leftBracket >>= fun _ => atSign) _ = _
    rw [bind_some hbracket, atSign_ne hbehind hhead hescape]
  closing _ _ := rfl

namespace Marks
variable {frame : Frame} {mark : Char} {kind : List Char → NodeKind} {c : Cursor} {start : Position}
  {before : Option Char} {tail : List Char}

/-- A word behind the mark is read as the construct around it. -/
theorem attempt_word (hmarks : Marks frame mark kind) (room : Nat) {word : List Char}
    (hword : isWord word = true)
    (hback : isReadBack true (']' :: tail) 0 (some mark) word = true)
    (h : c.Faces start before ('[' :: mark :: (escapeText word ++ ']' :: tail))) :
    ∃ span c' start', frame.attempt (({} : InlineParser).atRoom room) c =
        (some ⟨kind word, span, []⟩, c') ∧ c'.Faces start' (some ']') tail := by
  obtain ⟨c₁, start₁, hopen, hinside⟩ := hmarks.opens h
  obtain ⟨nodes, c₂, start₂, before₂, hcontent, hspelt, hend⟩ := read_alt room hback hinside
  obtain ⟨-, hbehind⟩ := hend.expect rfl
  refine ⟨c₂.advance.spanSince c.position, c₂.advance, _, ?_, hbehind⟩
  have hidentifier := read_identifier nodes hend
  rw [hspelt, if_pos hword] at hidentifier
  rw [attempt_open frame hopen hcontent, hmarks.closing, bind_some hidentifier]
  rfl

/-- Content that is not a word behind the mark, or has no mark, is not taken. -/
theorem attempt_miss (hmarks : Marks frame mark kind) (room : Nat) (tail : List Char)
    {text : List Char}
    (h : c.Faces start before ('[' :: text))
    (hescape : text.head? = some '\\' → (text.drop 1).head?.any isMarkup = true)
    (hcut : text.head? = some mark → ∃ nodes, text = mark :: (writeIn none nodes ++ ']' :: tail) ∧
      Setting.Reads ⟨room, true, []⟩ nodes ∧
      areLegible ⟨room, true, []⟩ (some mark) (']' :: tail) nodes = true ∧
      isWord (flattenText nodes) = false) :
    ∃ c', frame.attempt (({} : InlineParser).atRoom room) c = (none, c') ∧
      (∀ p, c'.failed.contains p = false) ∧ c'.abandoned = false := by
  by_cases hhead : text.head? = some mark
  · obtain ⟨nodes, rfl, hreads, hlegible, hword⟩ := hcut hhead
    obtain ⟨c₁, start₁, hopen, hinside⟩ := hmarks.opens h
    obtain ⟨content, c₂, start₂, before₂, hcontent, hshapes, hend⟩ :=
      read_content hreads hlegible hinside
    have hidentifier := read_identifier content hend
    rw [flattenText_of_shapes hshapes, hword, if_neg Bool.false_ne_true] at hidentifier
    refine ⟨c₂.advance, ?_, hend.failed, hend.abandoned⟩
    rw [attempt_open frame hopen hcontent, hmarks.closing]
    exact bind_none hidentifier
  · obtain ⟨c', start', before', hclosed, hbehind⟩ := hmarks.closed h hhead hescape
    exact ⟨c', attempt_closed hclosed, hbehind.failed, hbehind.abandoned⟩

end Marks

end InlineMarkdown
