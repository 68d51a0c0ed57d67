import InlineMarkdown.Markdown
import InlineMarkdown.Proofs.Facing
import InlineMarkdown.Proofs.Progress
import InlineMarkdown.Proofs.Stack

/-! Reading what is written, one level at a time.

`Setting.read` takes a draft and a cursor to where the level ends. What stands in front of
the cursor is taken away piece by piece: reading on from a text, a leaf or a run of markers is
reading on behind it with a draft that has it. A run that closes one wrapper and opens the
next is read as two (`read_close`). -/
namespace InlineMarkdown
open InlineParser

/-- Text that is added to the draft is not joined to what stands there. -/
def Draft.Parted (draft : Draft) : Prop :=
  ∀ text span, draft.pushText text span = draft.push (Node.ofText text span)

/-- The kinds at which a level ends. -/
def Setting.stop (s : Setting) : List Kind := if s.bracketed then [.rightBracket] else lineStop

/-- What the parser, with every construct switched on, makes of the rest of a level. -/
def Setting.read (s : Setting) (draft : Draft) (c : Cursor) : Draft × Cursor :=
  ({} : InlineParser).steps (({} : InlineParser).inside s.room) s.stop c.remaining draft c

namespace Setting
variable {s : Setting} {draft : Draft} {c : Cursor} {start : Position} {before : Option Char}
  {tail : List Char}

theorem read_stop {token : Token Kind} (hpeek : c.peek = some token)
    (hstop : token.isEof = true ∨ token.kind ∈ s.stop) : s.read draft c = (draft, c) := by
  refine steps_of_stopsAt hpeek ?_ _ _
  rcases hstop with h | h <;> simp [stopsAt, h]

/-- What was read of a level that ends here is what the level is. -/
theorem level_of_read {token : Token Kind} {c' : Cursor} (hread : s.read {} c = s.read draft c')
    (hpeek : c'.peek = some token) (hstop : token.isEof = true ∨ token.kind ∈ s.stop) :
    ({} : InlineParser).level (({} : InlineParser).inside s.room) s.stop c = (draft.finish, c') := by
  rw [read_stop hpeek hstop] at hread
  unfold level
  have hsteps : ({} : InlineParser).steps (({} : InlineParser).inside s.room) s.stop c.remaining {} c =
      (draft, c') := hread
  rw [hsteps]

/-- Reading on from a token at which the level does not end is a step and reading on. -/
theorem read_step {token : Token Kind} (hpeek : c.peek = some token) (habandoned : c.abandoned = false)
    (heof : token.kind ≠ .eof) (hstop : token.kind ∉ s.stop) :
    s.read draft c =
      s.read (({} : InlineParser).step (({} : InlineParser).inside s.room) token draft c).1
        (({} : InlineParser).step (({} : InlineParser).inside s.room) token draft c).2 := by
  apply steps_step (inside_orderly {} s.room) hpeek
  simp [stopsAt, Token.isEof, TokenKind.isEof, heof, hstop, habandoned]

theorem not_mem_stop {kind : Kind} (hbracket : kind ≠ .rightBracket) (heof : kind ≠ .eof)
    (hnewline : kind = .newline → s.bracketed = true) : kind ∉ s.stop := by
  unfold stop
  split
  · simpa using hbracket
  · rename_i hline
    simp only [lineStop, List.mem_cons, List.not_mem_nil, or_false, not_or]
    exact ⟨fun h => hline (hnewline h), heof⟩

/-! ### Text -/

theorem step_text {token : Token Kind} (h : token.kind.isTextual = true ∨ token.kind = .newline)
    (inner : Option ParseContent) (draft : Draft) (c : Cursor) :
    ({} : InlineParser).step inner token draft c = (draft.pushText token.text token.span, c.advance) := by
  unfold step leaf?
  cases hkind : token.kind <;> simp [hkind, Kind.isTextual] at h ⊢

/-- What a piece of text says goes to the draft. -/
theorem read_piece (draft : Draft) {addresses : Bool} {text rest : List Char} {lexeme : Lexeme}
    (h : c.Faces start before (escapeText text ++ tail))
    (hpiece : Pieced addresses before tail text lexeme rest)
    (hkind : lexeme.kind.isTextual = true ∨ lexeme.kind = .newline ∧ '\n' ∈ lexeme.text)
    (hline : '\n' ∈ lexeme.text → s.bracketed = true) :
    ∃ c' start' span, s.read draft c = s.read (draft.pushText lexeme.text span) c' ∧
      c'.Faces start' lexeme.text.getLast? (escapeText rest ++ tail) := by
  rw [hpiece.escape_eq, List.append_assoc] at h
  have hfaces := h.advance hpiece.readAs
  rw [hpiece.last] at hfaces
  have hpassed : lexeme.kind ≠ .eof ∧ lexeme.kind ∉ s.stop := by
    rcases hkind with h | ⟨h, hmem⟩
    · cases hk : lexeme.kind <;> rw [hk] at h <;>
        first | (cases h; done) | exact ⟨nofun, not_mem_stop nofun nofun nofun⟩
    · rw [h]
      exact ⟨nofun, not_mem_stop nofun nofun fun _ => hline hmem⟩
  refine ⟨c.advance, _, ⟨start, start.advance lexeme.raw⟩, ?_, hfaces⟩
  rw [read_step (h.peek hpiece.readAs) h.abandoned hpassed.1 hpassed.2,
    step_text (hkind.imp_right And.left)]

theorem pushText_push (hindex : ∀ d ∈ draft.stack, d.index < draft.nodes.size) (text part : List Char)
    (span other : Span) :
    (draft.push (Node.ofText text span)).pushText part other =
      draft.push (Node.ofText (text ++ part) ⟨span.start, other.stop⟩) := by
  have hopen : (draft.push (Node.ofText text span)).lastIsOpen = false := by
    refine List.any_eq_false.2 fun d hd => ?_
    have := hindex d hd
    simp [Draft.push]
    omega
  unfold Draft.pushText
  rw [hopen]
  simp [Draft.push, Node.ofText, Node.appendText?]

/-- Behind a text of its own, the rest of the text is read into it. -/
theorem read_textRest (hindex : ∀ d ∈ draft.stack, d.index < draft.nodes.size) (limit : Nat) :
    ∀ (own : List Char) (span : Span) {text : List Char} {c : Cursor} {start : Position}
        {before : Option Char}, text.length ≤ limit → c.Faces start before (escapeText text ++ tail) →
      Ends (text.getLast?.or before) tail →
      (tail.head? = some '\n' → text.getLast?.or before ≠ some '\r') →
      isReadBack false tail 0 before text = true → ('\n' ∈ text → s.bracketed = true) →
        ∃ span' c' start', s.read (draft.push (Node.ofText own span)) c =
            s.read (draft.push (Node.ofText (own ++ text) span')) c' ∧
          c'.Faces start' (text.getLast?.or before) tail := by
  induction limit with
  | zero =>
    intro own span text c start before hlength h _ _ _ _
    obtain rfl := List.eq_nil_of_length_eq_zero (Nat.le_zero.1 hlength)
    exact ⟨span, c, start, by rw [List.append_nil], h⟩
  | succ limit ih =>
    intro own span text c start before hlength h hends hcrlf hback hline
    by_cases hne : text = []
    · subst hne
      exact ⟨span, c, start, by rw [List.append_nil], h⟩
    have hlast : text.getLast?.or before = text.getLast? := by
      rw [List.getLast?_eq_some_getLast hne]
      rfl
    rw [hlast] at hends hcrlf ⊢
    obtain ⟨lexeme, rest, hpiece⟩ := exists_piece hne hends hcrlf hback
    have hbefore : rest.getLast?.or lexeme.text.getLast? = text.getLast? := by
      rw [hpiece.text_eq, List.getLast?_append]
    have hpart : '\n' ∈ lexeme.text → s.bracketed = true := fun h =>
      hline (by rw [hpiece.text_eq]; exact List.mem_append_left _ h)
    obtain ⟨c₁, start₁, span₁, hread, hfaces⟩ := read_piece (draft.push (Node.ofText own span))
      h hpiece hpiece.kind_of_no_address hpart
    have hshort : rest.length ≤ limit :=
      Nat.le_of_lt_succ (Nat.lt_of_lt_of_le hpiece.length_lt hlength)
    obtain ⟨span', c', start', hrest, hfaces'⟩ := ih (own ++ lexeme.text) ⟨span.start, span₁.stop⟩
      hshort hfaces (by rwa [hbefore]) (by rwa [hbefore]) hpiece.back fun h =>
        hline (by rw [hpiece.text_eq]; exact List.mem_append_right _ h)
    refine ⟨span', c', start', ?_, by rwa [hbefore] at hfaces'⟩
    rw [hread, pushText_push hindex, hrest, hpiece.text_eq, List.append_assoc]

/-- A legible text is read as one node. -/
theorem read_text {text : List Char} (hindex : ∀ d ∈ draft.stack, d.index < draft.nodes.size)
    (hparted : draft.Parted) (h : c.Faces start before (escapeText text ++ tail)) (hne : text ≠ [])
    (hends : Ends text.getLast? tail) (hcrlf : tail.head? = some '\n' → text.getLast? ≠ some '\r')
    (hback : isReadBack false tail 0 before text = true) (hline : '\n' ∈ text → s.bracketed = true) :
    ∃ span c' start', s.read draft c = s.read (draft.push (Node.ofText text span)) c' ∧
      c'.Faces start' text.getLast? tail := by
  obtain ⟨lexeme, rest, hpiece⟩ := exists_piece hne hends hcrlf hback
  have hlast : rest.getLast?.or lexeme.text.getLast? = text.getLast? := by
    rw [hpiece.text_eq, List.getLast?_append]
  obtain ⟨c₁, start₁, span₁, hread, hfaces⟩ := read_piece (s := s) draft h hpiece
    hpiece.kind_of_no_address fun h => hline (by rw [hpiece.text_eq]; exact List.mem_append_left _ h)
  obtain ⟨span, c', start', hrest, hfaces'⟩ := read_textRest (s := s) hindex rest.length
    lexeme.text span₁ (Nat.le_refl _) hfaces (by rwa [hlast]) (by rwa [hlast])
    hpiece.back fun h => hline (by rw [hpiece.text_eq]; exact List.mem_append_right _ h)
  refine ⟨span, c', start', ?_, by rwa [hlast] at hfaces'⟩
  rw [hread, hparted, hrest, ← hpiece.text_eq]

/-! ### Leaves -/

/-- A lexeme that is a node of its own goes to the draft as that node. -/
theorem read_leaf (draft : Draft) {kind : Kind} {raw : List Char} {node : Node}
    (h : c.Faces start before (raw ++ tail)) (hread : ReadAs before kind raw tail)
    (hleaf : leaf? {} ⟨kind, Lexeme.text ⟨kind, raw⟩, ⟨start, start.advance raw⟩⟩ = some node) :
    s.read draft c = s.read (draft.push node) c.advance := by
  have hkind : kind ≠ .rightBracket ∧ kind ≠ .eof ∧ kind ≠ .newline := by
    refine ⟨?_, ?_, ?_⟩ <;> · rintro rfl; exact nomatch hleaf
  rw [read_step (h.peek hread) h.abandoned hkind.2.1
    (not_mem_stop hkind.1 hkind.2.1 fun h => absurd h hkind.2.2)]
  have hstep (inner : Option ParseContent) : ({} : InlineParser).step inner
      ⟨kind, Lexeme.text ⟨kind, raw⟩, ⟨start, start.advance raw⟩⟩ draft c =
        (draft.push node, c.advance) := by
    cases kind with
    | asterisk | underscore | tilde | exclamation | leftBracket => exact nomatch hleaf
    | _ =>
      simp only [step]
      rw [hleaf]
  rw [hstep]

end Setting

/-! ### Runs of markers -/

namespace Draft
variable {draft : Draft} {marker : Marker} {count : Nat} {place : Position}

theorem resolveUpTo_eq {m n : Nat} (hm : count ≤ m) (hn : count ≤ n) :
    resolveUpTo marker m count place draft = resolveUpTo marker n count place draft := by
  induction m generalizing n count place draft with
  | zero =>
    obtain rfl := Nat.le_zero.1 hm
    cases n <;> rfl
  | succ m ih =>
    cases n with
    | zero =>
      obtain rfl := Nat.le_zero.1 hn
      rfl
    | succ n =>
      unfold resolveUpTo
      split
      · rfl
      · rename_i hcount
        split
        · rfl
        · rename_i opener below used hclosing
          obtain ⟨-, -, -, hused⟩ := closing?_eq_some hclosing
          have hpos := used_pos hused
          exact ih (by omega) (by omega)

/-- Where nothing of its kind is open, a run is opened. -/
theorem resolve_open (hopened : ∀ d ∈ draft.stack, d.marker ≠ marker) (hcount : 0 < count) :
    draft.resolve marker count place = draft.openRun marker count place := by
  obtain ⟨n, rfl⟩ : ∃ n, count = n + 1 := ⟨count - 1, by omega⟩
  have hclosing : draft.closing? marker (n + 1) = none := by
    have hdrop : draft.stack.dropWhile (·.marker != marker) = [] :=
      List.dropWhile_eq_nil_iff.2 fun d hd => by simpa using hopened d hd
    unfold closing?
    rw [hdrop]
  unfold resolve resolveUpTo
  rw [if_neg (Nat.succ_ne_zero n), hclosing]

/-- Markers close the last open run if that is as long. What is behind them is a run of its
own. -/
theorem resolve_close {opener : Delimiter} {below : List Delimiter} {used : Nat}
    (hstack : draft.stack = opener :: below) (hopener : opener.count = used)
    (hcount : used = 2 ∨ used = 1 ∧ opener.marker ≠ .tilde) (more : Nat) :
    draft.resolve opener.marker (used + more) place =
      (draft.wrap opener below used (place.advance (opener.marker.run used))).resolve
        opener.marker more (place.advance (opener.marker.run used)) := by
  have hused : opener.marker.used? opener.count (used + more) = some used := by
    rw [hopener]
    rcases hcount with rfl | ⟨rfl, hne⟩
    · have hlong : ¬ 2 + more < 2 := Nat.not_lt.2 (Nat.le_add_right 2 more)
      cases opener.marker <;> simp [Marker.used?, hlong]
    · cases hmarker : opener.marker with
      | tilde => exact absurd hmarker hne
      | asterisk | underscore => rfl
  have hclosing : draft.closing? opener.marker (used + more) = some (opener, below, used) := by
    unfold closing?
    rw [hstack, List.dropWhile_cons_of_neg (by simp)]
    simp only [hused, Option.map_some]
  obtain ⟨n, hn⟩ : ∃ n, used = n + 1 := ⟨used - 1, by omega⟩
  have hlimit : used + more = (n + more) + 1 := by omega
  unfold resolve
  conv => lhs; rw [hlimit]; unfold resolveUpTo
  rw [← hlimit, if_neg (by omega), hclosing]
  dsimp only
  rw [Nat.add_sub_cancel_left]
  exact resolveUpTo_eq (by omega) (Nat.le_refl _)

end Draft

namespace Cursor.Faces
variable {c : Cursor} {start : Position} {before : Option Char} {tail : List Char} {marker : Marker}
  {n : Nat}

theorem peek_run (h : c.Faces start before (marker.run n ++ tail)) (hpos : 0 < n) :
    ∃ token, c.peek = some token ∧ token.kind = marker.kind := by
  obtain ⟨m, rfl⟩ : ∃ m, n = m + 1 := ⟨n - 1, (Nat.succ_pred_eq_of_pos hpos).symm⟩
  have hread : ReadAs before marker.kind [marker.char] (marker.run m ++ tail) :=
    readAs_single _ (by cases marker <;> rfl)
  have h' : c.Faces start before ([marker.char] ++ (marker.run m ++ tail)) := h
  exact ⟨_, h'.peek hread, rfl⟩

/-- A run of markers is passed as a whole. -/
theorem exists_runDraft (h : c.Faces start before (marker.run n ++ tail)) (parser : InlineParser)
    (hpos : 0 < n) (htail : tail.head? ≠ some marker.char) (draft : Draft) :
    ∃ first rest, first.span.start = start ∧ rest.length + 1 = n ∧
      parser.delimiterRun marker draft c =
        (runDraft parser.options marker first rest draft, { c with position := c.position + n }) := by
  obtain ⟨hlength, hstart⟩ := h.run_eq n htail
  have hne : Cursor.runFrom c.tokens marker.kind c.remaining c.position ≠ [] :=
    List.ne_nil_of_length_pos (hlength ▸ hpos)
  obtain ⟨first, rest, hrun⟩ := List.exists_cons_of_ne_nil hne
  rw [hrun, List.length_cons] at hlength
  rw [hrun] at hstart
  subst hlength
  refine ⟨first, rest, hstart first rfl, rfl, ?_⟩
  unfold InlineParser.delimiterRun Cursor.bumpRun runDraft
  simp only [hrun, List.head?_cons, List.getLast?_cons, List.length_cons]
  split <;> rfl

/-- A run of markers is resolved as a whole, if tildes are more than one and mean something. -/
theorem delimiterRun (h : c.Faces start before (marker.run n ++ tail)) (parser : InlineParser)
    (hpos : 0 < n) (htail : tail.head? ≠ some marker.char)
    (htilde : marker = .tilde → n ≠ 1 ∧ parser.options.strikethrough = true) (draft : Draft) :
    parser.delimiterRun marker draft c =
      (draft.resolve marker n start, { c with position := c.position + n }) := by
  obtain ⟨first, rest, rfl, rfl, hrun⟩ := h.exists_runDraft parser hpos htail draft
  rw [hrun, runDraft_eq_resolve htilde]

end Cursor.Faces

namespace Setting
variable {s : Setting} {draft : Draft} {c : Cursor} {start : Position} {before : Option Char}
  {tail : List Char} {marker : Marker}

/-- A run of markers is resolved as a whole. -/
theorem read_run {n : Nat} (h : c.Faces start before (marker.run n ++ tail)) (hpos : 0 < n)
    (htail : tail.head? ≠ some marker.char) (htilde : marker = .tilde → n ≠ 1) :
    s.read draft c = s.read (draft.resolve marker n start) { c with position := c.position + n } ∧
      Cursor.Faces { c with position := c.position + n } (start.advance (marker.run n))
        (some marker.char) tail := by
  obtain ⟨token, hpeek, hkind⟩ := h.peek_run hpos
  have hrun := h.delimiterRun {} hpos htail (fun h => ⟨htilde h, rfl⟩) draft
  have hfaces := h.pass_run n
  rw [if_neg (Nat.ne_of_gt hpos)] at hfaces
  refine ⟨?_, hfaces⟩
  rw [read_step hpeek h.abandoned (by rw [hkind]; cases marker <;> nofun)
    (by rw [hkind]; cases marker <;> exact not_mem_stop nofun nofun nofun),
    step_of_marker _ _ hkind, hrun]

/-- A text is a run of a marker and what stands behind that. -/
theorem exists_run (marker : Marker) (text : List Char) :
    ∃ rest, text = marker.run (runLength marker.char text) ++ rest ∧ rest.head? ≠ some marker.char := by
  refine ⟨text.dropWhile (· == marker.char), ?_, ?_⟩
  · have hrun : marker.run (runLength marker.char text) = text.takeWhile (· == marker.char) :=
      (List.eq_replicate_iff.2 ⟨rfl, fun c hc => by simpa using List.mem_takeWhile_imp hc⟩).symm
    rw [hrun, List.takeWhile_append_dropWhile]
  · have hhead := List.head?_dropWhile_not (· == marker.char) text
    intro hsome
    rw [hsome] at hhead
    simp at hhead

/-- Markers close the last open run if that is as long, even if others of the kind follow. -/
theorem read_close {opener : Delimiter} {below : List Delimiter} {used : Nat}
    (hstack : draft.stack = opener :: below) (hopener : opener.count = used)
    (hcount : used = 2 ∨ used = 1 ∧ opener.marker ≠ .tilde)
    (htail : opener.marker = .tilde → runLength '~' tail ≠ 1)
    (h : c.Faces start before (opener.marker.run used ++ tail)) :
    ∃ stop c' start', s.read draft c = s.read (draft.wrap opener below used stop) c' ∧
      c'.Faces start' (some opener.marker.char) tail := by
  obtain ⟨rest, hrest, hend⟩ := exists_run opener.marker tail
  have htilde : opener.marker = .tilde → runLength opener.marker.char tail ≠ 1 := by
    intro hmarker
    rw [hmarker]
    exact htail hmarker
  generalize runLength opener.marker.char tail = more at hrest htilde
  have hpos : 0 < used := by omega
  have hwhole : opener.marker.run used ++ tail = opener.marker.run (used + more) ++ rest := by
    conv => lhs; rw [hrest]
    unfold Marker.run
    rw [← List.append_assoc, List.replicate_append_replicate]
  have hbehind := h.pass_run used
  rw [if_neg (by omega)] at hbehind
  rw [hwhole] at h
  have hlong : opener.marker = .tilde → used + more ≠ 1 := by
    intro hmarker
    rcases hcount with rfl | ⟨-, hne⟩
    · omega
    · exact absurd hmarker hne
  obtain ⟨hread, -⟩ := @read_run s draft c start before rest opener.marker _ h (by omega) hend hlong
  rw [Draft.resolve_close hstack hopener hcount more] at hread
  refine ⟨start.advance (opener.marker.run used), _, _, ?_, hbehind⟩
  rw [hread]
  by_cases hnone : more = 0
  · subst hnone
    rfl
  · -- What is left of the run is read in the same way from behind the closing markers.
    rw [hrest] at hbehind
    obtain ⟨hread', -⟩ := @read_run s _ _ _ _ rest opener.marker _ hbehind (by omega) hend htilde
    rw [hread', Nat.add_assoc]

end Setting

/-! ### Trees side by side -/

/-- The draft with nodes behind its own. -/
def Draft.add (draft : Draft) (nodes : List Node) : Draft :=
  { draft with nodes := draft.nodes ++ nodes.toArray }

@[simp] theorem Draft.add_nil (draft : Draft) : draft.add [] = draft := by simp [Draft.add]

theorem Draft.push_add (draft : Draft) (node : Node) (nodes : List Node) :
    (draft.push node).add nodes = draft.add (node :: nodes) := by
  simp [Draft.add, Draft.push]

/-- Legible trees are not joined when the level ends. -/
theorem Draft.finish_add {s : Setting} {before : Option Char} {tail : List Char} {nodes trees : List Node}
    (hlegible : areLegible s before tail trees = true) (hshapes : shapes nodes = shapes trees) :
    (Draft.add {} nodes).finish = nodes := by
  have htidy := HasLegible.tidy trees ⟨_, _, _, hlegible⟩ hshapes
  simpa [Draft.finish, Draft.add] using htidy.coalesce

/-- The open runs of the draft are of the markers that are open, and stand among its nodes. -/
structure Draft.Fits (draft : Draft) (s : Setting) : Prop where
  opened : ∀ d ∈ draft.stack, d.marker ∈ s.opened
  index : ∀ d ∈ draft.stack, d.index < draft.nodes.size

theorem Draft.Fits.empty (s : Setting) : Draft.Fits {} s := by
  constructor <;> simp

theorem Draft.Fits.push {draft : Draft} {s : Setting} (h : draft.Fits s) (node : Node) :
    (draft.push node).Fits s :=
  ⟨h.opened, fun d hd => Nat.lt_of_lt_of_le (h.index d hd) (by simp [Draft.push])⟩

theorem Draft.Fits.openRun {draft : Draft} {s : Setting} (h : draft.Fits s) (marker : Marker)
    (count : Nat) (place : Position) : (draft.openRun marker count place).Fits (s.under marker) := by
  constructor
  · intro d hd
    rcases List.mem_cons.1 hd with rfl | hd
    · exact List.mem_cons_self ..
    · exact List.mem_cons_of_mem _ (h.opened d hd)
  · intro d hd
    have hsize : (draft.openRun marker count place).nodes.size = draft.nodes.size + 1 := by
      simp [Draft.openRun]
    rw [hsize]
    rcases List.mem_cons.1 hd with rfl | hd
    · exact Nat.lt_succ_self _
    · exact Nat.lt_succ_of_lt (h.index d hd)

theorem Draft.parted_openRun (draft : Draft) (marker : Marker) (count : Nat) (place : Position) :
    (draft.openRun marker count place).Parted := by
  have hopen : (draft.openRun marker count place).lastIsOpen = true := by
    simp [Draft.lastIsOpen, Draft.openRun]
  intro text span
  unfold Draft.pushText
  rw [hopen]
  rfl

theorem Draft.parted_push (draft : Draft) {node : Node} (h : node.isText = false) :
    (draft.push node).Parted := by
  have happend (text : List Char) (span : Span) : node.appendText? text span = none := by
    obtain ⟨kind, span, children⟩ := node
    cases kind <;> first | rfl | cases h
  intro text span
  unfold Draft.pushText
  have hback : (draft.push node).nodes.back?.bind (·.appendText? text span) = none := by
    simp [Draft.push, happend]
  split
  · rename_i joined hjoined
    split at hjoined
    · cases hjoined
    · rw [hback] at hjoined
      cases hjoined
  · rfl

/-- A run that is closed wraps all that was read since. -/
theorem Draft.wrap_add (draft : Draft) (marker : Marker) (used : Nat) (place stop : Position)
    (nodes : List Node) :
    ((draft.openRun marker used place).add nodes).wrap ⟨marker, used, draft.nodes.size, place⟩
        draft.stack used stop =
      draft.push ⟨marker.wrapper used, ⟨place, stop⟩, nodes⟩ := by
  have hnodes : ((draft.openRun marker used place).add nodes).nodes.toList =
      draft.nodes.toList ++ Node.ofText (marker.run used) (Span.covering place (marker.run used)) ::
        nodes := by
    simp [Draft.add, Draft.openRun]
  have hcut : ((draft.openRun marker used place).add nodes).cut
      ⟨marker, used, draft.nodes.size, place⟩ draft.stack = draft := by
    have hshrink : ((draft.openRun marker used place).add nodes).nodes.shrink draft.nodes.size =
        draft.nodes := by
      refine Array.toList_inj.1 ?_
      rw [Array.toList_shrink, hnodes, ← Array.length_toList, List.take_left]
    unfold Draft.cut
    rw [hshrink]
  rw [Draft.wrap_of_le (Nat.le_refl _), hcut]
  unfold Draft.wrapped
  rw [hnodes, ← Array.length_toList, List.drop_length_add_append]
  rfl

/-- Legible trees are read as they were. At the top a line of them is, without its breaks. -/
def Setting.Reads (s : Setting) (nodes : List Node) : Prop :=
  ∀ {before : Option Char} {tail : List Char} {draft : Draft} {c : Cursor} {start : Position},
    areLegible s before tail nodes = true → Closes tail →
    (s.isTop = true → ∀ node ∈ nodes, node.kind ≠ .softBreak) →
    draft.Fits s → (nodes.head?.any Node.isText = true → draft.Parted) →
    c.Faces start before (writeIn s.outer nodes ++ tail) →
      ∃ nodes' c' start', shapes nodes' = shapes nodes ∧
        s.read draft c = s.read (draft.add nodes') c' ∧
          c'.Faces start' ((writeIn s.outer nodes).getLast?.or before) tail

namespace Setting
variable {s : Setting} {draft : Draft} {c : Cursor} {start : Position} {before : Option Char}
  {tail : List Char}

theorem closes_run {marker : Marker} {count : Nat} (hcount : count = 2 ∨ count = 1 ∧ marker ≠ .tilde)
    (tail : List Char) : Closes (marker.run count ++ tail) := by
  have hspecial : isSpecial marker.char = true := by cases marker <;> rfl
  constructor
  · intro c hc
    rcases hcount with rfl | ⟨rfl, -⟩ <;>
    · obtain rfl := Option.some.inj hc
      exact hspecial
  · rcases hcount with rfl | ⟨rfl, hne⟩
    · cases marker <;> simp [Marker.run, Marker.char, List.replicate_succ, runLength]
    · cases marker with
      | tilde => exact absurd rfl hne
      | asterisk | underscore => simp [Marker.run, Marker.char, runLength]

theorem wrapper_eq {kind : NodeKind} {marker : Marker} {count : Nat}
    (h : s.wrapper? kind = some (marker, count)) : marker.wrapper count = kind := by
  have hcases : s.marker = .asterisk ∨ s.marker = .underscore := by
    unfold Setting.marker
    split <;> simp
  cases kind with
  | emphasis | strong =>
    obtain ⟨rfl, rfl⟩ := Prod.mk.inj (Option.some.inj h)
    rcases hcases with h | h <;> rw [h] <;> rfl
  | strike =>
    obtain ⟨rfl, rfl⟩ := Prod.mk.inj (Option.some.inj h)
    rfl
  | _ => exact nomatch h

/-- What stands between two runs of a marker that is not open becomes one node. -/
theorem read_wrapper {kind : NodeKind} {span : Span} {children : List Node} {marker : Marker}
    {count : Nat} (hwrapper : s.wrapper? kind = some (marker, count))
    (hopened : marker ∉ s.opened) (hne : children ≠ [])
    (hlegible : areLegible (s.under marker) (some marker.char) (marker.run count ++ tail) children = true)
    (hchildren : (s.under marker).Reads children) (htail : runLength '~' tail ≠ 1)
    (hfits : draft.Fits s)
    (h : c.Faces start before (Node.writeIn s.outer ⟨kind, span, children⟩ ++ tail)) :
    ∃ span' nodes c' start', shapes nodes = shapes children ∧
      s.read draft c = s.read (draft.push ⟨kind, span', nodes⟩) c' ∧
        c'.Faces start' (Node.writeIn s.outer ⟨kind, span, children⟩).getLast? tail := by
  have hcount := s.wrapper?_count hwrapper
  rw [writeIn_wrapper hwrapper, List.append_assoc, List.append_assoc] at h
  rw [writeIn_wrapper hwrapper]
  have hhead := head?_writeIn hlegible hne (List.mem_cons_self ..)
  obtain ⟨hopen, hinside⟩ := read_run (s := s) h (by omega) hhead fun hmarker => by
    rcases hcount with h | h
    · omega
    · exact absurd hmarker h.2
  have hnone : ∀ d ∈ draft.stack, d.marker ≠ marker := by
    rintro d hd rfl
    exact hopened (hfits.opened d hd)
  rw [Draft.resolve_open hnone (by omega)] at hopen
  obtain ⟨nodes, c₁, start₁, hshapes, hread, hfaces⟩ := hchildren hlegible
    (closes_run hcount tail) (by simp [isTop, under]) (hfits.openRun marker count start)
    (fun _ => draft.parted_openRun marker count start) hinside
  obtain ⟨stop, c₂, start₂, hclose, hbehind⟩ :=
    @read_close s ((draft.openRun marker count start).add nodes) c₁ start₁ _ tail
      ⟨marker, count, draft.nodes.size, start⟩ draft.stack count rfl rfl hcount (fun _ => htail) hfaces
  refine ⟨⟨start, stop⟩, nodes, c₂, start₂, hshapes, ?_, ?_⟩
  · have hread : s.read (draft.openRun marker count start) _ = s.read _ c₁ := hread
    have hwrap := draft.wrap_add marker count start stop nodes
    rw [hopen, hread, hclose, ← wrapper_eq hwrapper, ← hwrap]
  · rw [List.getLast?_append]
    have hlast : (marker.run count).getLast? = some marker.char := by
      rcases hcount with rfl | ⟨rfl, -⟩ <;> rfl
    rw [hlast]
    exact hbehind

end Setting
end InlineMarkdown
