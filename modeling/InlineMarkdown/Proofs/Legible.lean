import InlineMarkdown.Proofs.Fences
import InlineMarkdown.Proofs.Joining
import InlineMarkdown.Inline.Parser

/-! Trees that are legible as they are written.

Not every tree that the writer writes is read as that tree again. `areLegible` says which
are: no bare address begins in a text, code spans are not next to each other, emphasis uses
a marker that is not open already, a target is read raw as it is written, and a link's text
is not taken for a footnote or citation. What stands around a tree counts: the characters
before and behind it, and its `Setting`. -/
namespace InlineMarkdown

/-- What is open around a tree where it is written. -/
structure Setting where
  /-- How many brackets may still be opened one in another. -/
  room : Nat := 64
  bracketed : Bool := false
  /-- The markers of the emphasis around it within the same brackets, the closest first. -/
  opened : List Marker := []

namespace Setting

/-- The marker that the writer takes to be around it. -/
def outer (s : Setting) : Option Char :=
  match s.opened with
  | .asterisk :: _ => some '*'
  | .underscore :: _ => some '_'
  | _ => none

/-- The marker that the writer chooses for emphasis. -/
def marker (s : Setting) : Marker := if s.outer = some '*' then .underscore else .asterisk

/-- Between two runs of a marker. -/
def under (s : Setting) (marker : Marker) : Setting := { s with opened := marker :: s.opened }

/-- Between two brackets. -/
def inside (s : Setting) : Setting := ⟨s.room - 1, true, []⟩

/-- Nothing is open. -/
def isTop (s : Setting) : Bool := !s.bracketed && s.opened.isEmpty

/-- The marker of a node that stands between two runs, and the length of those. -/
def wrapper? (s : Setting) : NodeKind → Option (Marker × Nat)
  | .emphasis => some (s.marker, 1)
  | .strong => some (s.marker, 2)
  | .strike => some (.tilde, 2)
  | _ => none

end Setting

/-! ### Leaves -/

/-- The kind of the lexeme that the slice is between `before` and `tail`, if it is one. -/
def kindBetween? (before : Option Char) (tail raw : List Char) : Option Kind :=
  match raw with
  | [] => none
  | c :: rest =>
    let (kind, length) := scan before c (rest ++ tail)
    if length = raw.length then some kind else none

/-- The kinds of raw HTML. -/
def Kind.isHtml : Kind → Bool
  | .htmlTag | .htmlBlock | .htmlUnclosedBlock | .htmlEntity => true
  | _ => false

/-- One word. -/
def isWord (word : List Char) : Bool := !word.isEmpty && !word.any isSpace

/-- The lexemes of a raw slice in front of `tail` say that slice, and none of them is what
closes it or ends a line. -/
def isRawUpTo (close : Kind) (tail : List Char) :
    (limit : Nat) → (before : Option Char) → List Char → Bool
  | _, _, [] => true
  | 0, _, _ :: _ => false
  | limit + 1, before, c :: rest =>
    let (kind, length) := scan before c (rest ++ tail)
    let raw := (c :: rest).take length
    length ≤ (c :: rest).length && kind != close && kind != .newline &&
      Lexeme.text ⟨kind, raw⟩ == raw &&
      isRawUpTo close tail limit raw.getLast? ((c :: rest).drop length)

/-- The slice is read as it stands up to what closes it. -/
def isRaw (close : Kind) (before : Char) (tail raw : List Char) : Bool :=
  isRawUpTo close tail raw.length (some before) raw

/-- An address and a title that can be told apart: no white space and no angle brackets
around the one, and a kind of quote that is not in the other. -/
def isTarget (url title : List Char) : Bool :=
  !url.any isSpace && (between? '<' '>' url).isNone &&
    (title.isEmpty || (!url.isEmpty && !(title.contains '"' && title.contains '\'')))

/-- The destination is read as it is written. -/
def isLegibleTarget (url title tail : List Char) : Bool :=
  isTarget url title && isRaw .rightParen '(' (')' :: tail) (linkDestination url title)

/-- A bare or bracketed address is one where it is written. -/
def isLegibleAddress (before : Option Char) (tail url : List Char) : Bool :=
  if url.contains ':' || url.contains '@' then
    autolink? ('<' :: url ++ ['>']) == some (url.length + 2)
  else urlBehind? before (url ++ tail) == some url.length

/-- A node of this kind without children is legible. -/
def isLegibleLeaf (s : Setting) (before : Option Char) (tail : List Char) : NodeKind → Bool
  | .softBreak => s.isTop
  | .text text =>
    !text.isEmpty && (s.bracketed || !text.contains '\n') &&
      !(text.getLast? == some '\r' && tail.head? == some '\n') &&
      isReadBack false tail 0 before text
  | .inlineCode code => !code.isEmpty && !code.contains '\n' && tail.head? != some backtick
  | .formula body => !body.isEmpty && body.all fun c => c != '$' && c != '\n'
  | .html html => (kindBetween? before tail html).any Kind.isHtml
  | .image url alt title =>
    0 < s.room && isLegibleTarget url title tail &&
      isReadBack true (']' :: '(' :: linkDestination url title ++ ')' :: tail) 0 (some '[') alt
  | .footnote identifier =>
    0 < s.room && isWord identifier && isReadBack true (']' :: tail) 0 (some '^') identifier
  | .citation identifier =>
    0 < s.room && isWord identifier && isReadBack true (']' :: tail) 0 (some '@') identifier
  | _ => false

/-! ### Trees -/

/-- The text of a link starts like a footnote or citation and is a word, so that it is
taken for one. -/
def isMark (children : List Node) : Bool :=
  let first := (writeIn none children).head?
  (first == some '^' || first == some '@') && isWord ((flattenText children).drop 1)

mutual

/-- The tree is legible between `before` and `tail`. -/
def Node.isLegible (s : Setting) (before : Option Char) (tail : List Char) : Node → Bool
  | ⟨kind, _, children⟩ =>
    match s.wrapper? kind with
    | some (marker, count) =>
      !s.opened.contains marker && !children.isEmpty &&
        areLegible (s.under marker) (some marker.char) (marker.run count ++ tail) children
    | none =>
      match kind with
      | .link url title =>
        if isAddress url title children then
          children.all (·.children.isEmpty) && isLegibleAddress before tail url
        else
          0 < s.room && isLegibleTarget url title tail && !isMark children &&
            areLegible s.inside (some '[')
              (']' :: '(' :: linkDestination url title ++ ')' :: tail) children
      | .reference identifier url title =>
        0 < s.room && url.isEmpty && title.isEmpty && !identifier.isEmpty &&
          trim identifier == identifier && isRaw .rightBracket '[' (']' :: tail) identifier &&
          !isMark children &&
          areLegible s.inside (some '[') (']' :: '[' :: identifier ++ ']' :: tail) children
      | kind => children.isEmpty && isLegibleLeaf s before tail kind

/-- The trees, written side by side between `before` and `tail`, are legible, and no two texts
are next to each other. -/
def areLegible (s : Setting) (before : Option Char) (tail : List Char) : List Node → Bool
  | [] => true
  | node :: rest =>
    node.isLegible s before (writeIn s.outer rest ++ tail) &&
      !(node.isText && rest.head?.any Node.isText) &&
      areLegible s (node.writeIn s.outer).getLast? tail rest

end

/-! ### Written forms -/

variable {s : Setting} {before : Option Char} {tail : List Char}

theorem writeIn_address {outer : Option Char} {url title : List Char} {children : List Node}
    (h : isAddress url title children = true) (span : Span) :
    Node.writeIn outer ⟨.link url title, span, children⟩ = writeAddress url := by
  unfold Node.writeIn
  exact if_pos h

theorem writeIn_link {outer : Option Char} {url title : List Char} {children : List Node}
    (h : ¬ isAddress url title children = true) (span : Span) :
    Node.writeIn outer ⟨.link url title, span, children⟩ =
      '[' :: writeIn none children ++ [']', '('] ++ linkDestination url title ++ [')'] := by
  unfold Node.writeIn
  exact if_neg h

theorem Setting.outer_under (s : Setting) (marker : Marker) (h : marker ≠ .tilde) :
    (s.under marker).outer = some marker.char := by
  cases marker with
  | tilde => exact absurd rfl h
  | asterisk | underscore => rfl

/-- Emphasis stands between two runs of its marker. -/
theorem writeIn_wrapper {kind : NodeKind} {marker : Marker} {count : Nat}
    (h : s.wrapper? kind = some (marker, count)) (span : Span) (children : List Node) :
    Node.writeIn s.outer ⟨kind, span, children⟩ =
      marker.run count ++ writeIn (s.under marker).outer children ++ marker.run count := by
  have hmarker : (if s.outer = some '*' then '_' else '*') = s.marker.char := by
    unfold Setting.marker
    split <;> rfl
  have hne : s.marker ≠ .tilde := by
    unfold Setting.marker
    split <;> nofun
  cases kind with
  | emphasis | strong =>
    obtain ⟨rfl, rfl⟩ := Prod.mk.inj (Option.some.inj h)
    simp only [Node.writeIn, hmarker, s.outer_under _ hne, Marker.run]
    rfl
  | strike =>
    obtain ⟨rfl, rfl⟩ := Prod.mk.inj (Option.some.inj h)
    rfl
  | _ => exact nomatch h

/-- A run in a wrapper is one or two markers long, two if they are tildes. -/
theorem Setting.wrapper?_count {kind : NodeKind} {marker : Marker} {count : Nat}
    (h : s.wrapper? kind = some (marker, count)) :
    count = 2 ∨ count = 1 ∧ marker ≠ .tilde := by
  have hne : s.marker ≠ .tilde := by
    unfold Setting.marker
    split <;> nofun
  cases kind with
  | emphasis =>
    obtain ⟨rfl, rfl⟩ := Prod.mk.inj (Option.some.inj h)
    exact .inr ⟨rfl, hne⟩
  | strong | strike =>
    obtain ⟨rfl, rfl⟩ := Prod.mk.inj (Option.some.inj h)
    exact .inl rfl
  | _ => exact nomatch h

/-- How a legible node is written at its start: not with a marker that is open, with no
tilde alone, with no backslash in front of an ordinary character, with no mark of a footnote or
citation unless it is text, and so that text in front of it ends unless it is text itself. -/
structure Starts (s : Setting) (before : Option Char) (tail : List Char) (isText : Bool) (c : Char)
    (rest : List Char) : Prop where
  marker : ∀ marker ∈ s.opened, marker.char ≠ c
  tilde : c = '~' → rest.head? = some '~'
  escape : c = '\\' → rest.head?.any isMarkup = true
  mark : c = '^' ∨ c = '@' → isText = true
  ends : isText = false → isSpecial c = true ∨ (urlBehind? before (c :: rest ++ tail)).isSome = true

theorem starts_of_not_mem {isText : Bool} {c : Char} {rest : List Char}
    (hc : c ∉ ['*', '_', '~', '\\', '^', '@'])
    (hends : isText = false → isSpecial c = true ∨ (urlBehind? before (c :: rest ++ tail)).isSome = true) :
    Starts s before tail isText c rest := by
  simp only [List.mem_cons, List.not_mem_nil, or_false, not_or] at hc
  obtain ⟨hstar, hline, htilde, hslash, hcaret, hat⟩ := hc
  refine ⟨fun marker _ h => ?_, fun h => absurd h htilde, fun h => absurd h hslash, fun h => ?_, hends⟩
  · cases marker
    · exact hstar h.symm
    · exact hline h.symm
    · exact htilde h.symm
  · rcases h with h | h
    · exact absurd h hcaret
    · exact absurd h hat

theorem starts_special {isText : Bool} {c : Char} {rest : List Char}
    (hc : c ∉ ['*', '_', '~', '\\', '^', '@']) (hspecial : isSpecial c = true) :
    Starts s before tail isText c rest :=
  starts_of_not_mem hc fun _ => .inl hspecial

theorem starts_wrapper {marker : Marker} {count : Nat} (hopened : marker ∉ s.opened)
    (hcount : count = 2 ∨ count = 1 ∧ marker ≠ .tilde) (behind : List Char) :
    ∃ rest, marker.run count ++ behind = marker.char :: rest ∧
      Starts s before tail false marker.char rest := by
  have hchar : ∀ other ∈ s.opened, other.char ≠ marker.char := by
    intro other hother hsame
    obtain rfl : other = marker := by
      cases other <;> cases marker <;> first | rfl | exact nomatch hsame
    exact hopened hother
  have hspecial : isSpecial marker.char = true := by cases marker <;> rfl
  have hslash : marker.char ≠ '\\' := by cases marker <;> decide
  have hmark : ¬ (marker.char = '^' ∨ marker.char = '@') := by cases marker <;> decide
  rcases hcount with rfl | ⟨rfl, hne⟩
  · exact ⟨marker.char :: behind, rfl, hchar, fun h => by rw [h]; rfl, fun h => absurd h hslash,
      fun h => absurd h hmark, fun _ => .inl hspecial⟩
  · refine ⟨behind, rfl, hchar, fun h => ?_, fun h => absurd h hslash, fun h => absurd h hmark,
      fun _ => .inl hspecial⟩
    cases marker with
    | tilde => exact absurd rfl hne
    | asterisk | underscore => exact nomatch h

theorem starts_text {text : List Char} (h : text ≠ []) :
    ∃ c rest, escapeText text = c :: rest ∧ Starts s before tail true c rest := by
  obtain ⟨c, text, rfl⟩ := List.exists_cons_of_ne_nil h
  cases hc : isMarkup c with
  | true =>
    exact ⟨'\\', c :: escapeText text, escapeText_markup hc text,
      by intro marker _; cases marker <;> decide, nofun, fun _ => hc, nofun, nofun⟩
  | false =>
    have hne {d : Char} (hd : isMarkup d = true) : c ≠ d := by
      rintro rfl
      exact Bool.false_ne_true (hc.symm.trans hd)
    exact ⟨c, escapeText text, escapeText_plain hc text,
      by intro marker _ h; cases marker <;> exact hne rfl h.symm, fun h => absurd h (hne rfl),
      fun h => absurd h (hne rfl), fun _ => rfl, nofun⟩

/-- Raw HTML starts with an angle bracket or an ampersand. -/
theorem head_of_isHtml {c : Char} {rest : List Char} (h : (scan before c rest).1.isHtml = true) :
    c = '<' ∨ c = '&' := by
  by_cases hangle : c = '<'
  · exact .inl hangle
  by_cases hand : c = '&'
  · exact .inr hand
  unfold scan at h
  split at h
  · rename_i kind hkind
    have hfixed := isFixed_of_ofChar? hkind
    cases kind <;> first | (cases h; done) | cases hfixed
  · simp only [hangle, hand, if_false] at h
    repeat' split at h
    all_goals exact nomatch h

/-- A slice that is one lexeme is read as that lexeme. -/
theorem readAs_of_kindBetween? {raw : List Char} {p : Kind → Bool}
    (h : (kindBetween? before tail raw).any p = true) :
    ∃ kind, p kind = true ∧ ReadAs before kind raw tail := by
  cases raw with
  | nil => exact nomatch h
  | cons c rest =>
    unfold kindBetween? at h
    dsimp only at h
    split at h
    · rename_i hlength
      exact ⟨_, h, c, rest, rfl, Prod.ext rfl hlength⟩
    · exact nomatch h

theorem head_of_kindBetween? {raw : List Char}
    (h : (kindBetween? before tail raw).any Kind.isHtml = true) :
    ∃ c rest, raw = c :: rest ∧ (c = '<' ∨ c = '&') := by
  obtain ⟨kind, hkind, c, rest, rfl, hscan⟩ := readAs_of_kindBetween? h
  refine ⟨c, rest, rfl, @head_of_isHtml before c (rest ++ tail) ?_⟩
  rw [hscan]
  exact hkind

theorem starts_address {url : List Char} (h : isLegibleAddress before tail url = true) :
    ∃ c rest, writeAddress url = c :: rest ∧ Starts s before tail false c rest := by
  unfold isLegibleAddress at h
  unfold writeAddress
  split at h
  · rename_i hbracket
    rw [if_pos hbracket]
    exact ⟨'<', url ++ ['>'], rfl, starts_special (by decide) rfl⟩
  · rename_i hbare
    rw [if_neg hbare]
    have haddress := beq_iff_eq.1 h
    have hurl : (urlBehind? before (url ++ tail)).isSome = true := by
      rw [haddress]
      rfl
    cases url with
    | nil => exact absurd (url?_within (urlBehind?_eq_some.1 haddress).2).1 (Nat.lt_irrefl 0)
    | cons c url =>
      have hc := mem_of_urlBehind? haddress
      refine ⟨c, url, rfl, starts_of_not_mem ?_ fun _ => .inr hurl⟩
      simp only [List.mem_cons, List.not_mem_nil, or_false] at hc
      rcases hc with rfl | rfl | rfl <;> decide

/-- A leaf starts as it should. -/
theorem starts_leaf {kind : NodeKind} {span : Span} (h : isLegibleLeaf s before tail kind = true) :
    ∃ c rest, Node.writeIn s.outer ⟨kind, span, []⟩ = c :: rest ∧
      Starts s before tail (Node.isText ⟨kind, span, []⟩) c rest := by
  cases kind with
  | text text =>
    simp only [isLegibleLeaf, Bool.and_eq_true, Bool.not_eq_true'] at h
    exact starts_text (by simpa using h.1.1.1)
  | softBreak => exact ⟨'\n', [], rfl, starts_special (by decide) rfl⟩
  | inlineCode code => exact ⟨backtick, (codeSpan code).tail, rfl, starts_special (by decide) rfl⟩
  | formula body =>
    show ∃ c rest, fencedFormula body = c :: rest ∧ Starts s before tail false c rest
    unfold fencedFormula
    split <;> exact ⟨'$', _, rfl, starts_special (by decide) rfl⟩
  | html html =>
    obtain ⟨c, rest, rfl, rfl | rfl⟩ := head_of_kindBetween? h <;>
      exact ⟨_, rest, rfl, starts_special (by decide) rfl⟩
  | image url alt title => exact ⟨'!', _, rfl, starts_special (by decide) rfl⟩
  | footnote | citation => exact ⟨'[', _, rfl, starts_special (by decide) rfl⟩
  | _ => exact nomatch h

/-- Every legible node starts as it should. -/
theorem Node.starts_of_legible {node : Node} (h : node.isLegible s before tail = true) :
    ∃ c rest, node.writeIn s.outer = c :: rest ∧ Starts s before tail node.isText c rest := by
  obtain ⟨kind, span, children⟩ := node
  unfold Node.isLegible at h
  split at h
  · rename_i marker count hwrapper
    simp only [Bool.and_eq_true, Bool.not_eq_true'] at h
    have hopened : marker ∉ s.opened := by simpa using h.1.1
    have htext : Node.isText ⟨kind, span, children⟩ = false := by
      cases kind <;> first | rfl | exact nomatch hwrapper
    rw [writeIn_wrapper hwrapper, htext, List.append_assoc]
    exact ⟨_, starts_wrapper hopened (s.wrapper?_count hwrapper) _⟩
  · split at h
    · rename_i url title _
      show ∃ c rest, Node.writeIn s.outer ⟨.link url title, span, children⟩ = c :: rest ∧
        Starts s before tail false c rest
      split at h
      · rename_i haddress
        rw [writeIn_address haddress]
        simp only [Bool.and_eq_true] at h
        exact starts_address h.2
      · rename_i hbracket
        rw [writeIn_link hbracket]
        exact ⟨'[', _, rfl, starts_special (by decide) rfl⟩
    · exact ⟨'[', _, rfl, starts_special (by decide) rfl⟩
    · simp only [Bool.and_eq_true] at h
      obtain rfl : children = [] := by simpa using h.1
      exact starts_leaf h.2

/-! ### Written side by side -/

/-- What closes a list of trees: it starts with a special character, if at all, and with no
tilde alone. -/
structure Closes (tail : List Char) : Prop where
  special : ∀ c ∈ tail.head?, isSpecial c = true
  tildes : runLength '~' tail ≠ 1

theorem areLegible_cons {node : Node} {rest : List Node} :
    areLegible s before tail (node :: rest) = true ↔
      node.isLegible s before (writeIn s.outer rest ++ tail) = true ∧
        (node.isText = true → rest.head?.any Node.isText = false) ∧
          areLegible s (node.writeIn s.outer).getLast? tail rest = true := by
  rw [areLegible]
  cases node.isText <;> simp [and_assoc]

theorem writeIn_append (outer : Option Char) (a b : List Node) :
    writeIn outer (a ++ b) = writeIn outer a ++ writeIn outer b := by
  induction a with
  | nil => rfl
  | cons node rest ih =>
    rw [List.cons_append, writeIn, writeIn, ih, List.append_assoc]

/-- Trees are legible if those in front are and those behind them. -/
theorem areLegible_append {a b : List Node} (h : areLegible s before tail (a ++ b) = true) :
    areLegible s before (writeIn s.outer b ++ tail) a = true ∧
      areLegible s ((writeIn s.outer a).getLast?.or before) tail b = true := by
  induction a generalizing before with
  | nil => exact ⟨rfl, h⟩
  | cons node rest ih =>
    rw [List.cons_append] at h
    obtain ⟨hnode, hapart, hrest⟩ := areLegible_cons.1 h
    obtain ⟨hfront, hbehind⟩ := ih hrest
    obtain ⟨c, more, hwritten, -⟩ := node.starts_of_legible hnode
    constructor
    · refine areLegible_cons.2 ⟨?_, fun htext => ?_, hfront⟩
      · rwa [writeIn_append, List.append_assoc] at hnode
      · have happart := hapart htext
        cases rest with
        | nil => rfl
        | cons => exact happart
    · rw [writeIn, List.getLast?_append, Option.or_assoc]
      rw [hwritten] at hbehind ⊢
      rwa [List.getLast?_eq_some_getLast (List.cons_ne_nil c more)] at hbehind ⊢

section
variable {nodes : List Node}

/-- Text in front of legible trees ends, if they do not start with text. -/
theorem ends_writeIn (h : areLegible s before tail nodes = true) (htail : Closes tail)
    (hfirst : nodes.head?.any Node.isText = false) : Ends before (writeIn s.outer nodes ++ tail) := by
  cases nodes with
  | nil => exact ends_of_special htail.special before
  | cons node rest =>
    obtain ⟨hnode, -, -⟩ := areLegible_cons.1 h
    obtain ⟨c, behind, hwritten, hstarts⟩ := node.starts_of_legible hnode
    have htext : writeIn s.outer (node :: rest) ++ tail = c :: behind ++ (writeIn s.outer rest ++ tail) := by
      rw [writeIn, hwritten, List.append_assoc]
    rw [htext]
    intro d hd
    obtain rfl := Option.some.inj hd
    exact hstarts.ends hfirst

/-- A marker that is open does not go on in legible trees. -/
theorem head?_writeIn (h : areLegible s before tail nodes = true) (hne : nodes ≠ []) {marker : Marker}
    (hopened : marker ∈ s.opened) : (writeIn s.outer nodes ++ tail).head? ≠ some marker.char := by
  obtain ⟨node, rest, rfl⟩ := List.exists_cons_of_ne_nil hne
  obtain ⟨hnode, -, -⟩ := areLegible_cons.1 h
  obtain ⟨c, behind, hwritten, hstarts⟩ := node.starts_of_legible hnode
  rw [writeIn, hwritten]
  intro hc
  exact hstarts.marker marker hopened (Option.some.inj hc).symm

theorem runLength_cons_self (c : Char) (text : List Char) :
    runLength c (c :: text) = runLength c text + 1 := by
  simp [runLength]

theorem runLength_of_head? {c : Char} {text : List Char} (h : text.head? ≠ some c) :
    runLength c text = 0 :=
  runLength_replicate h 0

theorem closes_nil : Closes [] := ⟨nofun, nofun⟩

theorem closes_cons {c : Char} (hspecial : isSpecial c = true) (hc : c ≠ '~') (rest : List Char) :
    Closes (c :: rest) := by
  refine ⟨fun d hd => ?_, ?_⟩
  · obtain rfl := Option.some.inj hd
    exact hspecial
  · rw [runLength_of_head? (by simpa using hc)]
    exact Nat.zero_ne_one

/-- Legible trees start with no tilde alone. -/
theorem tildes_writeIn (h : areLegible s before tail nodes = true) (htail : Closes tail) :
    runLength '~' (writeIn s.outer nodes ++ tail) ≠ 1 := by
  cases nodes with
  | nil => exact htail.tildes
  | cons node rest =>
    obtain ⟨hnode, -, -⟩ := areLegible_cons.1 h
    obtain ⟨c, behind, hwritten, hstarts⟩ := node.starts_of_legible hnode
    rw [writeIn, hwritten]
    by_cases hc : c = '~'
    · obtain ⟨more, hmore⟩ : ∃ more, behind = '~' :: more := by
        have hhead := hstarts.tilde hc
        cases behind with
        | nil => exact nomatch hhead
        | cons d more => exact ⟨more, by rw [Option.some.inj hhead]⟩
      rw [hc, hmore]
      simp [runLength_cons_self]
    · rw [runLength_of_head? (by simpa using hc)]
      exact Nat.zero_ne_one

end

/-! ### Trees that are tidy -/

theorem isText_of_shape {node other : Node} (h : node.shape = other.shape) :
    node.isText = other.isText := by
  unfold Node.isText Node.text?
  rw [kind_of_shape h]

theorem head_isText_of_shapes {nodes others : List Node} (h : shapes nodes = shapes others) :
    nodes.head?.any Node.isText = others.head?.any Node.isText := by
  cases others with
  | nil => rw [shapes_eq_nil h]
  | cons other others =>
    obtain ⟨node, tail, rfl, hnode, -⟩ := shapes_eq_cons h
    exact isText_of_shape hnode

/-- The text of an address is a text alone. -/
theorem children_of_isAddress {url title : List Char} {children : List Node}
    (h : isAddress url title children = true)
    (hleaf : children.all (·.children.isEmpty) = true) :
    title = url ∧ ∃ span, children = [Node.ofText url span] := by
  unfold isAddress at h
  simp only [Bool.and_eq_true, beq_iff_eq] at h
  obtain ⟨htitle, h⟩ := h
  split at h
  · rename_i child
    obtain ⟨kind, span, below⟩ := child
    obtain rfl : below = [] := by simpa using hleaf
    refine ⟨htitle, span, ?_⟩
    have htext := beq_iff_eq.1 h
    cases kind with
    | text text =>
      obtain rfl := Option.some.inj htext
      rfl
    | _ => exact nomatch htext
  · exact nomatch h

/-- The trees are legible between some characters. -/
def HasLegible (nodes : List Node) : Prop := ∃ s before tail, areLegible s before tail nodes = true

/-- What is below a legible node is legible, or a text alone. -/
theorem Node.children_legible {node : Node} (h : node.isLegible s before tail = true) :
    HasLegible node.children ∨ ∃ text span, node.children = [Node.ofText text span] := by
  obtain ⟨kind, span, children⟩ := node
  unfold Node.isLegible at h
  split at h
  · simp only [Bool.and_eq_true] at h
    exact .inl ⟨_, _, _, h.2⟩
  · split at h
    · split at h
      · rename_i haddress
        simp only [Bool.and_eq_true] at h
        obtain ⟨-, span, rfl⟩ := children_of_isAddress haddress h.1
        exact .inr ⟨_, span, rfl⟩
      · simp only [Bool.and_eq_true] at h
        exact .inl ⟨_, _, _, h.2⟩
    · simp only [Bool.and_eq_true] at h
      exact .inl ⟨_, _, _, h.2⟩
    · simp only [Bool.and_eq_true] at h
      obtain rfl : children = [] := by simpa using h.1
      exact .inl ⟨s, before, tail, rfl⟩

/-- A first tree that is told from the one behind it, and the trees behind it. -/
theorem HasLegible.cons {node : Node} {rest : List Node} (h : HasLegible (node :: rest)) :
    (HasLegible node.children ∨ ∃ text span, node.children = [Node.ofText text span]) ∧
      (node.isText = true → rest.head?.any Node.isText = false) ∧ HasLegible rest := by
  obtain ⟨s, before, tail, h⟩ := h
  obtain ⟨hnode, hapart, hrest⟩ := areLegible_cons.1 h
  exact ⟨Node.children_legible hnode, hapart, ⟨_, _, _, hrest⟩⟩

theorem tidy_text {text : List Char} {span : Span} {nodes : List Node}
    (h : shapes nodes = shapes [Node.ofText text span]) : Tidy nodes := by
  obtain ⟨node, rest, rfl, hnode, hrest⟩ := shapes_eq_cons h
  obtain rfl := shapes_eq_nil hrest
  have hchildren := children_of_shape hnode
  refine .cons ?_ .nil nofun
  rw [shapes_eq_nil hchildren]
  exact .nil

/-- Trees of the shape of legible ones are tidy. -/
theorem HasLegible.tidy (nodes : List Node) : ∀ {others : List Node}, HasLegible nodes →
    shapes others = shapes nodes → Tidy others := by
  induction nodes using trees_induction with
  | nil =>
    intro others _ hshapes
    rw [shapes_eq_nil hshapes]
    exact .nil
  | cons kind span children rest ihChildren ihRest =>
    intro others h hshapes
    obtain ⟨hbelow, hapart, hrest⟩ := h.cons
    obtain ⟨other, behind, rfl, hother, hbehind⟩ := shapes_eq_cons hshapes
    have hchildren : shapes other.children = shapes children := children_of_shape hother
    refine .cons ?_ (ihRest hrest hbehind) fun next hnext => ?_
    · rcases hbelow with hlegible | ⟨text, span, htext⟩
      · exact ihChildren hlegible hchildren
      · obtain rfl : children = [Node.ofText text span] := htext
        exact tidy_text hchildren
    · rw [isText_of_shape hother]
      cases htext : Node.isText ⟨kind, span, children⟩ with
      | false => exact .inl rfl
      | true =>
        have hfirst := (head_isText_of_shapes hbehind).trans (hapart htext)
        rw [Option.mem_def.1 hnext] at hfirst
        exact .inr hfirst

end InlineMarkdown
