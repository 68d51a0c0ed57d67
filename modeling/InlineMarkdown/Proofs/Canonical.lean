import InlineMarkdown.Proofs.RoundTrip
import Mathlib.Data.List.Infix

/-! Canonical trees.

A tree is canonical when it says nothing that the written form cannot: no address begins in
a text, neither texts nor code spans are next to each other, emphasis finds a marker that is
not open already, and links have plain targets and no links in them. The condition looks at
the tree alone, not at what is written around its nodes. A canonical tree is legible
wherever what follows it ends text and code (`areLegible_of_canonical`), so that a canonical
document is read as it was written (`parseMarkdown_canonical`). -/
namespace InlineMarkdown

/-! ### Canonical trees -/

/-- A text on one line in which no bare address begins. -/
def isPlainText (text : List Char) : Bool :=
  !text.isEmpty && !text.contains '\n' && !text.contains '\r' &&
    urlOpenings.all fun opening => !decide (opening <:+: text)

/-- A node of this kind may stand as a leaf. -/
def NodeKind.isPlainLeaf : NodeKind → Bool
  | .text s => isPlainText s
  | .inlineCode code => !code.isEmpty && !code.contains '\n'
  | .formula body => !body.isEmpty && !body.contains '$' && !body.contains '\n'
  | _ => false

def Node.isCode (node : Node) : Bool :=
  match node.kind with
  | .inlineCode _ => true
  | _ => false

/-- Side by side the two would be read as one: both are text or both are code. -/
def Node.fuses (node next : Node) : Bool :=
  node.isText && next.isText || node.isCode && next.isCode

/-- The node is a text that starts like the inside of a footnote or citation. -/
def Node.isMarked (node : Node) : Bool :=
  node.text?.any fun text => text.head? == some '^' || text.head? == some '@'

mutual

/-- The tree is canonical where `s` is open around it. -/
def Node.isCanonical (s : Setting) : Node → Bool
  | ⟨kind, _, children⟩ =>
    match s.wrapper? kind with
    | some (marker, _) =>
      !s.opened.contains marker && !children.isEmpty && areCanonical (s.under marker) children
    | none =>
      match kind with
      | .softBreak => s.isTop && children.isEmpty
      | .link url title =>
        !s.bracketed && title.isEmpty && !url.isEmpty && url.all Char.isAlphanum &&
          !children.head?.any Node.isMarked && areCanonical s.inside children
      | kind => kind.isPlainLeaf && children.isEmpty

/-- The trees are canonical, and none fuses with the next. -/
def areCanonical (s : Setting) : List Node → Bool
  | [] => true
  | node :: rest =>
    node.isCanonical s && !rest.head?.any node.fuses && areCanonical s rest

end

/-- A document whose trees are canonical. -/
def Node.isCanonicalDocument (root : Node) : Bool :=
  root.kind == .document && areCanonical {} root.children

/-! ### Where no address begins -/

variable {s : Setting} {before : Option Char} {tail : List Char}

/-- What an address starts with has neither markup nor a special character in it. -/
theorem urlOpenings_plain : ∀ opening ∈ urlOpenings, ∀ c ∈ opening,
    isMarkup c = false ∧ isSpecial c = false := by
  have hall : urlOpenings.all (·.all fun c => !isMarkup c && !isSpecial c) = true := by decide
  intro opening hopening c hc
  simpa using List.all_eq_true.1 (List.all_eq_true.1 hall opening hopening) c hc

/-- An opening that stands in the escaped text stands in the text. -/
theorem prefix_of_prefix_escapeText {opening text : List Char}
    (hplain : ∀ c ∈ opening, isMarkup c = false) (h : opening <+: escapeText text) :
    opening <+: text := by
  induction opening generalizing text with
  | nil => exact List.nil_prefix
  | cons d opening ih =>
    cases text with
    | nil => exact absurd (List.prefix_nil.1 h) (List.cons_ne_nil d opening)
    | cons c text =>
      cases hc : isMarkup c with
      | true =>
        rw [escapeText_markup hc] at h
        obtain ⟨rfl, -⟩ := List.cons_prefix_cons.1 h
        exact absurd (hplain _ List.mem_cons_self) (by decide)
      | false =>
        rw [escapeText_plain hc] at h
        obtain ⟨rfl, hrest⟩ := List.cons_prefix_cons.1 h
        exact List.cons_prefix_cons.2
          ⟨rfl, ih (fun c hc => hplain c (List.mem_cons_of_mem _ hc)) hrest⟩

/-- What starts in front of a special character and has none in it ends in front of it. -/
theorem prefix_of_prefix_append {opening body : List Char}
    (hplain : ∀ c ∈ opening, isSpecial c = false) (htail : ∀ c ∈ tail.head?, isSpecial c = true)
    (h : opening <+: body ++ tail) : opening <+: body := by
  induction opening generalizing body with
  | nil => exact List.nil_prefix
  | cons d opening ih =>
    have hd := hplain d List.mem_cons_self
    cases body with
    | nil =>
      obtain ⟨rest, hrest⟩ := h
      have hspecial := htail d (by rw [← show d :: opening ++ rest = tail from hrest]; rfl)
      exact absurd (hd.symm.trans hspecial) Bool.false_ne_true
    | cons c body =>
      obtain ⟨rfl, hrest⟩ := List.cons_prefix_cons.1 h
      exact List.cons_prefix_cons.2
        ⟨rfl, ih (fun c hc => hplain c (List.mem_cons_of_mem _ hc)) hrest⟩

/-- No address begins where none of its openings stands before the next special character. -/
theorem urlBehind?_eq_none {body : List Char} (htail : ∀ c ∈ tail.head?, isSpecial c = true)
    (h : ∀ opening ∈ urlOpenings, ¬ opening <+: body) : urlBehind? before (body ++ tail) = none := by
  have hurl : url? (body ++ tail) = none := by
    refine List.findSome?_eq_none_iff.2 fun opening hopening => ?_
    cases hafter : after? opening (body ++ tail) with
    | none => rfl
    | some rest =>
      have hbegins : opening <+: body ++ tail := ⟨rest, (after?_eq_some hafter).symm⟩
      exact absurd (prefix_of_prefix_append (fun c hc => (urlOpenings_plain opening hopening c hc).2)
        htail hbegins) (h opening hopening)
  unfold urlBehind?
  split
  · exact hurl
  · rfl

/-- A text that holds no opening is read back. -/
theorem isReadBack_of_no_opening {addresses : Bool} {text : List Char}
    (htail : ∀ c ∈ tail.head?, isSpecial c = true)
    (h : ∀ opening ∈ urlOpenings, ¬ opening <:+: text) :
    isReadBack addresses tail 0 before text = true := by
  induction text generalizing before with
  | nil => rfl
  | cons c text ih =>
    rw [isReadBack_cons]
    · exact ih fun opening hopening hfound =>
        h opening hopening (hfound.trans (List.suffix_cons c text).isInfix)
    · refine urlBehind?_eq_none htail fun opening hopening hbegins => ?_
      have hplain := fun c hc => (urlOpenings_plain opening hopening c hc).1
      exact h opening hopening (prefix_of_prefix_escapeText hplain hbegins).isInfix

/-! ### Plain targets -/

/-- A link without a title is no bare address. -/
theorem isAddress_of_ne {url : List Char} (h : url.isEmpty = false) (children : List Node) :
    isAddress url [] children = false := by
  cases url with
  | nil => cases h
  | cons => rfl

theorem toNat_of_isAlphanum {c : Char} (h : c.isAlphanum = true) : 48 ≤ c.toNat ∧ c.toNat ≤ 122 := by
  delta Char.isAlphanum Char.isAlpha Char.isUpper Char.isLower Char.isDigit at h
  simp only [Bool.or_eq_true, Bool.and_eq_true, decide_eq_true_eq, ge_iff_le,
    UInt32.le_iff_toNat_le] at h
  have hn : c.val.toNat = c.toNat := rfl
  simp only [hn] at h
  simp at h
  omega

theorem isAlphanumeric_of_isAlphanum {c : Char} (h : c.isAlphanum = true) :
    isAlphanumeric c = true := by
  have hascii : c.toNat < 0x80 := Nat.lt_of_le_of_lt (toNat_of_isAlphanum h).2 (by decide)
  rw [isAlphanumeric, if_pos hascii]
  exact h

theorem isSpace_of_isAlphanum {c : Char} (h : c.isAlphanum = true) : isSpace c = false := by
  have hbounds := toNat_of_isAlphanum h
  simp [isSpace]
  omega

theorem ne_of_isAlphanumeric {c d : Char} (hc : isAlphanumeric c = true)
    (hd : isAlphanumeric d = false) : c ≠ d := by
  rintro rfl
  exact Bool.false_ne_true (hd.symm.trans hc)

theorem isSpecial_of_isAlphanumeric {c : Char} (h : isAlphanumeric c = true) :
    isSpecial c = false := by
  have hkind : Kind.ofChar? c = none := by
    cases hfound : Kind.ofChar? c with
    | none => rfl
    | some kind =>
      -- No character that is a token of its own is a letter or a digit.
      unfold Kind.ofChar? at hfound
      split at hfound <;> cases hfound <;> exact absurd h (by decide)
  have hne {d : Char} (hd : isAlphanumeric d = false) : (c == d) = false :=
    beq_eq_false_iff_ne.2 (ne_of_isAlphanumeric h hd)
  unfold isSpecial
  rw [hkind, hne (d := '\n') (by decide), hne (d := '\\') (by decide), hne (d := '@') (by decide),
    hne (d := backtick) (by decide), hne (d := '$') (by decide), hne (d := '<') (by decide),
    hne (d := '&') (by decide)]
  rfl

/-- Neither a line end nor an address begins with letters and digits up to a special character. -/
theorem word_ordinary {c : Char} {rest : List Char} (h : ∀ d ∈ c :: rest, isAlphanumeric d = true)
    (htail : ∀ d ∈ tail.head?, isSpecial d = true) (before : Option Char) :
    startsCrlf (c :: (rest ++ tail)) = false ∧ urlBehind? before (c :: (rest ++ tail)) = none := by
  constructor
  · have hne : '\r' ≠ c := (ne_of_isAlphanumeric (h c List.mem_cons_self) (by decide)).symm
    simp [startsCrlf, after?, hne]
  · have hopening : urlOpenings.all (·.any fun d => !isAlphanumeric d) = true := by decide
    have hnone := @urlBehind?_eq_none before tail (c :: rest) htail fun opening hmem hbegins => by
      obtain ⟨d, hd, hplain⟩ := List.any_eq_true.1 (List.all_eq_true.1 hopening opening hmem)
      rw [h d (hbegins.subset hd)] at hplain
      cases hplain
    exact hnone

/-- Letters and digits up to a special character are one text. -/
theorem textRest_word {rest : List Char} (h : ∀ d ∈ rest, isAlphanumeric d = true)
    (htail : ∀ d ∈ tail.head?, isSpecial d = true) (before : Char) :
    textRest before (rest ++ tail) = rest.length := by
  induction rest generalizing before with
  | nil => exact textRest_of_ends (ends_of_special htail _)
  | cons c rest ih =>
    obtain ⟨hcrlf, hurl⟩ := word_ordinary h htail (some before)
    rw [List.cons_append, textRest, isSpecial_of_isAlphanumeric (h c List.mem_cons_self), hcrlf, hurl,
      ih fun d hd => h d (List.mem_cons_of_mem _ hd)]
    rfl

/-- A word of letters and digits is one lexeme. -/
theorem readAs_word {word : List Char} (hne : word ≠ [])
    (h : ∀ c ∈ word, isAlphanumeric c = true) (htail : ∀ c ∈ tail.head?, isSpecial c = true)
    (before : Option Char) : ReadAs before .text word tail := by
  obtain ⟨c, rest, rfl⟩ := List.exists_cons_of_ne_nil hne
  obtain ⟨hcrlf, hurl⟩ := word_ordinary h htail before
  refine ⟨c, rest, rfl, ?_⟩
  rw [scan_ordinary (isSpecial_of_isAlphanumeric (h c List.mem_cons_self)) hcrlf, hurl,
    textRest_word (fun d hd => h d (List.mem_cons_of_mem _ hd)) htail]
  rfl

theorem text_word {word : List Char} (h : ∀ c ∈ word, isAlphanumeric c = true) :
    Lexeme.text ⟨.text, word⟩ = word := by
  cases word with
  | nil => rfl
  | cons c rest => exact text_of_ne (ne_of_isAlphanumeric (h c List.mem_cons_self) (by decide)) rest

/-- An address of letters and digits is read as it is written. -/
theorem isLegibleTarget_word {url : List Char} (hne : url ≠ [])
    (h : ∀ c ∈ url, c.isAlphanum = true) : isLegibleTarget url [] tail = true := by
  have hspace : url.any isSpace = false :=
    List.any_eq_false.2 fun c hc => by simp [isSpace_of_isAlphanum (h c hc)]
  have hwritten : linkDestination url [] = url := by simp [linkDestination, hspace]
  have hword : ∀ c ∈ url, isAlphanumeric c = true := fun c hc => isAlphanumeric_of_isAlphanum (h c hc)
  have hread : ReadAs (some '(') .text url (')' :: tail) :=
    readAs_word hne hword (by simp [isSpecial, Kind.ofChar?]) _
  obtain ⟨c, rest, rfl, hscan⟩ := hread
  have hbetween : between? '<' '>' (c :: rest) = none := by
    have hopening := ne_of_isAlphanumeric (hword c List.mem_cons_self) (d := '<') (by decide)
    simp [between?, hopening]
  unfold isLegibleTarget isTarget isRaw
  rw [hwritten, hspace, hbetween, List.length_cons, isRawUpTo, hscan]
  simp [text_word hword, isRawUpTo]

/-! ### How canonical trees are written -/

/-- A node is written from `c` on: that is special if the node is no text, no fence of code if
it is no code, and the mark of a footnote or citation only if the node is marked. -/
structure Node.StartsWith (node : Node) (c : Char) : Prop where
  special : node.isText = false → isSpecial c = true
  fence : node.isCode = false → c ≠ backtick
  mark : c = '^' ∨ c = '@' → node.isMarked = true

theorem startsWith_of_special {node : Node} {c : Char} (hspecial : isSpecial c = true)
    (hfence : c ≠ backtick) (hmark : ¬ (c = '^' ∨ c = '@')) : node.StartsWith c :=
  ⟨fun _ => hspecial, fun _ => hfence, fun h => absurd h hmark⟩

theorem startsWith_leaf {kind : NodeKind} (h : kind.isPlainLeaf = true) (span : Span) :
    ∃ c rest, Node.writeIn s.outer ⟨kind, span, []⟩ = c :: rest ∧
      Node.StartsWith ⟨kind, span, []⟩ c := by
  cases kind with
  | text text =>
    simp only [NodeKind.isPlainLeaf, isPlainText, Bool.and_eq_true, Bool.not_eq_true'] at h
    obtain ⟨c, text, rfl⟩ := List.exists_cons_of_ne_nil (l := text) (by simpa using h.1.1.1)
    cases hc : isMarkup c with
    | true =>
      exact ⟨'\\', c :: escapeText text, escapeText_markup hc text, nofun, fun _ => by decide,
        fun h => absurd h (by decide)⟩
    | false =>
      refine ⟨c, escapeText text, escapeText_plain hc text, nofun, fun _ => ?_, fun h => ?_⟩
      · rintro rfl
        cases hc
      · rcases h with rfl | rfl <;> rfl
  | inlineCode code =>
    exact ⟨backtick, (codeSpan code).tail, rfl, fun _ => rfl, nofun, fun h => absurd h (by decide)⟩
  | formula body =>
    show ∃ c rest, fencedFormula body = c :: rest ∧ _
    unfold fencedFormula
    split <;> exact ⟨'$', _, rfl, startsWith_of_special rfl (by decide) (by decide)⟩
  | _ => cases h

theorem Node.startsWith_of_canonical {node : Node} (h : node.isCanonical s = true) :
    ∃ c rest, node.writeIn s.outer = c :: rest ∧ node.StartsWith c := by
  obtain ⟨kind, span, children⟩ := node
  unfold Node.isCanonical at h
  split at h
  · rename_i marker count hwrapper
    have hchar : isSpecial marker.char = true ∧ marker.char ≠ backtick ∧
        ¬ (marker.char = '^' ∨ marker.char = '@') := by
      cases marker <;> decide
    rw [writeIn_wrapper hwrapper]
    rcases s.wrapper?_count hwrapper with rfl | ⟨rfl, -⟩ <;>
      exact ⟨marker.char, _, rfl, startsWith_of_special hchar.1 hchar.2.1 hchar.2.2⟩
  · split at h
    · exact ⟨'\n', [], rfl, startsWith_of_special rfl (by decide) (by decide)⟩
    · rename_i url title _
      simp only [Bool.and_eq_true, Bool.not_eq_true', List.isEmpty_iff] at h
      obtain ⟨⟨⟨⟨⟨-, rfl⟩, hne⟩, -⟩, -⟩, -⟩ := h
      rw [writeIn_link (by simp [isAddress_of_ne hne])]
      exact ⟨'[', _, rfl, startsWith_of_special rfl (by decide) (by decide)⟩
    · simp only [Bool.and_eq_true, List.isEmpty_iff] at h
      obtain ⟨hleaf, rfl⟩ := h
      exact startsWith_leaf hleaf span

/-! ### Canonical trees are legible -/

/-- What may stand behind trees: nothing, or what is special and fences no code. -/
def Bounds (tail : List Char) : Prop := ∀ c ∈ tail.head?, isSpecial c = true ∧ c ≠ backtick

/-- What is written behind a node ends it: text in front of what is no text, and code in front
of what is no code. -/
theorem bounds_writeIn {node : Node} {rest : List Node} (hrest : areCanonical s rest = true)
    (hfuses : rest.head?.any node.fuses = false) (htail : Bounds tail) :
    ∀ c ∈ (writeIn s.outer rest ++ tail).head?,
      (node.isText = true → isSpecial c = true) ∧ (node.isCode = true → c ≠ backtick) := by
  intro c hc
  cases rest with
  | nil =>
    obtain ⟨hspecial, hfence⟩ := htail c hc
    exact ⟨fun _ => hspecial, fun _ => hfence⟩
  | cons next rest =>
    simp only [areCanonical, Bool.and_eq_true] at hrest
    obtain ⟨d, more, hwritten, hstarts⟩ := next.startsWith_of_canonical hrest.1.1
    rw [writeIn, hwritten] at hc
    obtain rfl : d = c := Option.some.inj hc
    have hapart : node.fuses next = false := hfuses
    simp only [Node.fuses, Bool.or_eq_false_iff, Bool.and_eq_false_imp] at hapart
    exact ⟨fun htext => hstarts.special (hapart.1 htext), fun hcode => hstarts.fence (hapart.2 hcode)⟩

/-- A canonical leaf is legible where what follows ends it. -/
theorem isLegibleLeaf_of_plain {kind : NodeKind} (h : kind.isPlainLeaf = true) {span : Span}
    (htail : ∀ c ∈ tail.head?, (Node.isText ⟨kind, span, []⟩ = true → isSpecial c = true) ∧
      (Node.isCode ⟨kind, span, []⟩ = true → c ≠ backtick)) :
    isLegibleLeaf s before tail kind = true := by
  cases kind with
  | text text =>
    simp only [NodeKind.isPlainLeaf, isPlainText, Bool.and_eq_true, Bool.not_eq_true',
      List.all_eq_true, decide_eq_false_iff_not] at h
    obtain ⟨⟨⟨hne, hline⟩, hreturn⟩, hopening⟩ := h
    have hback := @isReadBack_of_no_opening before tail false text
      (fun c hc => (htail c hc).1 rfl) hopening
    have hlast : (text.getLast? == some '\r') = false := by
      rw [beq_eq_false_iff_ne]
      intro hlast
      have hmem := List.mem_of_getLast? hlast
      simp [hmem] at hreturn
    simp only [isLegibleLeaf, hne, hline, hlast, hback]
    simp
  | inlineCode code =>
    have hfence : (tail.head? == some backtick) = false := by
      rw [beq_eq_false_iff_ne]
      exact fun hhead => (htail backtick hhead).2 rfl rfl
    simp only [NodeKind.isPlainLeaf] at h
    simp only [isLegibleLeaf, h, bne, hfence]
    rfl
  | formula body =>
    simp only [NodeKind.isPlainLeaf, Bool.and_eq_true, Bool.not_eq_true'] at h
    obtain ⟨⟨hne, hdollar⟩, hline⟩ := h
    simp only [isLegibleLeaf, hne, Bool.not_false, Bool.true_and, List.all_eq_true]
    intro c hc
    simp only [List.contains_eq_mem, decide_eq_false_iff_not] at hdollar hline
    simp only [Bool.and_eq_true, bne_iff_ne, ne_eq]
    exact ⟨fun h => hdollar (h ▸ hc), fun h => hline (h ▸ hc)⟩
  | _ => cases h

/-- A link's text that is canonical is not taken for a footnote or citation unless it is
marked. -/
theorem isMark_eq_false {children : List Node} (h : areCanonical s children = true)
    (hs : s.outer = none) (hmarked : children.head?.any Node.isMarked = false) :
    isMark children = false := by
  have hfirst : ∀ c ∈ (writeIn none children).head?, ¬ (c = '^' ∨ c = '@') := by
    intro c hc hmark
    cases children with
    | nil => cases hc
    | cons node rest =>
      simp only [areCanonical, Bool.and_eq_true] at h
      obtain ⟨d, more, hwritten, hstarts⟩ := node.startsWith_of_canonical h.1.1
      rw [hs] at hwritten
      rw [writeIn, hwritten] at hc
      obtain rfl : d = c := Option.some.inj hc
      have hnode : node.isMarked = false := hmarked
      exact Bool.false_ne_true (hnode.symm.trans (hstarts.mark hmark))
  unfold isMark
  cases hhead : (writeIn none children).head? with
  | none => rfl
  | some c =>
    have hc := hfirst c hhead
    simp only [not_or] at hc
    simp [hc.1, hc.2]

/-- A run of markers ends text and code. -/
theorem bounds_run {kind : NodeKind} {marker : Marker} {count : Nat}
    (h : s.wrapper? kind = some (marker, count)) : Bounds (marker.run count ++ tail) := by
  have hchar : isSpecial marker.char = true ∧ marker.char ≠ backtick := by cases marker <;> decide
  intro c hc
  rcases s.wrapper?_count h with rfl | ⟨rfl, -⟩ <;> obtain rfl := Option.some.inj hc <;> exact hchar

/-- Canonical trees are legible where what follows them ends text and code, as long as a link
may be opened. -/
theorem areLegible_of_canonical (nodes : List Node) :
    ∀ {s : Setting} {before : Option Char} {tail : List Char}, areCanonical s nodes = true →
      (s.bracketed = false → 0 < s.room) → Bounds tail → areLegible s before tail nodes = true := by
  induction nodes using trees_induction with
  | nil => exact fun _ _ _ => rfl
  | cons kind span children rest ihChildren ihRest =>
    intro s before tail h hroom htail
    simp only [areCanonical, Bool.and_eq_true, Bool.not_eq_true'] at h
    obtain ⟨⟨hnode, hfuses⟩, hrest⟩ := h
    have hbehind := bounds_writeIn hrest hfuses htail
    refine areLegible_cons.2 ⟨?_, fun htext => ?_, ihRest hrest hroom htail⟩
    · unfold Node.isCanonical at hnode
      unfold Node.isLegible
      cases hwrapper : s.wrapper? kind with
      | some pair =>
        simp only [hwrapper, Bool.and_eq_true] at hnode ⊢
        exact ⟨hnode.1, ihChildren hnode.2 hroom (bounds_run hwrapper)⟩
      | none =>
        simp only [hwrapper] at hnode ⊢
        split at hnode
        · simp only [Bool.and_eq_true] at hnode ⊢
          exact ⟨hnode.2, hnode.1⟩
        · rename_i url title
          simp only [Bool.and_eq_true, Bool.not_eq_true', List.isEmpty_iff, List.all_eq_true] at hnode
          obtain ⟨⟨⟨⟨⟨hbracketed, rfl⟩, hne⟩, hurl⟩, hmarked⟩, hchildren⟩ := hnode
          have hurlNe : url ≠ [] := by
            rintro rfl
            cases hne
          have hinside : Bounds (']' :: '(' :: linkDestination url [] ++
              ')' :: (writeIn s.outer rest ++ tail)) := by
            intro c hc
            obtain rfl := Option.some.inj hc
            decide
          have hlegible : areLegible s.inside (some '[') _ children = true :=
            ihChildren hchildren nofun hinside
          simp only [isAddress_of_ne hne, hroom hbracketed, isLegibleTarget_word hurlNe hurl,
            isMark_eq_false hchildren rfl hmarked, hlegible]
          simp
        · simp only [Bool.and_eq_true, List.isEmpty_iff] at hnode
          obtain ⟨hleaf, rfl⟩ := hnode
          have hlegible : isLegibleLeaf s before _ kind = true := isLegibleLeaf_of_plain hleaf hbehind
          cases kind with
          | text | inlineCode | formula => exact hlegible
          | _ => cases hleaf
    · cases rest with
      | nil => rfl
      | cons next rest =>
        have hapart : Node.fuses ⟨kind, span, children⟩ next = false := hfuses
        simp only [Node.fuses, htext, Bool.true_and, Bool.or_eq_false_iff] at hapart
        exact hapart.1

/-! ### Canonical documents -/

/-- A canonical document is parsed as it was written, up to its spans. -/
theorem parseMarkdown_canonical (root : Node) (h : root.isCanonicalDocument = true) :
    (parseMarkdown root.toMarkdown).root.shape = root.shape := by
  obtain ⟨kind, span, children⟩ := root
  simp only [Node.isCanonicalDocument, Bool.and_eq_true, beq_iff_eq] at h
  obtain ⟨rfl, hcanonical⟩ := h
  have hlegible : areLegible {} none [] children = true :=
    areLegible_of_canonical children hcanonical (fun _ => by decide) nofun
  have hwrite : Node.toMarkdown ⟨.document, span, children⟩ = toMarkdown children := rfl
  rw [hwrite, shape_parseMarkdown hlegible, Node.shape]

/-- Wrappers side by side and one in another, fences of all kinds, a break and a link. -/
theorem parseMarkdown_canonical_lines :
    let leaf (kind : NodeKind) : Node := ⟨kind, {}, []⟩
    let text (s : String) : Node := leaf (.text s.toList)
    let root : Node := ⟨.document, {},
      [⟨.strong, {}, [text "a*[", ⟨.emphasis, {}, [text "b"]⟩, ⟨.strong, {}, [text "c"]⟩]⟩,
        ⟨.emphasis, {}, [⟨.strike, {}, [text "^d http:/"]⟩, ⟨.strike, {}, [leaf (.formula [' '])]⟩]⟩,
        leaf (.inlineCode "\x60e".toList), leaf .softBreak, text "@",
        ⟨.link "f1".toList [], {}, [⟨.emphasis, {}, [text "^g"]⟩, text "\\]("]⟩, leaf .softBreak]⟩
    root.isCanonicalDocument = true ∧ (parseMarkdown root.toMarkdown).root.shape = root.shape :=
  ⟨by decide +kernel, parseMarkdown_canonical _ (by decide +kernel)⟩

end InlineMarkdown
