import InlineMarkdown.Proofs.Scan
import InlineMarkdown.Render.Markdown

/-! Written pieces, read as lexemes.

A piece of text is `ReadAs` one lexeme between what stands before it and some tail when the
tokenizer takes exactly the piece. Escaped text falls into such pieces, and what they say is
the text again (`exists_piece`), as long as no bare address begins in it: the escapes make
each character that could start markup a piece of its own, but they do not break up words. -/
namespace InlineMarkdown

/-! ### Lexemes one by one -/

/-- The lexemes of a text behind the character `before`. -/
def lexemesBehind (before : Option Char) (text : List Char) : List Lexeme :=
  lexemesFrom text.length before text

@[simp] theorem lexemesBehind_nil (before : Option Char) : lexemesBehind before [] = [] := rfl

/-- A limit that is not reached does not count. -/
theorem lexemesFrom_eq {m n : Nat} {text : List Char} (hm : text.length ≤ m) (hn : text.length ≤ n)
    (before : Option Char) : lexemesFrom m before text = lexemesFrom n before text := by
  induction m generalizing n before text with
  | zero =>
    obtain rfl := List.eq_nil_of_length_eq_zero (Nat.le_zero.1 hm)
    cases n <;> rfl
  | succ m ih =>
    cases text with
    | nil => cases n <;> rfl
    | cons c rest =>
      obtain ⟨⟨hpos, -⟩, -⟩ := scan_spec before c rest
      cases n with
      | zero => exact absurd hn (Nat.not_succ_le_zero _)
      | succ n =>
        have hless : ((c :: rest).drop (scan before c rest).2).length ≤ rest.length := by
          rw [List.length_drop, List.length_cons]
          omega
        simp only [List.length_cons] at hm hn
        simp only [lexemesFrom]
        rw [ih (n := n) (by omega) (by omega)]

/-- Behind `before` and in front of `tail` the piece is one lexeme of this kind. -/
def ReadAs (before : Option Char) (kind : Kind) (raw tail : List Char) : Prop :=
  ∃ c rest, raw = c :: rest ∧ scan before c (rest ++ tail) = (kind, raw.length)

theorem ReadAs.lexemes {before : Option Char} {kind : Kind} {raw tail : List Char}
    (h : ReadAs before kind raw tail) :
    lexemesBehind before (raw ++ tail) = ⟨kind, raw⟩ :: lexemesBehind raw.getLast? tail := by
  obtain ⟨c, rest, rfl, hscan⟩ := h
  have htake : (c :: (rest ++ tail)).take (c :: rest).length = c :: rest := by simp
  have hdrop : (c :: (rest ++ tail)).drop (c :: rest).length = tail := by simp
  show lexemesFrom ((rest ++ tail).length + 1) before (c :: (rest ++ tail)) = _
  simp only [lexemesFrom, hscan, htake, hdrop]
  rw [lexemesFrom_eq (by simp) (Nat.le_refl tail.length)]
  rfl

/-- Every text starts with a lexeme. -/
theorem exists_readAs (before : Option Char) (ch : Char) (rest : List Char) :
    ∃ raw tail, ch :: rest = raw ++ tail ∧ ReadAs before (scan before ch rest).1 raw tail ∧
      raw = (ch :: rest).take (scan before ch rest).2 ∧
      tail = (ch :: rest).drop (scan before ch rest).2 := by
  obtain ⟨⟨hpos, hle⟩, -⟩ := scan_spec before ch rest
  obtain ⟨n, hn⟩ : ∃ n, (scan before ch rest).2 = n + 1 := ⟨(scan before ch rest).2 - 1, by omega⟩
  refine ⟨_, _, (List.take_append_drop _ _).symm, ⟨ch, rest.take n, by rw [hn]; rfl, ?_⟩, rfl, rfl⟩
  rw [hn, List.drop_succ_cons, List.take_append_drop, List.length_take, Nat.min_eq_left (hn ▸ hle),
    ← hn]

/-! ### Single characters and escapes -/

theorem isPunctuation_of_isMarkup {c : Char} (h : isMarkup c = true) : isPunctuation c = true := by
  simp only [isMarkup, Bool.or_eq_true, beq_iff_eq] at h
  rcases h with (((((((((rfl | rfl) | rfl) | rfl) | rfl) | rfl) | rfl) | rfl) | rfl) | rfl) | rfl <;>
    rfl

section
variable {before : Option Char} (tail : List Char)

theorem readAs_single {c : Char} {kind : Kind} (h : Kind.ofChar? c = some kind) :
    ReadAs before kind [c] tail :=
  ⟨c, [], rfl, by simp only [scan, h]; rfl⟩

theorem readAs_newline : ReadAs before .newline ['\n'] tail :=
  ⟨'\n', [], rfl, rfl⟩

theorem readAs_crlf : ReadAs before .newline ['\r', '\n'] tail :=
  ⟨'\r', ['\n'], rfl, rfl⟩

theorem readAs_at : ReadAs before .text ['@'] tail :=
  ⟨'@', [], rfl, rfl⟩

/-- A backslash and a character that could start markup are one lexeme, which says the
character. -/
theorem readAs_escape {c : Char} (h : isMarkup c = true) :
    ReadAs before .text ['\\', c] tail := by
  refine ⟨'\\', [c], rfl, ?_⟩
  show (Kind.text, if isPunctuation c = true then 2 else 1) = _
  rw [if_pos (isPunctuation_of_isMarkup h)]
  rfl

end

theorem text_escape {c : Char} (h : isMarkup c = true) :
    Lexeme.text ⟨.text, ['\\', c]⟩ = [c] := by
  show (if isPunctuation c = true then [c] else ['\\', c]) = [c]
  rw [if_pos (isPunctuation_of_isMarkup h)]

/-! ### Escaped text -/

@[simp] theorem escapeText_nil : escapeText [] = [] := rfl

theorem escapeText_markup {c : Char} (h : isMarkup c = true) (text : List Char) :
    escapeText (c :: text) = '\\' :: c :: escapeText text := by
  simp [escapeText, h]

theorem escapeText_plain {c : Char} (h : isMarkup c = false) (text : List Char) :
    escapeText (c :: text) = c :: escapeText text := by
  simp [escapeText, h]

theorem escapeText_append (a b : List Char) :
    escapeText (a ++ b) = escapeText a ++ escapeText b :=
  List.flatMap_append

theorem getLast?_escapeText (text : List Char) : (escapeText text).getLast? = text.getLast? := by
  cases h : text.getLast? with
  | none =>
    obtain rfl := List.getLast?_eq_none_iff.1 h
    rfl
  | some c =>
    obtain ⟨front, rfl⟩ := List.getLast?_eq_some_iff.1 h
    rw [escapeText_append]
    cases hc : isMarkup c <;> simp [escapeText, hc]

/-- Text without markup is not escaped. -/
theorem escapeText_of_all {text : List Char} (h : text.all (!isMarkup ·) = true) :
    escapeText text = text := by
  induction text with
  | nil => rfl
  | cons c text ih =>
    simp only [List.all_cons, Bool.and_eq_true, Bool.not_eq_true'] at h
    rw [escapeText_plain h.1, ih h.2]

/-- The text, escaped in front of `tail`, says itself again: no bare address begins in it, or
each that does has nothing escaped in it if `addresses` may stand there. The first `skip`
characters are part of one that has begun. -/
def isReadBack (addresses : Bool) (tail : List Char) :
    (skip : Nat) → (before : Option Char) → List Char → Bool
  | _, _, [] => true
  | skip + 1, _, c :: rest => isReadBack addresses tail skip (some c) rest
  | 0, before, c :: rest =>
    match urlBehind? before (escapeText (c :: rest) ++ tail) with
    | none => isReadBack addresses tail 0 (some c) rest
    | some length =>
      addresses && length ≤ (c :: rest).length && ((c :: rest).take length).all (!isMarkup ·) &&
        isReadBack addresses tail (length - 1) (some c) rest

/-! ### Runs of ordinary text -/

/-- Ordinary text behind which stands `before` does not go on with `tail`: that is empty,
starts with a special character or is an address. -/
def Ends (before : Option Char) (tail : List Char) : Prop :=
  ∀ c ∈ tail.head?, isSpecial c = true ∨ (urlBehind? before tail).isSome = true

theorem ends_of_special {tail : List Char} (h : ∀ c ∈ tail.head?, isSpecial c = true)
    (before : Option Char) : Ends before tail :=
  fun c hc => .inl (h c hc)

theorem textRest_of_ends {before : Char} {tail : List Char} (h : Ends (some before) tail) :
    textRest before tail = 0 := by
  cases tail with
  | nil => rfl
  | cons c rest =>
    unfold textRest
    rw [if_pos]
    rcases h c rfl with h | h <;> simp [h]

/-- The characters that are special but not escaped. -/
theorem special_cases {c : Char} (hspecial : isSpecial c = true) (hmarkup : isMarkup c = false) :
    c = '(' ∨ c = ')' ∨ c = '^' ∨ c = '@' ∨ c = '\n' := by
  have hkinds : (Kind.ofChar? c).isSome = true → c = '(' ∨ c = ')' ∨ c = '^' := by
    intro hkind
    unfold Kind.ofChar? at hkind
    split at hkind <;> first | (cases hmarkup; done) | (cases hkind; done) | simp
  simp only [isSpecial, Bool.or_eq_true, beq_iff_eq] at hspecial
  rcases hspecial with ((((((h | rfl) | rfl) | rfl) | rfl) | rfl) | rfl) | rfl
  · rcases hkinds h with h | h | h <;> simp [h]
  all_goals first | (cases hmarkup; done) | simp

/-- Behind an ordinary character goes on an address or a run of text. -/
theorem scan_ordinary {before : Option Char} {c : Char} {rest : List Char}
    (hspecial : isSpecial c = false) (hcrlf : startsCrlf (c :: rest) = false) :
    scan before c rest = match urlBehind? before (c :: rest) with
      | some length => (.url, length)
      | none => (.text, textRest c rest + 1) := by
  simp only [isSpecial, Bool.or_eq_false_iff, beq_eq_false_iff_ne, ne_eq] at hspecial
  obtain ⟨⟨⟨⟨⟨⟨⟨hkind, hnewline⟩, hescape⟩, hat⟩, htick⟩, hdollar⟩, hangle⟩, hand⟩ := hspecial
  have hnone : Kind.ofChar? c = none := by simpa using hkind
  cases hurl : urlBehind? before (c :: rest) <;>
    simp [scan, hnone, hcrlf, hnewline, hescape, hat, htick, hdollar, hangle, hand, hurl]

/-- A run of ordinary text stays within what was one text before it was escaped. -/
theorem textRest_escapeText {addresses : Bool} {tail : List Char} (before : Char) (text : List Char)
    (hends : Ends (before :: text).getLast? tail)
    (hback : isReadBack addresses tail 0 (some before) text = true) :
    ∃ run rest, text = run ++ rest ∧ escapeText text = run ++ escapeText rest ∧
      textRest before (escapeText text ++ tail) = run.length ∧
      isReadBack addresses tail 0 (before :: run).getLast? rest = true := by
  induction text generalizing before with
  | nil => exact ⟨[], [], rfl, rfl, textRest_of_ends hends, rfl⟩
  | cons c text ih =>
    cases hmarkup : isMarkup c with
    | true =>
      refine ⟨[], c :: text, rfl, rfl, ?_, hback⟩
      rw [escapeText_markup hmarkup]
      rfl
    | false =>
      have hplain := escapeText_plain hmarkup text
      unfold isReadBack at hback
      rw [hplain, List.cons_append] at hback ⊢
      rw [textRest]
      split
      · refine ⟨[], c :: text, rfl, hplain.symm, rfl, ?_⟩
        unfold isReadBack
        rw [hplain]
        exact hback
      · rename_i hgo
        have hurl : urlBehind? (some before) (c :: (escapeText text ++ tail)) = none := by
          simp only [Bool.or_eq_true, not_or, Option.not_isSome_iff_eq_none] at hgo
          exact hgo.2
        rw [hurl] at hback
        rw [List.getLast?_cons_cons] at hends
        obtain ⟨run, rest, htext, hescape, hlength, hrest⟩ := ih c hends hback
        refine ⟨c :: run, rest, by rw [htext]; rfl, by rw [hescape]; rfl, by rw [hlength]; rfl, ?_⟩
        rwa [List.getLast?_cons_cons]

/-! ### The pieces of a text -/

/-- The kinds of the lexemes that text is written as. -/
def Kind.isTextual : Kind → Bool
  | .text | .leftParen | .rightParen | .caret => true
  | _ => false

theorem text_of_ne {kind : Kind} {c : Char} (h : c ≠ '\\') (rest : List Char) :
    Lexeme.text ⟨kind, c :: rest⟩ = c :: rest := by
  unfold Lexeme.text
  split
  · rename_i d heq
    exact absurd (List.cons.inj heq).1 h
  · rfl

theorem urlOpenings_head : ∀ opening ∈ urlOpenings, ∃ c ∈ ['h', 'f', 'w'], ∃ rest, opening = c :: rest := by
  intro opening hopening
  simp only [urlOpenings, List.mem_cons, List.not_mem_nil, or_false] at hopening
  rcases hopening with rfl | rfl | rfl | rfl
  · exact ⟨'h', by decide, _, rfl⟩
  · exact ⟨'h', by decide, _, rfl⟩
  · exact ⟨'f', by decide, _, rfl⟩
  · exact ⟨'w', by decide, _, rfl⟩

theorem urlBehind?_of_not_mem {before : Option Char} {c : Char} {rest : List Char}
    (h : c ∉ ['h', 'f', 'w']) : urlBehind? before (c :: rest) = none := by
  have hurl : url? (c :: rest) = none := by
    refine List.findSome?_eq_none_iff.2 fun opening hopening => ?_
    obtain ⟨d, hd, behind, rfl⟩ := urlOpenings_head opening hopening
    have hne : d ≠ c := by
      rintro rfl
      exact h hd
    simp [after?, hne]
  unfold urlBehind?
  split
  · exact hurl
  · rfl

theorem mem_of_urlBehind? {before : Option Char} {c : Char} {rest : List Char} {length : Nat}
    (h : urlBehind? before (c :: rest) = some length) : c ∈ ['h', 'f', 'w'] := by
  by_cases hc : c ∈ ['h', 'f', 'w']
  · exact hc
  · rw [urlBehind?_of_not_mem hc] at h
    exact nomatch h

theorem urlBehind?_of_special {before : Option Char} {c : Char} {rest : List Char}
    (h : isSpecial c = true) : urlBehind? before (c :: rest) = none := by
  refine urlBehind?_of_not_mem fun hc => ?_
  simp only [List.mem_cons, List.not_mem_nil, or_false] at hc
  rcases hc with rfl | rfl | rfl <;> exact nomatch h

/-- Where no address begins, the text goes on behind the next character. -/
theorem isReadBack_cons {addresses : Bool} {before : Option Char} {c : Char} {tail text : List Char}
    (h : urlBehind? before (escapeText (c :: text) ++ tail) = none) :
    isReadBack addresses tail 0 before (c :: text) = isReadBack addresses tail 0 (some c) text := by
  rw [isReadBack, h]

/-- Behind an address that has begun, the text goes on. -/
theorem isReadBack_skip (addresses : Bool) (tail : List Char) (skip : Nat) (b : Char) (text : List Char) :
    isReadBack addresses tail skip (some b) text =
      isReadBack addresses tail 0 (b :: text.take skip).getLast? (text.drop skip) := by
  induction text generalizing skip b with
  | nil => cases skip <;> simp [isReadBack]
  | cons c text ih =>
    cases skip with
    | zero => simp
    | succ skip =>
      rw [isReadBack, ih]
      simp

/-- A text starts with what a lexeme says, and goes on with `rest` behind it. -/
structure Pieced (addresses : Bool) (before : Option Char) (tail text : List Char)
    (lexeme : Lexeme) (rest : List Char) : Prop where
  text_eq : text = lexeme.text ++ rest
  ne_nil : lexeme.text ≠ []
  escape_eq : escapeText text = lexeme.raw ++ escapeText rest
  last : lexeme.raw.getLast? = lexeme.text.getLast?
  readAs : ReadAs before lexeme.kind lexeme.raw (escapeText rest ++ tail)
  kind_cases : lexeme.kind.isTextual = true ∨ lexeme.kind = .newline ∧ '\n' ∈ lexeme.text ∨
    lexeme.kind = .url ∧ addresses = true ∧ lexeme.text.head? ≠ some '<'
  back : isReadBack addresses tail 0 lexeme.text.getLast? rest = true

/-- What goes on behind a piece is shorter. -/
theorem Pieced.length_lt {addresses : Bool} {before : Option Char} {tail text rest : List Char}
    {lexeme : Lexeme} (h : Pieced addresses before tail text lexeme rest) :
    rest.length < text.length := by
  have hpos := List.length_pos_iff.2 h.ne_nil
  rw [h.text_eq, List.length_append]
  omega

/-- Without addresses a piece is text or ends a line. -/
theorem Pieced.kind_of_no_address {before : Option Char} {tail text rest : List Char}
    {lexeme : Lexeme} (h : Pieced false before tail text lexeme rest) :
    lexeme.kind.isTextual = true ∨ lexeme.kind = .newline ∧ '\n' ∈ lexeme.text := by
  rcases h.kind_cases with h | h | h
  · exact .inl h
  · exact .inr h
  · exact nomatch h.2.1

/-- A character that is special but not escaped is a piece of its own. -/
theorem pieced_special {addresses : Bool} {before : Option Char} {c : Char} {tail text : List Char}
    (hspecial : isSpecial c = true) (hmarkup : isMarkup c = false)
    (hback : isReadBack addresses tail 0 (some c) text = true) :
    ∃ kind, Pieced addresses before tail (c :: text) ⟨kind, [c]⟩ text := by
  have hplain := escapeText_plain hmarkup text
  rcases special_cases hspecial hmarkup with rfl | rfl | rfl | rfl | rfl
  · exact ⟨.leftParen, rfl, nofun, hplain, rfl, readAs_single _ rfl, .inl rfl, hback⟩
  · exact ⟨.rightParen, rfl, nofun, hplain, rfl, readAs_single _ rfl, .inl rfl, hback⟩
  · exact ⟨.caret, rfl, nofun, hplain, rfl, readAs_single _ rfl, .inl rfl, hback⟩
  · exact ⟨.text, rfl, nofun, hplain, rfl, readAs_at _, .inl rfl, hback⟩
  · exact ⟨.newline, rfl, nofun, hplain, rfl, readAs_newline _, .inr (.inl ⟨rfl, by decide⟩), hback⟩

/-- A line end that is written in two characters; the tail has no part in it. -/
theorem pieced_crlf {addresses : Bool} {before : Option Char} {c : Char} {tail text : List Char}
    (hcrlf : tail.head? = some '\n' → (c :: text).getLast? ≠ some '\r')
    (hstarts : startsCrlf (c :: (escapeText text ++ tail)) = true)
    (hback : isReadBack addresses tail 0 (some c) text = true) :
    ∃ rest, Pieced addresses before tail (c :: text) ⟨.newline, ['\r', '\n']⟩ rest := by
  obtain ⟨behind, hbehind⟩ := Option.isSome_iff_exists.1 hstarts
  obtain ⟨rfl, hrest⟩ := List.cons.inj (after?_eq_some hbehind)
  cases text with
  | nil =>
    have hhead : tail.head? = some '\n' := by simpa using congrArg List.head? hrest
    exact absurd rfl (hcrlf hhead)
  | cons d text =>
    cases hd : isMarkup d with
    | true =>
      rw [escapeText_markup hd] at hrest
      exact nomatch (List.cons.inj hrest).1
    | false =>
      rw [escapeText_plain hd] at hrest
      obtain rfl : d = '\n' := (List.cons.inj hrest).1
      rw [isReadBack_cons (by rw [escapeText_plain hd]; exact urlBehind?_of_special rfl)] at hback
      refine ⟨text, rfl, nofun, ?_, rfl, readAs_crlf _, .inr (.inl ⟨rfl, by decide⟩), hback⟩
      rw [escapeText_plain rfl, escapeText_plain hd]
      rfl

/-- A character of markup is a piece together with the backslash in front of it. -/
theorem pieced_escape {addresses : Bool} {before : Option Char} {c : Char} {tail text : List Char}
    (hmarkup : isMarkup c = true) (hback : isReadBack addresses tail 0 (some c) text = true) :
    Pieced addresses before tail (c :: text) ⟨.text, ['\\', c]⟩ text := by
  have hspelt := text_escape hmarkup
  refine ⟨?_, ?_, escapeText_markup hmarkup text, ?_, readAs_escape _ hmarkup, .inl rfl, ?_⟩ <;>
    rw [hspelt]
  · rfl
  · exact List.cons_ne_nil _ _
  · rfl
  · exact hback

theorem text_of_not_special {c : Char} (hspecial : isSpecial c = false) (kind : Kind)
    (part : List Char) : Lexeme.text ⟨kind, c :: part⟩ = c :: part :=
  text_of_ne (by rintro rfl; cases hspecial) part

/-- Where no address begins, an ordinary character is a piece with the run of text it starts. -/
theorem pieced_run {addresses : Bool} {before : Option Char} {c : Char} {tail text : List Char}
    (hends : Ends (c :: text).getLast? tail) (hmarkup : isMarkup c = false)
    (hspecial : isSpecial c = false)
    (hstarts : startsCrlf (c :: (escapeText text ++ tail)) = false)
    (hurl : urlBehind? before (c :: (escapeText text ++ tail)) = none)
    (hback : isReadBack addresses tail 0 (some c) text = true) :
    ∃ run rest, Pieced addresses before tail (c :: text) ⟨.text, c :: run⟩ rest := by
  have hscan := @scan_ordinary before c (escapeText text ++ tail) hspecial hstarts
  obtain ⟨run, rest, htext, hescape, hlength, hrest⟩ := textRest_escapeText c text hends hback
  rw [hurl, hlength] at hscan
  have hspelt := text_of_not_special hspecial .text run
  refine ⟨run, rest, ?_, ?_, ?_, ?_, ⟨c, run, rfl, ?_⟩, .inl rfl, ?_⟩
  · rw [hspelt, htext]
    rfl
  · rw [hspelt]
    exact List.cons_ne_nil _ _
  · rw [escapeText_plain hmarkup, hescape]
    rfl
  · rw [hspelt]
  · rw [← List.append_assoc, ← hescape, hscan]
    rfl
  · rw [hspelt]
    exact hrest

/-- An address is a piece, as long as it is written without escapes. -/
theorem pieced_address {before : Option Char} {c : Char} {tail text : List Char} {n : Nat}
    (hmarkup : isMarkup c = false) (hspecial : isSpecial c = false)
    (hstarts : startsCrlf (c :: (escapeText text ++ tail)) = false)
    (hurl : urlBehind? before (c :: (escapeText text ++ tail)) = some (n + 1))
    (hlength : n + 1 ≤ (c :: text).length)
    (hall : ((c :: text).take (n + 1)).all (!isMarkup ·) = true)
    (hback : isReadBack true tail 0 (c :: text.take n).getLast? (text.drop n) = true) :
    Pieced true before tail (c :: text) ⟨.url, c :: text.take n⟩ (text.drop n) := by
  have hscan := @scan_ordinary before c (escapeText text ++ tail) hspecial hstarts
  rw [hurl] at hscan
  have hescape : escapeText (c :: text) = (c :: text).take (n + 1) ++
      escapeText ((c :: text).drop (n + 1)) := by
    have hsplit := escapeText_append ((c :: text).take (n + 1)) ((c :: text).drop (n + 1))
    rwa [List.take_append_drop, escapeText_of_all hall] at hsplit
  have hspelt := text_of_not_special hspecial .url (text.take n)
  refine ⟨?_, ?_, hescape, ?_, ⟨c, text.take n, rfl, ?_⟩, .inr (.inr ⟨rfl, rfl, ?_⟩), ?_⟩
  · rw [hspelt]
    simp
  · rw [hspelt]
    exact List.cons_ne_nil _ _
  · rw [hspelt]
  · have hrest : text.take n ++ (escapeText (text.drop n) ++ tail) = escapeText text ++ tail := by
      rw [(List.cons.inj ((escapeText_plain hmarkup text).symm.trans hescape)).2]
      simp
    rw [hrest, hscan]
    simp at hlength ⊢
    omega
  · rw [hspelt]
    rintro h
    obtain rfl := Option.some.inj h
    cases hspecial
  · rw [hspelt]
    exact hback

/-- Every text that is read back starts with a piece. -/
theorem exists_piece {addresses : Bool} {before : Option Char} {tail text : List Char}
    (hne : text ≠ []) (hends : Ends text.getLast? tail)
    (hcrlf : tail.head? = some '\n' → text.getLast? ≠ some '\r')
    (hback : isReadBack addresses tail 0 before text = true) :
    ∃ lexeme rest, Pieced addresses before tail text lexeme rest := by
  obtain ⟨c, text, rfl⟩ := List.exists_cons_of_ne_nil hne
  cases hmarkup : isMarkup c with
  | true =>
    have hescape := escapeText_markup hmarkup text
    rw [isReadBack_cons (by rw [hescape]; exact urlBehind?_of_special rfl)] at hback
    exact ⟨_, _, pieced_escape hmarkup hback⟩
  | false =>
    have hplain := escapeText_plain hmarkup text
    cases hspecial : isSpecial c with
    | true =>
      rw [isReadBack_cons (by rw [hplain]; exact urlBehind?_of_special hspecial)] at hback
      obtain ⟨kind, hpiece⟩ := pieced_special hspecial hmarkup hback
      exact ⟨_, _, hpiece⟩
    | false =>
      cases hstarts : startsCrlf (c :: (escapeText text ++ tail)) with
      | true =>
        have hcr : c = '\r' := by
          obtain ⟨behind, hbehind⟩ := Option.isSome_iff_exists.1 hstarts
          exact (List.cons.inj (after?_eq_some hbehind)).1
        rw [isReadBack_cons
          (by rw [hplain]; exact urlBehind?_of_not_mem (by rw [hcr]; decide))] at hback
        obtain ⟨rest, hpiece⟩ := pieced_crlf hcrlf hstarts hback
        exact ⟨_, _, hpiece⟩
      | false =>
        have hwritten : escapeText (c :: text) ++ tail = c :: (escapeText text ++ tail) := by
          rw [hplain]
          rfl
        cases hurl : urlBehind? before (c :: (escapeText text ++ tail)) with
        | none =>
          rw [isReadBack_cons (by rw [hwritten, hurl])] at hback
          obtain ⟨run, rest, hpiece⟩ := pieced_run hends hmarkup hspecial hstarts hurl hback
          exact ⟨_, _, hpiece⟩
        | some length =>
          obtain ⟨n, rfl⟩ : ∃ n, length = n + 1 := by
            have hpos := (scan_spec before c (escapeText text ++ tail)).1.1
            rw [scan_ordinary hspecial hstarts, hurl] at hpos
            exact ⟨length - 1, (Nat.sub_add_cancel hpos).symm⟩
          rw [isReadBack, hwritten, hurl] at hback
          simp only [Bool.and_eq_true, decide_eq_true_eq] at hback
          obtain ⟨⟨⟨rfl, hlength⟩, hall⟩, hback⟩ := hback
          rw [isReadBack_skip] at hback
          exact ⟨_, _, pieced_address hmarkup hspecial hstarts hurl hlength hall hback⟩

end InlineMarkdown
