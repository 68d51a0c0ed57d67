import InlineMarkdown.Proofs.Pieces

/-! Lexemes at line ends.

Apart from tags and closed blocks no scanner looks beyond the end of a line: what it finds at the
start of a text it also finds with a line feed behind the text, whatever follows that (`LineBound`).
So there is no line feed in what it finds (`LineBound.not_mem`), and a line feed behind a text
without angle brackets is a lexeme of its own, with the lexemes of the text in front of it and
those of the rest, as if that stood alone, behind it (`lexemes_line`). -/
namespace InlineMarkdown

variable {text rest : List Char}

/-! ### Cutting -/

theorem after?_line {opening : List Char} (h : '\n' ∉ opening) (text rest : List Char) :
    after? opening (text ++ '\n' :: rest) =
      (after? opening text).map (· ++ '\n' :: rest) := by
  induction opening generalizing text with
  | nil => rfl
  | cons a opening ih =>
    obtain ⟨ha, hopening⟩ := not_or.1 (mt List.mem_cons.2 h)
    cases text with
    | nil => exact if_neg (Ne.symm ha)
    | cons c text =>
      simp only [List.cons_append, after?, ih hopening]
      split <;> rfl

theorem takeWhile_line {p : Char → Bool} (h : p '\n' = false) (text rest : List Char) :
    (text ++ '\n' :: rest).takeWhile p = text.takeWhile p := by
  induction text with
  | nil => simp [h]
  | cons c text ih => simp [List.takeWhile_cons, ih]

theorem drop_takeWhile_line (p : Char → Bool) (text rest : List Char) :
    (text ++ '\n' :: rest).drop (text.takeWhile p).length =
      text.drop (text.takeWhile p).length ++ '\n' :: rest :=
  List.drop_append_of_le_length (length_takeWhile_le p text)

/-! ### Scanners -/

/-- The scanner does not look beyond a line end. -/
def LineBound (scanner : List Char → Option Nat) : Prop :=
  ∀ text rest, scanner (text ++ '\n' :: rest) = scanner text

theorem LineBound.orElse {first second : List Char → Option Nat} (h : LineBound first)
    (h' : LineBound second) : LineBound fun text => first text <|> second text := by
  intro text rest
  simp only [h text rest, h' text rest]

theorem LineBound.findSome {α : Type} {scanner : α → List Char → Option Nat} {choices : List α}
    (h : ∀ choice ∈ choices, LineBound (scanner choice)) :
    LineBound fun text => choices.findSome? (scanner · text) := by
  intro text rest
  induction choices with
  | nil => rfl
  | cons choice choices ih =>
    simp only [List.findSome?_cons, h choice (List.mem_cons_self ..) text rest,
      ih fun other hother => h other (List.mem_cons_of_mem _ hother)]

/-- What comes behind a fixed opening is not beyond the line end either. -/
theorem LineBound.behind {opening : List Char} {scanner : List Char → Option Nat}
    (hopening : '\n' ∉ opening) (h : LineBound scanner) :
    LineBound fun text => after? opening text >>= scanner := by
  intro text rest
  dsimp only
  rw [after?_line hopening]
  cases after? opening text with
  | none => rfl
  | some behind => exact h behind rest

theorem fenceEnd?_lineBound (fence run : Nat) : LineBound (fenceEnd? fence run) := by
  intro text rest
  induction text generalizing run with
  | nil =>
    have hnewline : '\n' ≠ backtick := by decide
    simp [fenceEnd?, hnewline]
  | cons c text ih => simp only [List.cons_append, fenceEnd?, ih]

theorem runLength_line {c : Char} (h : ('\n' == c) = false) (text rest : List Char) :
    runLength c (text ++ '\n' :: rest) = runLength c text := by
  unfold runLength
  rw [takeWhile_line h]

theorem codeSpan?_lineBound : LineBound codeSpan? := by
  intro text rest
  unfold codeSpan?
  rw [runLength_line rfl]
  unfold runLength
  dsimp only
  rw [drop_takeWhile_line, fenceEnd?_lineBound]

theorem formulaBody_line (text rest : List Char) :
    formulaBody (text ++ '\n' :: rest) = formulaBody text :=
  takeWhile_line rfl text rest

theorem drop_formulaBody_line (text rest : List Char) :
    (text ++ '\n' :: rest).drop (formulaBody text).length =
      text.drop (formulaBody text).length ++ '\n' :: rest :=
  drop_takeWhile_line _ text rest

theorem displayFormula?_lineBound : LineBound displayFormula? := by
  have hfence : '\n' ∉ ['$', '$'] := by decide
  refine .behind hfence fun text rest => ?_
  simp only [formulaBody_line, drop_formulaBody_line, after?_line hfence, Option.bind_eq_bind,
    Option.bind_map, Function.comp_def]

theorem inlineFormula?_lineBound : LineBound inlineFormula? := by
  have hfence : '\n' ∉ ['$'] := by decide
  refine .behind hfence fun text rest => ?_
  simp only [formulaBody_line, drop_formulaBody_line, after?_line hfence, Option.bind_eq_bind,
    Option.bind_map, Function.comp_def]

theorem formula?_lineBound : LineBound formula? :=
  displayFormula?_lineBound.orElse inlineFormula?_lineBound

theorem referenceOf?_lineBound {opening : List Char} {p : Char → Bool} (least most : Nat)
    (hopening : '\n' ∉ opening) (hp : p '\n' = false) :
    LineBound (referenceOf? opening p least most) := by
  have hclosing : '\n' ∉ [';'] := by decide
  refine .behind hopening fun text rest => ?_
  simp only [takeWhile_line hp, drop_takeWhile_line, after?_line hclosing, Option.bind_eq_bind,
    Option.bind_map, Function.comp_def]

theorem namedReference?_lineBound : LineBound namedReference? := by
  have hreference : LineBound (referenceOf? ['&'] Char.isAlphanum 2 32) :=
    referenceOf?_lineBound 2 32 (by decide) rfl
  intro text rest
  unfold namedReference?
  rw [hreference]
  match text with
  -- A letter behind the line feed does not count, since there is no ampersand in front of it.
  | [] => simp [referenceOf?, after?]
  | [_] => rfl
  | _ :: _ :: _ => rfl

theorem characterReference?_lineBound : LineBound characterReference? :=
  (referenceOf?_lineBound 1 7 (by decide) rfl).orElse
    ((referenceOf?_lineBound 1 6 (by decide) rfl).orElse
      ((referenceOf?_lineBound 1 6 (by decide) rfl).orElse namedReference?_lineBound))

theorem urlBody_line (text rest : List Char) : urlBody (text ++ '\n' :: rest) = urlBody text := by
  unfold urlBody
  rw [takeWhile_line rfl]

theorem url?_lineBound : LineBound url? := by
  have hopenings : ∀ opening ∈ urlOpenings, '\n' ∉ opening := by decide
  refine .findSome fun opening hopening => .behind (hopenings opening hopening) fun text rest => ?_
  simp only [urlBody_line]

theorem urlBehind?_lineBound (before : Option Char) : LineBound (urlBehind? before) := by
  intro text rest
  unfold urlBehind?
  rw [url?_lineBound]

theorem schemeAutolink?_lineBound : LineBound schemeAutolink? := by
  have hopening : '\n' ∉ ['<'] := by decide
  have hcolon : '\n' ∉ [':'] := by decide
  have hclosing : '\n' ∉ ['>'] := by decide
  have hscheme := takeWhile_line (p := isSchemeChar) rfl
  have hpath := takeWhile_line (p := fun c => !isSpace c && c != '<' && c != '>') rfl
  refine .behind hopening fun text rest => ?_
  simp only [hscheme, hpath, drop_takeWhile_line, after?_line hcolon, after?_line hclosing,
    Option.bind_eq_bind, Option.bind_map, Function.comp_def]

theorem mailAutolink?_lineBound : LineBound mailAutolink? := by
  have hopening : '\n' ∉ ['<'] := by decide
  have hat : '\n' ∉ ['@'] := by decide
  have hclosing : '\n' ∉ ['>'] := by decide
  have hmailbox := takeWhile_line (p := isMailboxChar) rfl
  have hhost := takeWhile_line (p := fun c => c.isAlphanum || c == '-' || c == '.') rfl
  refine .behind hopening fun text rest => ?_
  simp only [hmailbox, hhost, drop_takeWhile_line, after?_line hat, after?_line hclosing,
    Option.bind_eq_bind, Option.bind_map, Function.comp_def]

theorem autolink?_lineBound : LineBound autolink? :=
  schemeAutolink?_lineBound.orElse mailAutolink?_lineBound

theorem htmlUnclosed?_lineBound : LineBound htmlUnclosed? := by
  have hopening : '\n' ∉ "<!--".toList := by decide
  have hline := takeWhile_line (p := (· != '\n')) rfl
  refine .behind hopening fun text rest => ?_
  simp only [hline]

/-- What such a scanner finds has no line feed in it. -/
theorem LineBound.not_mem {scanner : List Char → Option Nat} (h : LineBound scanner)
    (hwithin : ∀ {text : List Char} {length : Nat}, scanner text = some length → Within text length)
    {length : Nat} (hfound : scanner text = some length) : '\n' ∉ text.take length := by
  intro hfeed
  -- The scanner finds the same in front of the first line feed, where there is none.
  obtain ⟨line, behind, rfl, hline⟩ := List.eq_append_cons_of_mem (List.mem_of_mem_take hfeed)
  rw [h] at hfound
  rw [List.take_append_of_le_length (hwithin hfound).2] at hfeed
  exact hline (List.mem_of_mem_take hfeed)

/-! ### One lexeme -/

/-- A text that does not end with a carriage return starts with a line end as it does in front
of one. -/
theorem startsCrlf_line (h : text.getLast? ≠ some '\r') (rest : List Char) :
    startsCrlf (text ++ '\n' :: rest) = startsCrlf text := by
  match text with
  | [] => rfl
  | [c] =>
    have hc : '\r' ≠ c := fun hc => h (by rw [← hc]; rfl)
    simp [startsCrlf, after?, hc]
  | c :: d :: text =>
    simp only [startsCrlf, List.cons_append, after?, apply_ite Option.isSome]
    rfl

theorem getLast?_behind (front : List Char) {c : Char}
    (h : (front ++ text).getLast? ≠ some c) : text.getLast? ≠ some c := by
  intro hlast
  exact h (by rw [List.getLast?_append, hlast]; rfl)

theorem textRest_line (before : Char) (h : text.getLast? ≠ some '\r') (rest : List Char) :
    textRest before (text ++ '\n' :: rest) = textRest before text := by
  induction text generalizing before with
  | nil => rfl
  | cons c text ih =>
    have hcrlf := startsCrlf_line h rest
    have hurl := urlBehind?_lineBound (some before) (c :: text) rest
    rw [List.cons_append] at hcrlf hurl ⊢
    simp only [textRest, hcrlf, hurl, ih c (getLast?_behind [c] h)]

/-- A lexeme that no angle bracket starts is the same in front of a line end. -/
theorem scan_line {c : Char} (before : Option Char) (hangle : c ≠ '<')
    (hlast : (c :: text).getLast? ≠ some '\r') (rest : List Char) :
    scan before c (text ++ '\n' :: rest) = scan before c text := by
  have hcrlf := startsCrlf_line hlast rest
  have hcode := codeSpan?_lineBound (c :: text) rest
  have hrun : runLength backtick (c :: text ++ '\n' :: rest) = _ := runLength_line rfl _ rest
  have hformula := formula?_lineBound (c :: text) rest
  have hreference := characterReference?_lineBound (c :: text) rest
  have hurl := urlBehind?_lineBound before (c :: text) rest
  have htext := textRest_line c (getLast?_behind [c] hlast) rest
  have hescape : (text ++ '\n' :: rest).head?.any isPunctuation =
      text.head?.any isPunctuation := by
    cases text <;> rfl
  rw [List.cons_append] at hcrlf hcode hrun hformula hreference hurl
  simp only [scan, hcrlf, hcode, hrun, hformula, hreference, hurl, htext, hescape, if_neg hangle]

/-! ### All lexemes -/

/-- Behind a line feed an address may start as it may at the start of a text. -/
theorem lexemesBehind_newline (text : List Char) :
    lexemesBehind (some '\n') text = lexemesBehind none text := by
  have hboundary : isBoundary (some '\n') = isBoundary none := by decide
  cases text with
  | nil => rfl
  | cons c rest =>
    have hscan : scan (some '\n') c rest = scan none c rest := by
      simp only [scan, urlBehind?, hboundary]
    simp only [lexemesBehind, List.length_cons, lexemesFrom, hscan]

theorem ReadAs.line {before : Option Char} {kind : Kind} {raw tail : List Char}
    (h : ReadAs before kind raw tail) (hangle : '<' ∉ raw)
    (hlast : (raw ++ tail).getLast? ≠ some '\r') (rest : List Char) :
    ReadAs before kind raw (tail ++ '\n' :: rest) := by
  obtain ⟨c, behind, rfl, hscan⟩ := h
  have hc : c ≠ '<' := fun hc => hangle (by rw [hc]; exact List.mem_cons_self ..)
  rw [List.cons_append] at hlast
  refine ⟨c, behind, rfl, ?_⟩
  rw [← List.append_assoc, scan_line before hc hlast, hscan]

/-- A line feed behind a text is a lexeme between those of the text and those of the rest. -/
theorem lexemes_line (before : Option Char) (hangle : '<' ∉ text)
    (hlast : text.getLast? ≠ some '\r') (rest : List Char) :
    lexemesBehind before (text ++ '\n' :: rest) =
      lexemesBehind before text ++ ⟨.newline, ['\n']⟩ :: lexemesBehind none rest := by
  induction hlength : text.length using Nat.strongRecOn generalizing before text with
  | _ n ih =>
    cases text with
    | nil => exact (readAs_newline rest).lexemes.trans (congrArg _ (lexemesBehind_newline rest))
    | cons c behind =>
      obtain ⟨raw, tail, hsplit, hread, -, -⟩ := exists_readAs before c behind
      rw [hsplit] at hangle hlast hlength ⊢
      rw [List.mem_append, not_or] at hangle
      have hless : tail.length < n := by
        obtain ⟨d, more, rfl, -⟩ := hread
        rw [← hlength, List.length_append, List.length_cons]
        omega
      rw [hread.lexemes, List.append_assoc, (hread.line hangle.1 hlast rest).lexemes,
        ih _ hless raw.getLast? hangle.2 (getLast?_behind raw hlast) rfl]
      rfl

end InlineMarkdown
