import InlineMarkdown.Proofs.Cuts
import InlineMarkdown.Proofs.Endings
import InlineMarkdown.Proofs.Fences

/-! Ordinary text in a source.

What a text token is made of: an escape, a character that starts nothing, a run of backticks that
nothing closes, or a run of ordinary text (`IsText`). The tokenizer looks for addresses at two
places, where a token starts and inside a run, and asks each time for the character in front. Both
are the same question (`endsRun`), put at every character of the run and at the one behind it, so a
run has no address in it and ends where one begins (`IsRun.ordinary`). -/
namespace InlineMarkdown

variable {source before run tail : List Char}

/-! ### Forms of text -/

/-- A run of backticks in front of `tail` that no run as long closes on its line. -/
structure IsUnclosed (count : Nat) (tail : List Char) : Prop where
  pos : 0 < count
  ends : tail.head? ≠ some backtick
  unclosed {front behind : List Char} : '\n' ∉ front → front.getLast? ≠ some backtick →
    behind.head? ≠ some backtick → tail ≠ front ++ List.replicate count backtick ++ behind

/-- An address may start behind this text. -/
def IsBehindBoundary (before : List Char) : Prop :=
  ∀ c ∈ before.getLast?, isAlphanumeric c = false

/-- The run of ordinary text between `before` and `tail`: no special character, line end or address
starts in it, and it goes on for as long as that is so. -/
structure IsOrdinary (source before run tail : List Char) : Prop where
  ne_nil : run ≠ []
  plain : ∀ c ∈ run, isSpecial c = false
  no_lineEnd {front behind : List Char} : run = front ++ behind → behind ≠ [] →
    ¬ ['\r', '\n'] <+: behind ++ tail
  no_address {front behind : List Char} : run = front ++ behind → behind ≠ [] →
    IsBehindBoundary (before ++ front) →
    ∀ address, IsBareAddress address → ¬ address <+: behind ++ tail
  ends : tail = [] ∨ (∃ c ∈ tail.head?, isSpecial c = true) ∨ ['\r', '\n'] <+: tail ∨
    ∃ token ∈ tokenize source, token.kind = .url ∧
      token.span.start = Position.advance {} (before ++ run)

/-- What a text token covers, and what it says. -/
inductive IsText (source before : List Char) : (raw text tail : List Char) → Prop
  | escape {c : Char} {tail : List Char} : isPunctuation c = true →
      IsText source before ['\\', c] [c] tail
  | backslash {tail : List Char} : (∀ c ∈ tail.head?, isPunctuation c = false) →
      IsText source before ['\\'] ['\\'] tail
  | literal {c : Char} {tail : List Char} : c ∈ ['@', '$', '<', '&'] →
      IsText source before [c] [c] tail
  | backticks {count : Nat} {tail : List Char} : IsUnclosed count tail →
      IsText source before (List.replicate count backtick) (List.replicate count backtick) tail
  | run {run tail : List Char} : IsOrdinary source before run tail →
      IsText source before run run tail

/-! ### Backticks -/

/-- A run of backticks as long as the fence closes it, wherever on the line it stands. -/
theorem isSome_fenceEnd? (fence : Nat) {run : Nat} {front behind : List Char} (hline : '\n' ∉ front)
    (hlast : front.getLast? ≠ some backtick) (hbehind : behind.head? ≠ some backtick)
    (hrun : front = [] → run = 0) :
    (fenceEnd? fence run (front ++ (List.replicate fence backtick ++ behind))).isSome = true := by
  induction front generalizing run with
  | nil =>
    rw [List.nil_append, hrun rfl, fenceEnd?_close hbehind fence (Nat.zero_add fence)]
    rfl
  | cons c front ih =>
    obtain ⟨hc, hfront⟩ := not_or.1 (mt List.mem_cons.2 hline)
    have hlater : front.getLast? ≠ some backtick := getLast?_behind [c] hlast
    rw [List.cons_append, fenceEnd?]
    split
    · rename_i hbacktick
      have hne : front ≠ [] := by
        rintro rfl
        exact hlast (by rw [hbacktick]; rfl)
      rw [Option.isSome_map]
      exact ih hfront hlater fun hnil => absurd hnil hne
    split
    · rfl
    split
    · rename_i hnewline
      exact absurd hnewline.symm hc
    · rw [Option.isSome_map]
      exact ih hfront hlater fun _ => rfl

/-- What is no code span starts with a run that is never closed. -/
theorem isUnclosed_of_codeSpan? {rest : List Char} (h : codeSpan? (backtick :: rest) = none) :
    IsUnclosed (runLength backtick (backtick :: rest))
      ((backtick :: rest).drop (runLength backtick (backtick :: rest))) := by
  have hpos : 0 < runLength backtick (backtick :: rest) := by simp [runLength]
  refine ⟨hpos, (runLength_spec _ _).2, fun {front behind} hline hlast hbehind hsplit => ?_⟩
  rw [codeSpan?, if_neg (Nat.ne_of_gt hpos), Option.map_eq_none_iff, hsplit,
    List.append_assoc] at h
  have hfound := isSome_fenceEnd? (runLength backtick (backtick :: rest)) hline hlast hbehind
    fun _ => rfl
  rw [h] at hfound
  cases hfound

/-! ### Runs -/

theorem isBoundary_iff : isBoundary before.getLast? = true ↔ IsBehindBoundary before := by
  unfold isBoundary IsBehindBoundary
  cases before.getLast? <;> simp

/-- A run of the tokenizer is one of ordinary text. -/
theorem IsRun.ordinary (h : IsRun before.getLast? run tail)
    (hcut : IsCut source (before ++ run) tail) : IsOrdinary source before run tail := by
  have hinside {front behind : List Char} (hsplit : run = front ++ behind) (hne : behind ≠ []) :
      (∀ c ∈ (behind ++ tail).head?, isSpecial c = false) ∧ startsCrlf (behind ++ tail) = false ∧
        urlBehind? (before ++ front).getLast? (behind ++ tail) = none := by
    rw [List.getLast?_append]
    exact endsRun_eq_false.1 (h.inside hsplit hne)
  refine ⟨h.ne_nil, fun c hc => ?_, fun hsplit hne hcrlf => ?_,
    fun {front behind} hsplit hne hboundary address haddress hbegins => ?_, ?_⟩
  · obtain ⟨front, behind, hsplit⟩ := List.append_of_mem hc
    exact (hinside hsplit (List.cons_ne_nil c behind)).1 c rfl
  · have hgoes := (hinside hsplit hne).2.1
    exact absurd ((startsCrlf_iff.2 hcrlf).symm.trans hgoes) nofun
  · have hgoes := (hinside hsplit hne).2.2
    have hfound := (isSome_url?_iff (behind ++ tail)).2 ⟨address, hbegins, haddress⟩
    rw [urlBehind?, if_pos (isBoundary_iff.2 hboundary)] at hgoes
    rw [hgoes] at hfound
    cases hfound
  · cases tail with
    | nil => exact .inl rfl
    | cons c rest =>
      refine .inr ?_
      cases hspecial : isSpecial c with
      | true => exact .inl ⟨c, rfl, hspecial⟩
      | false =>
        refine .inr ?_
        cases hcrlf : startsCrlf (c :: rest) with
        | true => exact .inl (startsCrlf_iff.1 hcrlf)
        | false =>
          -- What is left is an address, and that is the lexeme that comes next.
          have hends := h.ends (List.cons_ne_nil c rest)
          rw [← List.getLast?_append_of_ne_nil before h.ne_nil] at hends
          obtain ⟨raw, behind, -, hbetween⟩ := hcut.next
          rw [scan_ordinary hspecial hcrlf] at hbetween
          cases hurl : urlBehind? (before ++ run).getLast? (c :: rest) with
          | none =>
            rw [endsRun_eq_false.2 ⟨by simpa using hspecial, hcrlf, hurl⟩] at hends
            cases hends
          | some length =>
            rw [hurl] at hbetween
            exact .inr ⟨_, hbetween.mem_tokenize, rfl, rfl⟩

/-! ### Tokens -/

/-- A lexeme of text has one of the forms of text. -/
theorem Between.isText {lexeme : Lexeme} (h : Between source before lexeme tail)
    (hkind : lexeme.kind = .text) : IsText source before lexeme.raw lexeme.text tail := by
  obtain ⟨c, rest, length, -, hraw, htail, hscanned⟩ := h.scanned
  obtain ⟨kind, raw⟩ := lexeme
  dsimp only at hkind hscanned hraw
  subst hraw htail
  cases hscanned with
  | single hchar =>
    subst hkind
    cases isFixed_of_ofChar? hchar
  | escape hc hpunctuation =>
    subst hc
    cases rest with
    | nil => cases hpunctuation
    | cons d rest =>
      have hspelt : Lexeme.text ⟨.text, ['\\', d]⟩ = [d] := if_pos hpunctuation
      exact hspelt ▸ .escape hpunctuation
  | backslash hc hplain =>
    subst hc
    exact .backslash (by simpa [Option.any_eq_false] using hplain)
  | «at» hc | dollar hc | angle hc | ampersand hc =>
    subst hc
    exact .literal (by decide)
  | backticks hc hcode =>
    subst hc
    have hunclosed := isUnclosed_of_codeSpan? hcode
    obtain ⟨n, hn⟩ := Nat.exists_eq_succ_of_ne_zero (Nat.ne_of_gt hunclosed.pos)
    have hspelt : Lexeme.text ⟨.text, List.replicate (n + 1) backtick⟩ = _ :=
      text_of_ne (by decide) (List.replicate n backtick)
    dsimp only
    rw [(runLength_spec _ _).1]
    rw [hn] at hunclosed ⊢
    exact hspelt ▸ .backticks hunclosed
  | run hspecial hcrlf hurl =>
    have hrun := isRun_of_scanned hspecial hcrlf hurl
    have hspelt : Lexeme.text ⟨.text, c :: rest.take (textRest c rest)⟩ = _ :=
      text_of_ne (by rintro rfl; cases hspecial) _
    exact hspelt ▸ .run (hrun.ordinary h.ends)
  | html _ _ _ hhtml =>
    rw [hkind] at hhtml
    simp at hhtml
  | _ => cases hkind

/-- A lexeme of an address is one, behind a boundary. -/
theorem Between.isBareAddress {lexeme : Lexeme} (h : Between source before lexeme tail)
    (hkind : lexeme.kind = .url) :
    lexeme.text = lexeme.raw ∧ IsBareAddress lexeme.raw ∧ IsBehindBoundary before := by
  obtain ⟨c, rest, length, htext, hraw, -, hscanned⟩ := h.scanned
  obtain ⟨kind, raw⟩ := lexeme
  dsimp only at hkind hscanned hraw ⊢
  cases hscanned with
  | url hfound =>
    obtain ⟨hboundary, hurl⟩ := urlBehind?_eq_some.1 hfound
    have haddress := isBareAddress_of_url? hurl
    rw [hraw] at haddress
    refine ⟨?_, haddress, isBoundary_iff.1 hboundary⟩
    obtain ⟨d, behind, rfl, -⟩ := h.readAs
    have hd : d ∈ ['h', 'f', 'w'] := mem_of_urlBehind? (htext ▸ hfound)
    exact text_of_ne (by rintro rfl; simp at hd) behind
  | single hchar =>
    subst hkind
    cases isFixed_of_ofChar? hchar
  | html _ _ _ hhtml =>
    rw [hkind] at hhtml
    simp at hhtml
  | _ => cases hkind

/-- Ordinary text is taken as far as it goes, and no address is missed. Every text token is an
escape, a character that starts nothing, a run of backticks that nothing closes, or a run of
ordinary text in which nothing else starts and behind which something does. Every address token is
an address at the start of the source or behind what is no letter or digit. -/
theorem tokenize_ordinary (source : List Char) :
    (∀ token ∈ tokenize source, token.kind = .text → ∃ before raw tail,
      source = before ++ raw ++ tail ∧ token.span = placeBehind before raw ∧
        IsText source before raw token.text tail) ∧
      ∀ token ∈ tokenize source, token.kind = .url → ∃ before tail,
        source = before ++ token.text ++ tail ∧ token.span = placeBehind before token.text ∧
          IsBareAddress token.text ∧ IsBehindBoundary before := by
  constructor
  · intro token htoken hkind
    obtain ⟨before, lexeme, tail, hbetween, rfl⟩ :=
      exists_between_of_mem htoken (by rw [Token.isEof, hkind]; rfl)
    exact ⟨before, lexeme.raw, tail, by rw [List.append_assoc, ← hbetween.source_eq], rfl,
      hbetween.isText hkind⟩
  · intro token htoken hkind
    obtain ⟨before, lexeme, tail, hbetween, rfl⟩ :=
      exists_between_of_mem htoken (by rw [Token.isEof, hkind]; rfl)
    obtain ⟨htext, haddress, hboundary⟩ := hbetween.isBareAddress hkind
    have hspelt : (lexeme.tokenBehind before).text = lexeme.raw := htext
    rw [hspelt]
    exact ⟨before, tail, by rw [List.append_assoc, ← hbetween.source_eq], rfl, haddress, hboundary⟩

/-- An address behind a blank ends the run in front of it. -/
theorem tokenize_ordinary_blank :
    (∃ before raw tail, "- www.b".toList = before ++ raw ++ tail ∧
      placeBehind [] "- ".toList = placeBehind before raw ∧
        IsText "- www.b".toList before raw "- ".toList tail) ∧
      ∃ before tail, "- www.b".toList = before ++ "www.b".toList ++ tail ∧
        placeBehind "- ".toList "www.b".toList = placeBehind before "www.b".toList ∧
          IsBareAddress "www.b".toList ∧ IsBehindBoundary before :=
  ⟨(tokenize_ordinary _).1 ⟨.text, "- ".toList, placeBehind [] "- ".toList⟩ (by decide) rfl,
    (tokenize_ordinary _).2 ⟨.url, "www.b".toList, placeBehind "- ".toList "www.b".toList⟩
      (by decide) rfl⟩

end InlineMarkdown
