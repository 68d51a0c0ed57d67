import InlineMarkdown.Proofs.Lexeme

/-! How a lexeme comes about.

`Scanned` lists the ways in which a lexeme may start at a character, each with what the text
must be for it: a character of its own, a line end, an escape, a construct that a scanner
recognises, the literal character where it recognises none, an address, or a run of ordinary
text. Facts about lexemes of some kind are facts about the few ways to that kind. In all of
them a lexeme has a character and ends within the text (`scan_spec`). So the lexemes of a source,
put together again, are the source (`lexemes_raw`), and a lexeme of a kind that belongs to one
character is that character (`raw_of_ofChar?`). -/
namespace InlineMarkdown

/-- The ways to a lexeme of this kind and length from `c` on, behind `before` and in front of
`rest`. -/
inductive Scanned (before : Option Char) (c : Char) (rest : List Char) : Kind → Nat → Prop
  | single {kind : Kind} : Kind.ofChar? c = some kind → Scanned before c rest kind 1
  | newline : c = '\n' → Scanned before c rest .newline 1
  | crlf : startsCrlf (c :: rest) = true → Scanned before c rest .newline 2
  | escape : c = '\\' → rest.head?.any isPunctuation = true → Scanned before c rest .text 2
  | backslash : c = '\\' → rest.head?.any isPunctuation = false → Scanned before c rest .text 1
  | at : c = '@' → Scanned before c rest .text 1
  | code {length : Nat} : c = backtick → codeSpan? (c :: rest) = some length →
      Scanned before c rest .inlineCode length
  | backticks : c = backtick → codeSpan? (c :: rest) = none →
      Scanned before c rest .text (runLength backtick (c :: rest))
  | formula {length : Nat} : c = '$' → formula? (c :: rest) = some length →
      Scanned before c rest .formula length
  | dollar : c = '$' → formula? (c :: rest) = none → Scanned before c rest .text 1
  | autolink {length : Nat} : c = '<' → autolink? (c :: rest) = some length →
      Scanned before c rest .autolink length
  | html {found : Kind × Nat} : c = '<' → autolink? (c :: rest) = none →
      angle? (c :: rest) = some found →
      found.1 = .htmlBlock ∨ found.1 = .htmlUnclosedBlock ∨ found.1 = .htmlTag →
      Scanned before c rest found.1 found.2
  | angle : c = '<' → angle? (c :: rest) = none → Scanned before c rest .text 1
  | reference {length : Nat} : c = '&' → characterReference? (c :: rest) = some length →
      Scanned before c rest .htmlEntity length
  | ampersand : c = '&' → characterReference? (c :: rest) = none → Scanned before c rest .text 1
  | url {length : Nat} : urlBehind? before (c :: rest) = some length →
      Scanned before c rest .url length
  | run : isSpecial c = false → startsCrlf (c :: rest) = false →
      urlBehind? before (c :: rest) = none → Scanned before c rest .text (textRest c rest + 1)

/-- What an angle bracket starts if it is no address. -/
theorem angle?_html {text : List Char} {found : Kind × Nat} (hlink : autolink? text = none)
    (h : angle? text = some found) :
    found.1 = .htmlBlock ∧ htmlBlock? text = some found.2 ∨
      found.1 = .htmlUnclosedBlock ∧ htmlUnclosed? text = some found.2 ∨
      found.1 = .htmlTag ∧ htmlTag? text = some found.2 := by
  rw [angle?, hlink] at h
  rcases orElse_eq_some h with h | h
  · cases h
  rcases orElse_eq_some h with h | h
  · obtain ⟨_, hlength, rfl⟩ := Option.map_eq_some_iff.1 h
    exact .inl ⟨rfl, hlength⟩
  rcases orElse_eq_some h with h | h
  · obtain ⟨_, hlength, rfl⟩ := Option.map_eq_some_iff.1 h
    exact .inr (.inl ⟨rfl, hlength⟩)
  · obtain ⟨_, hlength, rfl⟩ := Option.map_eq_some_iff.1 h
    exact .inr (.inr ⟨rfl, hlength⟩)

theorem angle?_kind {text : List Char} {found : Kind × Nat} (h : angle? text = some found) :
    autolink? text = some found.2 ∧ found.1 = .autolink ∨
      autolink? text = none ∧
        (found.1 = .htmlBlock ∨ found.1 = .htmlUnclosedBlock ∨ found.1 = .htmlTag) := by
  cases hlink : autolink? text with
  | some length =>
    rw [angle?, hlink] at h
    obtain rfl := Option.some.inj h
    exact .inl ⟨rfl, rfl⟩
  | none =>
    exact .inr ⟨rfl, (angle?_html hlink h).imp And.left (Or.imp And.left And.left)⟩

theorem scanned (before : Option Char) (c : Char) (rest : List Char) :
    Scanned before c rest (scan before c rest).1 (scan before c rest).2 := by
  unfold scan
  split
  · rename_i kind hkind
    exact .single hkind
  rename_i hnone
  dsimp only
  split
  · rename_i hc
    exact .newline hc
  rename_i hnewline
  split
  · rename_i hcrlf
    exact .crlf hcrlf
  rename_i hcrlf
  split
  · rename_i hc
    split
    · rename_i hpunctuation
      exact .escape hc hpunctuation
    · rename_i hplain
      exact .backslash hc (eq_false_of_ne_true hplain)
  rename_i hbackslash
  split
  · rename_i hc
    exact .at hc
  rename_i hat
  split
  · rename_i hc
    split
    · rename_i length hlength
      exact .code hc hlength
    · rename_i hcode
      exact .backticks hc hcode
  rename_i hbacktick
  split
  · rename_i hc
    split
    · rename_i length hlength
      exact .formula hc hlength
    · rename_i hformula
      exact .dollar hc hformula
  rename_i hdollar
  split
  · rename_i hc
    split
    · rename_i found hfound
      rcases angle?_kind hfound with ⟨hlink, hkind⟩ | ⟨hlink, hkind⟩
      · rw [hkind]
        exact .autolink hc hlink
      · exact .html hc hlink hfound hkind
    · rename_i hangle
      exact .angle hc hangle
  rename_i hangle
  split
  · rename_i hc
    split
    · rename_i length hlength
      exact .reference hc hlength
    · rename_i hreference
      exact .ampersand hc hreference
  rename_i hampersand
  split
  · rename_i length hlength
    exact .url hlength
  · rename_i hurl
    refine .run ?_ (eq_false_of_ne_true hcrlf) hurl
    simp [isSpecial, hnone, hnewline, hbackslash, hat, hbacktick, hdollar, hangle, hampersand]

theorem Scanned.within {before : Option Char} {c : Char} {rest : List Char} {kind : Kind}
    {length : Nat} (h : Scanned before c rest kind length) : Within (c :: rest) length := by
  cases h with
  | crlf hcrlf =>
    obtain ⟨behind, hbehind⟩ := Option.isSome_iff_exists.1 hcrlf
    have := length_after? hbehind
    simp only [List.length_cons, List.length_nil] at this
    exact ⟨Nat.two_pos, by rw [List.length_cons]; omega⟩
  | escape _ hpunctuation =>
    cases rest with
    | nil => cases hpunctuation
    | cons d rest => exact ⟨Nat.two_pos, Nat.succ_le_succ (Nat.succ_le_succ (Nat.zero_le _))⟩
  | code _ hfound => exact codeSpan?_within hfound
  | backticks hbacktick =>
    subst hbacktick
    exact ⟨by simp [runLength], length_takeWhile_le ..⟩
  | formula _ hfound => exact formula?_within hfound
  | autolink _ hfound => exact autolink?_within hfound
  | html _ _ hfound _ => exact angle?_within hfound
  | reference _ hfound => exact characterReference?_within hfound
  | url hfound => exact url?_within (urlBehind?_eq_some.1 hfound).2
  | run => exact ⟨Nat.succ_pos _, Nat.succ_le_succ (textRest_le c rest)⟩
  | _ => exact ⟨Nat.one_pos, Nat.succ_le_succ (Nat.zero_le _)⟩

theorem Scanned.fixed {before : Option Char} {c : Char} {rest : List Char} {kind : Kind}
    {length : Nat} (h : Scanned before c rest kind length) (hfixed : kind.isFixed = true) :
    Kind.ofChar? c = some kind ∧ length = 1 := by
  cases h with
  | single hkind => exact ⟨hkind, rfl⟩
  | html _ _ _ hkind =>
    rcases hkind with hkind | hkind | hkind <;> rw [hkind] at hfixed <;> cases hfixed
  | _ => cases hfixed

/-- A lexeme has a character, and is one character if its kind says which. -/
theorem scan_spec (before : Option Char) (c : Char) (rest : List Char) :
    Within (c :: rest) (scan before c rest).2 ∧
      ((scan before c rest).1.isFixed = true →
        Kind.ofChar? c = some (scan before c rest).1 ∧ (scan before c rest).2 = 1) :=
  ⟨(scanned before c rest).within, (scanned before c rest).fixed⟩

/-- No character is read as the end of the input. -/
theorem scan_ne_eof (before : Option Char) (c : Char) (rest : List Char) :
    (scan before c rest).1 ≠ .eof := fun heof =>
  ofChar?_ne_eof c (heof ▸ ((scan_spec before c rest).2 (by rw [heof]; rfl)).1)

/-! ### All lexemes -/

theorem lexemesFrom_raw {limit : Nat} {before : Option Char} {text : List Char}
    (h : text.length ≤ limit) : (lexemesFrom limit before text).flatMap (·.raw) = text := by
  induction limit generalizing before text with
  | zero =>
    obtain rfl := List.eq_nil_of_length_eq_zero (Nat.le_zero.1 h)
    rfl
  | succ limit ih =>
    cases text with
    | nil => rfl
    | cons c rest =>
      obtain ⟨⟨hpos, -⟩, -⟩ := scan_spec before c rest
      unfold lexemesFrom
      generalize scan before c rest = found at hpos
      obtain ⟨kind, length⟩ := found
      have hless : ((c :: rest).drop length).length ≤ limit := by
        rw [List.length_drop]
        dsimp only at hpos
        omega
      simp only [List.flatMap_cons, ih hless, List.take_append_drop]

/-- The lexemes of a source read the source. -/
theorem lexemes_raw (source : List Char) : (lexemes source).flatMap (·.raw) = source :=
  lexemesFrom_raw (Nat.le_refl _)

/-- Every lexeme was scanned somewhere in the text. -/
theorem exists_scan {limit : Nat} {before : Option Char} {text : List Char} {lexeme : Lexeme}
    (h : lexeme ∈ lexemesFrom limit before text) : ∃ before' c rest,
      c :: rest <:+ text ∧ lexeme.kind = (scan before' c rest).1 ∧
        lexeme.raw = (c :: rest).take (scan before' c rest).2 := by
  induction limit generalizing before text with
  | zero => cases h
  | succ limit ih =>
    cases text with
    | nil => cases h
    | cons c rest =>
      unfold lexemesFrom at h
      rcases List.mem_cons.1 h with rfl | h
      · exact ⟨before, c, rest, List.suffix_refl _, rfl, rfl⟩
      · obtain ⟨before', d, behind, hsuffix, hlexeme⟩ := ih h
        exact ⟨before', d, behind, hsuffix.trans (List.drop_suffix ..), hlexeme⟩

theorem spec_of_mem_lexemesFrom {limit : Nat} {before : Option Char} {text : List Char}
    {lexeme : Lexeme} (h : lexeme ∈ lexemesFrom limit before text) :
    lexeme.kind ≠ .eof ∧ ∀ c, Kind.ofChar? c = some lexeme.kind → lexeme.raw = [c] := by
  obtain ⟨before', c, rest, -, hkind, hraw⟩ := exists_scan h
  rw [hkind, hraw]
  refine ⟨scan_ne_eof before' c rest, fun d hd => ?_⟩
  obtain ⟨hc, hlength⟩ := (scan_spec before' c rest).2 (isFixed_of_ofChar? hd)
  obtain rfl := ofChar?_inj hc hd
  rw [hlength]
  rfl

/-- A lexeme of a kind that belongs to a character is that character. -/
theorem raw_of_ofChar? {source : List Char} {lexeme : Lexeme} {c : Char}
    (h : lexeme ∈ lexemes source) (hc : Kind.ofChar? c = some lexeme.kind) : lexeme.raw = [c] :=
  (spec_of_mem_lexemesFrom h).2 c hc

/-- No lexeme is the end of the input. -/
theorem kind_ne_eof {source : List Char} {lexeme : Lexeme} (h : lexeme ∈ lexemes source) :
    lexeme.kind ≠ .eof :=
  (spec_of_mem_lexemesFrom h).1

/-- How a lexeme of a source came about. -/
theorem exists_scanned {source : List Char} {lexeme : Lexeme} (h : lexeme ∈ lexemes source) :
    ∃ before c rest length, c :: rest <:+ source ∧ lexeme.raw = (c :: rest).take length ∧
      lexeme.raw.length = length ∧ Scanned before c rest lexeme.kind length := by
  obtain ⟨before, c, rest, hsuffix, hkind, hraw⟩ := exists_scan h
  obtain ⟨-, hwithin⟩ := (scan_spec before c rest).1
  refine ⟨before, c, rest, _, hsuffix, hraw, ?_, hkind ▸ scanned before c rest⟩
  rw [hraw, List.length_take_of_le hwithin]

/-- What is one token as a whole was recognised by the scanner for its kind. -/
theorem Scanned.found {before : Option Char} {c : Char} {rest : List Char} {kind : Kind} {length : Nat}
    (h : Scanned before c rest kind length) :
    (kind = .inlineCode → codeSpan? (c :: rest) = some length) ∧
      (kind = .formula → formula? (c :: rest) = some length) ∧
      (kind = .autolink → autolink? (c :: rest) = some length) ∧
      (kind = .url → url? (c :: rest) = some length) := by
  cases h with
  | code _ hfound => exact ⟨fun _ => hfound, nofun, nofun, nofun⟩
  | formula _ hfound => exact ⟨nofun, fun _ => hfound, nofun, nofun⟩
  | autolink _ hfound => exact ⟨nofun, nofun, fun _ => hfound, nofun⟩
  | url hfound => exact ⟨nofun, nofun, nofun, fun _ => (urlBehind?_eq_some.1 hfound).2⟩
  | single hchar =>
    have hfixed := isFixed_of_ofChar? hchar
    refine ⟨?_, ?_, ?_, ?_⟩ <;> rintro rfl <;> cases hfixed
  | html _ _ _ hkind =>
    refine ⟨?_, ?_, ?_, ?_⟩ <;> intro hother <;> rw [hother] at hkind <;> simp at hkind
  | _ => exact ⟨nofun, nofun, nofun, nofun⟩

/-! ### Addresses -/

/-- An address takes three characters at least. -/
theorem three_le_autolink? {text : List Char} {length : Nat} (h : autolink? text = some length) :
    3 ≤ length := by
  rcases orElse_eq_some h with h | h
  · unfold schemeAutolink? at h
    obtain ⟨rest, -, h⟩ := Option.bind_eq_some_iff.1 h
    dsimp only at h
    split at h
    · cases h
    · obtain ⟨_, -, h⟩ := Option.bind_eq_some_iff.1 h
      obtain ⟨_, -, h⟩ := Option.bind_eq_some_iff.1 h
      obtain rfl := Option.some.inj h
      exact Nat.le_add_left 3 _
  · unfold mailAutolink? at h
    obtain ⟨rest, -, h⟩ := Option.bind_eq_some_iff.1 h
    dsimp only at h
    split at h
    · cases h
    · obtain ⟨_, -, h⟩ := Option.bind_eq_some_iff.1 h
      split at h
      · cases h
      · obtain ⟨_, -, h⟩ := Option.bind_eq_some_iff.1 h
        obtain rfl := Option.some.inj h
        exact Nat.le_add_left 3 _

theorem three_le_url? {text : List Char} {length : Nat} (h : url? text = some length) :
    3 ≤ length := by
  have hopenings : urlOpenings.all (3 ≤ ·.length) = true := by decide
  obtain ⟨opening, hopening, h⟩ := List.exists_of_findSome?_eq_some h
  obtain ⟨rest, -, h⟩ := Option.bind_eq_some_iff.1 h
  have hlong := of_decide_eq_true (List.all_eq_true.1 hopenings opening hopening)
  dsimp only at h
  split at h
  · cases h
  · obtain rfl := Option.some.inj h
    omega

theorem length_address {source : List Char} {lexeme : Lexeme} (h : lexeme ∈ lexemes source)
    (hkind : lexeme.kind = .autolink ∨ lexeme.kind = .url) : 3 ≤ lexeme.raw.length := by
  obtain ⟨before, c, rest, length, -, -, hlength, hscanned⟩ := exists_scanned h
  obtain ⟨-, -, hautolink, hurl⟩ := hscanned.found
  rw [hlength]
  exact hkind.elim (fun hkind => three_le_autolink? (hautolink hkind)) fun hkind =>
    three_le_url? (hurl hkind)

end InlineMarkdown
