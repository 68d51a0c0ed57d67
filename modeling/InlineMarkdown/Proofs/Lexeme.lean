import InlineMarkdown.Token.Tokenize

/-! What scanners take.

Whatever a scanner finds takes at least one character and not more than there are
(`Within`). -/
namespace InlineMarkdown

/-- The length is that of a piece at the start of the text. -/
def Within (text : List Char) (length : Nat) : Prop := 0 < length ∧ length ≤ text.length

theorem orElse_eq_some {α : Type} {a b : Option α} {x : α} (h : (a <|> b) = some x) :
    a = some x ∨ b = some x := by
  cases a with
  | none => exact .inr h
  | some y => exact .inl h

theorem length_after? {opening text rest : List Char} (h : after? opening text = some rest) :
    text.length = opening.length + rest.length := by
  rw [after?_eq_some h, List.length_append]

theorem length_takeWhile_le (p : Char → Bool) (text : List Char) :
    (text.takeWhile p).length ≤ text.length :=
  (List.takeWhile_prefix p).length_le

theorem length_dropWhile_le (p : Char → Bool) (text : List Char) :
    (text.dropWhile p).length ≤ text.length :=
  (List.dropWhile_suffix p).length_le

/-! ### Code spans and formulas -/

theorem fenceEnd?_le {fence run length : Nat} {text : List Char}
    (h : fenceEnd? fence run text = some length) : length ≤ text.length := by
  induction text generalizing run length with
  | nil =>
    unfold fenceEnd? at h
    split at h
    · obtain rfl := Option.some.inj h
      exact Nat.le_refl 0
    · exact nomatch h
  | cons c rest ih =>
    have hmap {run : Nat} (h : (fenceEnd? fence run rest).map (· + 1) = some length) :
        length ≤ (c :: rest).length := by
      obtain ⟨shorter, hshorter, rfl⟩ := Option.map_eq_some_iff.1 h
      exact Nat.succ_le_succ (ih hshorter)
    unfold fenceEnd? at h
    split at h
    · exact hmap h
    · split at h
      · obtain rfl := Option.some.inj h
        exact Nat.zero_le _
      · split at h
        · exact nomatch h
        · exact hmap h

theorem codeSpan?_within {text : List Char} {length : Nat} (h : codeSpan? text = some length) :
    Within text length := by
  have hrun : runLength backtick text ≤ text.length := length_takeWhile_le ..
  unfold codeSpan? at h
  dsimp only at h
  split at h
  · exact nomatch h
  · obtain ⟨rest, hrest, rfl⟩ := Option.map_eq_some_iff.1 h
    have hend := fenceEnd?_le hrest
    rw [List.length_drop] at hend
    exact ⟨by omega, by omega⟩

theorem displayFormula?_within {text : List Char} {length : Nat}
    (h : displayFormula? text = some length) : Within text length := by
  unfold displayFormula? at h
  obtain ⟨rest, hrest, h⟩ := Option.bind_eq_some_iff.1 h
  dsimp only at h
  split at h
  · exact nomatch h
  · obtain ⟨behind, hbehind, h⟩ := Option.bind_eq_some_iff.1 h
    obtain rfl := Option.some.inj h
    have hopening := length_after? hrest
    have hclosing := length_after? hbehind
    rw [List.length_drop] at hclosing
    simp only [List.length_cons, List.length_nil] at hopening hclosing
    exact ⟨by omega, by omega⟩

theorem inlineFormula?_within {text : List Char} {length : Nat}
    (h : inlineFormula? text = some length) : Within text length := by
  unfold inlineFormula? at h
  obtain ⟨rest, hrest, h⟩ := Option.bind_eq_some_iff.1 h
  obtain ⟨first, -, h⟩ := Option.bind_eq_some_iff.1 h
  obtain ⟨last, -, h⟩ := Option.bind_eq_some_iff.1 h
  split at h
  · exact nomatch h
  · obtain ⟨behind, hbehind, h⟩ := Option.bind_eq_some_iff.1 h
    obtain rfl := Option.some.inj h
    have hopening := length_after? hrest
    have hclosing := length_after? hbehind
    rw [List.length_drop] at hclosing
    simp only [List.length_cons, List.length_nil] at hopening hclosing
    exact ⟨by omega, by omega⟩

theorem formula?_within {text : List Char} {length : Nat} (h : formula? text = some length) :
    Within text length :=
  (orElse_eq_some h).elim displayFormula?_within inlineFormula?_within

/-! ### Addresses -/

theorem schemeAutolink?_within {text : List Char} {length : Nat}
    (h : schemeAutolink? text = some length) : Within text length := by
  unfold schemeAutolink? at h
  obtain ⟨rest, hrest, h⟩ := Option.bind_eq_some_iff.1 h
  dsimp only at h
  split at h
  · exact nomatch h
  · obtain ⟨target, htarget, h⟩ := Option.bind_eq_some_iff.1 h
    obtain ⟨behind, hbehind, h⟩ := Option.bind_eq_some_iff.1 h
    obtain rfl := Option.some.inj h
    have hopening := length_after? hrest
    have hcolon := length_after? htarget
    have hclosing := length_after? hbehind
    rw [List.length_drop] at hcolon hclosing
    simp only [List.length_cons, List.length_nil] at hopening hcolon hclosing
    exact ⟨by omega, by omega⟩

theorem mailAutolink?_within {text : List Char} {length : Nat}
    (h : mailAutolink? text = some length) : Within text length := by
  unfold mailAutolink? at h
  obtain ⟨rest, hrest, h⟩ := Option.bind_eq_some_iff.1 h
  dsimp only at h
  split at h
  · exact nomatch h
  · obtain ⟨target, htarget, h⟩ := Option.bind_eq_some_iff.1 h
    split at h
    · exact nomatch h
    · obtain ⟨behind, hbehind, h⟩ := Option.bind_eq_some_iff.1 h
      obtain rfl := Option.some.inj h
      have hopening := length_after? hrest
      have hat := length_after? htarget
      have hclosing := length_after? hbehind
      rw [List.length_drop] at hat hclosing
      simp only [List.length_cons, List.length_nil] at hopening hat hclosing
      exact ⟨by omega, by omega⟩

theorem autolink?_within {text : List Char} {length : Nat} (h : autolink? text = some length) :
    Within text length :=
  (orElse_eq_some h).elim schemeAutolink?_within mailAutolink?_within

theorem url?_within {text : List Char} {length : Nat} (h : url? text = some length) :
    Within text length := by
  unfold url? at h
  obtain ⟨opening, -, h⟩ := List.exists_of_findSome?_eq_some h
  obtain ⟨rest, hrest, h⟩ := Option.bind_eq_some_iff.1 h
  dsimp only at h
  split at h
  · exact nomatch h
  · rename_i hbody
    obtain rfl := Option.some.inj h
    have hopening := length_after? hrest
    have hsome := List.length_pos_iff.2 (mt List.isEmpty_iff.2 hbody)
    have hle : (urlBody rest).length ≤ rest.length := by
      have hdrop := length_dropWhile_le isUrlTail (rest.takeWhile isUrlChar).reverse
      have htake := length_takeWhile_le isUrlChar rest
      unfold urlBody
      rw [List.length_reverse] at hdrop ⊢
      omega
    exact ⟨by omega, by omega⟩

/-- An address is found behind a boundary only. -/
theorem urlBehind?_eq_some {before : Option Char} {text : List Char} {length : Nat} :
    urlBehind? before text = some length ↔ isBoundary before = true ∧ url? text = some length :=
  Option.ite_none_right_eq_some

/-! ### HTML -/

theorem through?_le {closing text : List Char} {length : Nat}
    (h : through? closing text = some length) : length ≤ text.length := by
  induction text generalizing length with
  | nil => exact nomatch h
  | cons c rest ih =>
    unfold through? at h
    split at h
    · rename_i hfound
      obtain ⟨behind, hbehind⟩ := Option.isSome_iff_exists.1 hfound
      have := length_after? hbehind
      obtain rfl := Option.some.inj h
      omega
    · obtain ⟨shorter, hshorter, rfl⟩ := Option.map_eq_some_iff.1 h
      exact Nat.succ_le_succ (ih hshorter)

theorem enclosed?_within {opening closing text : List Char} {length : Nat}
    (hopening : opening ≠ []) (h : enclosed? opening closing text = some length) :
    Within text length := by
  unfold enclosed? at h
  obtain ⟨rest, hrest, h⟩ := Option.bind_eq_some_iff.1 h
  obtain ⟨shorter, hshorter, h⟩ := Option.bind_eq_some_iff.1 h
  obtain rfl := Option.some.inj h
  have hstart := length_after? hrest
  have hend := through?_le hshorter
  have hsome := List.length_pos_iff.2 hopening
  exact ⟨by omega, by omega⟩

theorem htmlDeclaration?_within {text : List Char} {length : Nat}
    (h : htmlDeclaration? text = some length) : Within text length := by
  unfold htmlDeclaration? at h
  obtain ⟨rest, hrest, h⟩ := Option.bind_eq_some_iff.1 h
  split at h
  · obtain ⟨shorter, hshorter, h⟩ := Option.bind_eq_some_iff.1 h
    obtain rfl := Option.some.inj h
    have hstart := length_after? hrest
    have hend := through?_le hshorter
    simp only [List.length_cons, List.length_nil] at hstart
    exact ⟨by omega, by omega⟩
  · exact nomatch h

theorem htmlBlock?_within {text : List Char} {length : Nat} (h : htmlBlock? text = some length) :
    Within text length := by
  rcases orElse_eq_some h with h | h
  · exact enclosed?_within (by decide) h
  rcases orElse_eq_some h with h | h
  · exact enclosed?_within (by decide) h
  rcases orElse_eq_some h with h | h
  · exact enclosed?_within (by decide) h
  · exact htmlDeclaration?_within h

theorem htmlUnclosed?_within {text : List Char} {length : Nat}
    (h : htmlUnclosed? text = some length) : Within text length := by
  unfold htmlUnclosed? at h
  obtain ⟨rest, hrest, h⟩ := Option.bind_eq_some_iff.1 h
  obtain rfl := Option.some.inj h
  have hstart : text.length = 4 + rest.length := length_after? hrest
  have htake := length_takeWhile_le (· != '\n') rest
  exact ⟨by omega, by omega⟩

theorem length_afterTagName? {text rest : List Char} (h : afterTagName? text = some rest) :
    rest.length ≤ text.length := by
  unfold afterTagName? at h
  split at h
  · obtain rfl := Option.some.inj h
    exact length_dropWhile_le ..
  · exact nomatch h

theorem length_afterValue? {text rest : List Char} (h : afterValue? text = some rest) :
    rest.length ≤ text.length := by
  unfold afterValue? at h
  split at h
  · exact nomatch h
  · rename_i c tail
    rw [List.length_cons]
    split at h
    · have hquote := length_after? h
      have hdrop := length_dropWhile_le (· != c) tail
      omega
    · split at h
      · obtain rfl := Option.some.inj h
        exact Nat.le_succ_of_le (length_dropWhile_le ..)
      · exact nomatch h

theorem length_afterAttribute? {text rest : List Char} (h : afterAttribute? text = some rest) :
    rest.length ≤ text.length := by
  unfold afterAttribute? at h
  split at h
  · have hspace := length_dropWhile_le isSpace text
    split at h
    · exact nomatch h
    · rename_i c tail htail
      rw [htail, List.length_cons] at hspace
      split at h
      · obtain rfl := Option.some.inj h
        have hname := length_dropWhile_le isAttributeChar tail
        generalize tail.dropWhile isAttributeChar = behind at hname ⊢
        rcases hvalued : (do
          let value ← after? ['='] (behind.dropWhile isSpace)
          afterValue? (value.dropWhile isSpace)) with _ | valued
        · simp only [hvalued, Option.getD_none]
          omega
        · simp only [hvalued, Option.getD_some]
          obtain ⟨value, hvalue, hafter⟩ := Option.bind_eq_some_iff.1 hvalued
          have hequals := length_after? hvalue
          have hvalue := length_afterValue? hafter
          have hbefore := length_dropWhile_le isSpace behind
          have hbehind := length_dropWhile_le isSpace value
          omega
      · exact nomatch h
  · exact nomatch h

theorem length_afterAttributes_le (limit : Nat) (text : List Char) :
    (afterAttributes limit text).length ≤ text.length := by
  induction limit generalizing text with
  | zero => exact Nat.le_refl _
  | succ limit ih =>
    unfold afterAttributes
    split
    · rename_i rest hrest
      exact Nat.le_trans (ih rest) (length_afterAttribute? hrest)
    · exact Nat.le_refl _

theorem length_afterOpenTag? {text rest : List Char} (h : afterOpenTag? text = some rest) :
    rest.length < text.length := by
  unfold afterOpenTag? at h
  obtain ⟨named, hnamed, h⟩ := Option.bind_eq_some_iff.1 h
  obtain ⟨attributes, hattributes, h⟩ := Option.bind_eq_some_iff.1 h
  have hopening := length_after? hnamed
  have hname := length_afterTagName? hattributes
  have hattributes := length_afterAttributes_le attributes.length attributes
  have hspace := length_dropWhile_le isSpace (afterAttributes attributes.length attributes)
  simp only [List.length_cons, List.length_nil] at hopening
  rcases orElse_eq_some h with h | h <;> have hclosing := length_after? h <;> omega

theorem length_afterCloseTag? {text rest : List Char} (h : afterCloseTag? text = some rest) :
    rest.length < text.length := by
  unfold afterCloseTag? at h
  obtain ⟨named, hnamed, h⟩ := Option.bind_eq_some_iff.1 h
  obtain ⟨behind, hbehind, h⟩ := Option.bind_eq_some_iff.1 h
  have hopening := length_after? hnamed
  have hname := length_afterTagName? hbehind
  have hspace := length_dropWhile_le isSpace behind
  have hclosing := length_after? h
  simp only [List.length_cons, List.length_nil] at hopening
  omega

theorem htmlTag?_within {text : List Char} {length : Nat} (h : htmlTag? text = some length) :
    Within text length := by
  unfold htmlTag? at h
  obtain ⟨rest, hrest, h⟩ := Option.bind_eq_some_iff.1 h
  obtain rfl := Option.some.inj h
  have hlt : rest.length < text.length :=
    (orElse_eq_some hrest).elim length_afterOpenTag? length_afterCloseTag?
  exact ⟨by omega, by omega⟩

/-! ### Character references -/

theorem referenceOf?_within {opening : List Char} {p : Char → Bool} {least most : Nat}
    {text : List Char} {length : Nat} (h : referenceOf? opening p least most text = some length) :
    Within text length := by
  unfold referenceOf? at h
  obtain ⟨rest, hrest, h⟩ := Option.bind_eq_some_iff.1 h
  dsimp only at h
  split at h
  · exact nomatch h
  · obtain ⟨behind, hbehind, h⟩ := Option.bind_eq_some_iff.1 h
    obtain rfl := Option.some.inj h
    have hopening := length_after? hrest
    have hclosing := length_after? hbehind
    rw [List.length_drop] at hclosing
    simp only [List.length_cons, List.length_nil] at hclosing
    exact ⟨by omega, by omega⟩

theorem characterReference?_within {text : List Char} {length : Nat}
    (h : characterReference? text = some length) : Within text length := by
  rcases orElse_eq_some h with h | h
  · exact referenceOf?_within h
  rcases orElse_eq_some h with h | h
  · exact referenceOf?_within h
  rcases orElse_eq_some h with h | h
  · exact referenceOf?_within h
  · unfold namedReference? at h
    split at h
    · exact referenceOf?_within h
    · exact nomatch h

/-! ### One lexeme -/

/-- The kinds that say what the slice is: those of one character, and the end of the input. -/
def Kind.isFixed : Kind → Bool
  | .asterisk | .underscore | .tilde | .exclamation | .leftBracket | .rightBracket | .leftParen
  | .rightParen | .caret | .eof => true
  | _ => false

theorem isFixed_of_ofChar? {c : Char} {kind : Kind} (h : Kind.ofChar? c = some kind) :
    kind.isFixed = true := by
  unfold Kind.ofChar? at h
  split at h <;> cases h <;> rfl

theorem ofChar?_ne_eof (c : Char) : Kind.ofChar? c ≠ some .eof := by
  unfold Kind.ofChar?
  split <;> nofun

theorem ofChar?_inj {c d : Char} {kind : Kind} (hc : Kind.ofChar? c = some kind)
    (hd : Kind.ofChar? d = some kind) : c = d := by
  unfold Kind.ofChar? at hc
  unfold Kind.ofChar? at hd
  split at hc <;> cases hc <;> split at hd <;> first | rfl | cases hd

theorem angle?_within {text : List Char} {found : Kind × Nat} (h : angle? text = some found) :
    Within text found.2 := by
  rcases orElse_eq_some h with h | h
  · obtain ⟨length, hlength, rfl⟩ := Option.map_eq_some_iff.1 h
    exact autolink?_within hlength
  rcases orElse_eq_some h with h | h
  · obtain ⟨length, hlength, rfl⟩ := Option.map_eq_some_iff.1 h
    exact htmlBlock?_within hlength
  rcases orElse_eq_some h with h | h
  · obtain ⟨length, hlength, rfl⟩ := Option.map_eq_some_iff.1 h
    exact htmlUnclosed?_within hlength
  · obtain ⟨length, hlength, rfl⟩ := Option.map_eq_some_iff.1 h
    exact htmlTag?_within hlength

theorem textRest_le (before : Char) (text : List Char) : textRest before text ≤ text.length := by
  induction text generalizing before with
  | nil => exact Nat.le_refl 0
  | cons c rest ih =>
    unfold textRest
    split
    · exact Nat.zero_le _
    · exact Nat.succ_le_succ (ih c)

end InlineMarkdown
