import InlineMarkdown.Entity
import InlineMarkdown.Source.Position
import InlineMarkdown.Proofs.Fences

/-! Character references, as they are written and as they are decoded.

`IsReference` is the written form, and the scanner finds exactly the references in that form
(`characterReference?_eq_some_iff`). `Decodes` reads a text once from left to right, one
character or one reference at a time. Decoding jumps from ampersand to ampersand instead; since
a reference starts with an ampersand, it comes to the same (`decodes_decodeFrom`), and what a
text decodes to is one text only (`Decodes.unique`).

The decoder of one reference reads more than the written form: its numbers may have a sign
and any number of digits. -/
namespace InlineMarkdown

/-! ### The written form -/

/-- A character reference as it is written. -/
inductive IsReference : List Char → Prop
  | decimal {digits : List Char} : (∀ c ∈ digits, c.isDigit = true) → 1 ≤ digits.length →
      digits.length ≤ 7 → IsReference ('&' :: '#' :: (digits ++ [';']))
  | hexadecimal {mark : Char} {digits : List Char} : mark = 'x' ∨ mark = 'X' →
      (∀ c ∈ digits, isHexDigit c = true) → 1 ≤ digits.length → digits.length ≤ 6 →
      IsReference ('&' :: '#' :: mark :: (digits ++ [';']))
  | named {first : Char} {others : List Char} : first.isAlpha = true →
      (∀ c ∈ others, c.isAlphanum = true) → 1 ≤ others.length → others.length ≤ 31 →
      IsReference ('&' :: first :: (others ++ [';']))

namespace IsReference
variable {reference : List Char}

theorem four_le_length (h : IsReference reference) : 4 ≤ reference.length := by
  cases h <;> simp <;> omega

theorem head? (h : IsReference reference) : reference.head? = some '&' := by
  cases h <;> rfl

end IsReference

/-! ### Scanning -/

section Scanning
variable {opening text : List Char} {p : Char → Bool} {least most n : Nat}

/-- A reference of one form is an opening, a body of the right length and a semicolon. -/
theorem referenceOf?_eq_some_iff (hp : p ';' = false) :
    referenceOf? opening p least most text = some n ↔
      ∃ body rest, text = opening ++ (body ++ ';' :: rest) ∧ (∀ c ∈ body, p c = true) ∧
        least ≤ body.length ∧ body.length ≤ most ∧ n = opening.length + body.length + 1 := by
  constructor
  · intro h
    obtain ⟨behind, hbehind, h⟩ := Option.bind_eq_some_iff.1 h
    dsimp only at h
    split at h
    · cases h
    · rename_i hlength
      obtain ⟨rest, hrest, h⟩ := Option.bind_eq_some_iff.1 h
      have hbody : behind = behind.takeWhile p ++ ';' :: rest := by
        conv => lhs; rw [← List.take_append_drop (behind.takeWhile p).length behind]
        rw [after?_eq_some hrest]
        exact congrArg (· ++ _) (List.prefix_iff_eq_take.1 (List.takeWhile_prefix p)).symm
      simp only [Bool.or_eq_true, decide_eq_true_eq, not_or, Nat.not_lt] at hlength
      exact ⟨behind.takeWhile p, rest, by rw [← hbody, ← after?_eq_some hbehind],
        fun c => List.mem_takeWhile_imp, hlength.1, hlength.2, (Option.some.inj h).symm⟩
  · rintro ⟨body, rest, rfl, hbody, hleast, hmost, rfl⟩
    have htake : (body ++ ';' :: rest).takeWhile p = body := takeWhile_exact hbody (by simpa using hp)
    have hlength : ¬ (body.length < least ∨ most < body.length) := by omega
    simp [referenceOf?, after?_append, htake, hlength, after?]

/-- A text that does not start with the opening starts with no reference of that form. -/
theorem referenceOf?_of_after? (h : after? opening text = none) :
    referenceOf? opening p least most text = none := by
  simp [referenceOf?, h]

/-- Neither does one whose body would be empty. -/
theorem referenceOf?_of_empty {c : Char} {rest : List Char} (hc : p c = false) (hleast : 0 < least)
    (h : text = opening ++ c :: rest) : referenceOf? opening p least most text = none := by
  simp [referenceOf?, h, after?_append, hc, hleast]

/-- What the scanner finds is a reference at the start of the text. -/
theorem exists_of_characterReference? (h : characterReference? text = some n) :
    ∃ reference rest, text = reference ++ rest ∧ IsReference reference ∧ n = reference.length := by
  rcases orElse_eq_some h with h | h
  · obtain ⟨digits, rest, rfl, hdigits, hleast, hmost, rfl⟩ := (referenceOf?_eq_some_iff rfl).1 h
    exact ⟨_, rest, by simp, .decimal hdigits hleast hmost, by simp; omega⟩
  rcases orElse_eq_some h with h | h
  · obtain ⟨digits, rest, rfl, hdigits, hleast, hmost, rfl⟩ := (referenceOf?_eq_some_iff rfl).1 h
    exact ⟨_, rest, by simp, .hexadecimal (.inl rfl) hdigits hleast hmost, by simp; omega⟩
  rcases orElse_eq_some h with h | h
  · obtain ⟨digits, rest, rfl, hdigits, hleast, hmost, rfl⟩ := (referenceOf?_eq_some_iff rfl).1 h
    exact ⟨_, rest, by simp, .hexadecimal (.inr rfl) hdigits hleast hmost, by simp; omega⟩
  · unfold namedReference? at h
    split at h
    · rename_i hfirst
      obtain ⟨name, rest, rfl, hname, hleast, hmost, rfl⟩ := (referenceOf?_eq_some_iff rfl).1 h
      obtain ⟨first, others, rfl⟩ := List.exists_cons_of_length_pos (Nat.lt_of_lt_of_le Nat.two_pos hleast)
      rw [List.length_cons] at hleast hmost
      exact ⟨'&' :: first :: (others ++ [';']), rest, by simp, .named hfirst
        (fun c hc => hname c (List.mem_cons_of_mem _ hc)) (by omega) (by omega), by simp; omega⟩
    · cases h

/-- A reference at the start of a text is found, and all of it. -/
theorem IsReference.characterReference? {reference : List Char} (h : IsReference reference)
    (rest : List Char) : characterReference? (reference ++ rest) = some reference.length := by
  unfold InlineMarkdown.characterReference?
  cases h with
  | @decimal digits hdigits hleast hmost =>
    have hfound : referenceOf? ['&', '#'] Char.isDigit 1 7 ('&' :: '#' :: (digits ++ [';']) ++ rest) =
        some ('&' :: '#' :: (digits ++ [';'])).length :=
      (referenceOf?_eq_some_iff rfl).2
        ⟨digits, rest, by simp, hdigits, hleast, hmost, by simp; omega⟩
    rw [hfound]
    rfl
  | @hexadecimal mark digits hmark hdigits hleast hmost =>
    have hfound : referenceOf? ['&', '#', mark] isHexDigit 1 6
        ('&' :: '#' :: mark :: (digits ++ [';']) ++ rest) =
          some ('&' :: '#' :: mark :: (digits ++ [';'])).length :=
      (referenceOf?_eq_some_iff rfl).2
        ⟨digits, rest, by simp, hdigits, hleast, hmost, by simp; omega⟩
    have hnumber : mark.isDigit = false := by rcases hmark with rfl | rfl <;> rfl
    have hdecimal : referenceOf? ['&', '#'] Char.isDigit 1 7
        ('&' :: '#' :: mark :: (digits ++ [';']) ++ rest) = none :=
      referenceOf?_of_empty hnumber Nat.one_pos rfl
    rw [hdecimal]
    rcases hmark with rfl | rfl
    · rw [hfound]
      rfl
    · rw [hfound, referenceOf?_of_after? (by simp [after?])]
      rfl
  | @named first others hfirst hothers hleast hmost =>
    have hsign : '#' ≠ first := by
      rintro rfl
      cases hfirst
    have hname : ∀ c ∈ first :: others, c.isAlphanum = true :=
      List.forall_mem_cons.2 ⟨by simp [Char.isAlphanum, hfirst], hothers⟩
    have hfound : referenceOf? ['&'] Char.isAlphanum 2 32 ('&' :: first :: (others ++ [';']) ++ rest) =
        some ('&' :: first :: (others ++ [';'])).length :=
      (referenceOf?_eq_some_iff rfl).2 ⟨first :: others, rest, by simp, hname,
        Nat.succ_le_succ hleast, Nat.succ_le_succ hmost, by simp; omega⟩
    have hhead : (('&' :: first :: (others ++ [';']) ++ rest).drop 1).head?.any Char.isAlpha = true := by
      simpa using hfirst
    unfold namedReference?
    rw [if_pos hhead, hfound, referenceOf?_of_after? (by simp [after?, hsign]),
      referenceOf?_of_after? (by simp [after?, hsign]), referenceOf?_of_after? (by simp [after?, hsign])]
    rfl

/-- The scanner finds exactly the references that are written. -/
theorem characterReference?_eq_some_iff : characterReference? text = some n ↔
    ∃ reference rest, text = reference ++ rest ∧ IsReference reference ∧ n = reference.length := by
  refine ⟨exists_of_characterReference?, ?_⟩
  rintro ⟨reference, rest, rfl, h, rfl⟩
  exact h.characterReference? rest

end Scanning

/-- A text is a reference if the scanner finds one and nothing is left. -/
theorem isReference_iff {reference : List Char} :
    IsReference reference ↔ characterReference? reference = some reference.length := by
  constructor
  · intro h
    simpa using h.characterReference? []
  · intro h
    obtain ⟨whole, rest, hsplit, hwhole, hlength⟩ := characterReference?_eq_some_iff.1 h
    have hnone : rest = [] := by
      have hsum := congrArg List.length hsplit
      rw [List.length_append] at hsum
      exact List.eq_nil_of_length_eq_zero (by omega)
    rwa [hsplit, hnone, List.append_nil]

instance : DecidablePred IsReference := fun _ => decidable_of_iff _ isReference_iff.symm

/-- A text starts with one reference only. -/
theorem IsReference.unique {a b rest rest' : List Char} (ha : IsReference a) (hb : IsReference b)
    (h : a ++ rest = b ++ rest') : a = b ∧ rest = rest' := by
  have hfound := ha.characterReference? rest
  rw [h, hb.characterReference? rest'] at hfound
  exact List.append_inj h (Option.some.inj hfound).symm

/-! ### One pass over a text -/

/-- No reference that can be decoded stands at the start of the text. -/
def Undecodable (text : List Char) : Prop :=
  ∀ reference, IsReference reference → reference <+: text → decodeReference? reference = none

theorem undecodable_of_head? {text : List Char} (h : text.head? ≠ some '&') : Undecodable text := by
  rintro reference hreference ⟨rest, rfl⟩
  rw [List.head?_append, hreference.head?] at h
  exact absurd rfl h

/-- A text, read once from left to right: a reference that can be decoded says its character and
is passed as a whole, and any other character says itself. -/
inductive Decodes : List Char → List Char → Prop
  | nil : Decodes [] []
  | reference {reference rest decoded : List Char} {c : Char} : IsReference reference →
      decodeReference? reference = some c → Decodes rest decoded →
      Decodes (reference ++ rest) (c :: decoded)
  | copy {rest decoded : List Char} {c : Char} : Undecodable (c :: rest) → Decodes rest decoded →
      Decodes (c :: rest) (c :: decoded)

theorem decodeFirst?_eq_some_iff {text : List Char} {c : Char} {n : Nat} :
    decodeFirst? text = some (c, n) ↔
      ∃ reference rest, text = reference ++ rest ∧ IsReference reference ∧
        decodeReference? reference = some c ∧ n = reference.length := by
  constructor
  · intro h
    obtain ⟨length, hlength, h⟩ := Option.bind_eq_some_iff.1 h
    obtain ⟨decoded, hdecoded, h⟩ := Option.bind_eq_some_iff.1 h
    obtain ⟨rfl, rfl⟩ := Prod.mk.inj (Option.some.inj h)
    obtain ⟨reference, rest, rfl, hreference, rfl⟩ := characterReference?_eq_some_iff.1 hlength
    rw [List.take_left] at hdecoded
    exact ⟨reference, rest, rfl, hreference, hdecoded, rfl⟩
  · rintro ⟨reference, rest, rfl, hreference, hdecoded, rfl⟩
    simp [decodeFirst?, hreference.characterReference? rest, hdecoded]

theorem undecodable_of_decodeFirst? {text : List Char} (h : decodeFirst? text = none) :
    Undecodable text := by
  rintro reference hreference ⟨rest, rfl⟩
  cases hdecoded : decodeReference? reference with
  | none => rfl
  | some c =>
    rw [decodeFirst?_eq_some_iff.2 ⟨reference, rest, rfl, hreference, hdecoded, rfl⟩] at h
    cases h

namespace Decodes
variable {text rest decoded decoded' : List Char}

/-- What has no ampersand in it is copied. -/
theorem append_left {plain : List Char} (hplain : '&' ∉ plain) (h : Decodes rest decoded) :
    Decodes (plain ++ rest) (plain ++ decoded) := by
  induction plain with
  | nil => exact h
  | cons c plain ih =>
    have hc : c ≠ '&' := (List.ne_of_not_mem_cons hplain).symm
    exact .copy (undecodable_of_head? fun h => hc (Option.some.inj h))
      (ih (List.not_mem_of_not_mem_cons hplain))

/-- A text decodes to one text only. -/
theorem unique (h : Decodes text decoded) (h' : Decodes text decoded') : decoded = decoded' := by
  induction h generalizing decoded' with
  | nil =>
    generalize htext : ([] : List Char) = text at h'
    cases h' with
    | nil => rfl
    | reference hreference =>
      rw [(List.append_eq_nil_iff.1 htext.symm).1] at hreference
      cases hreference
    | copy => cases htext
  | @reference reference rest decoded c hreference hdecoded _ ih =>
    generalize htext : reference ++ rest = text at h'
    cases h' with
    | nil =>
      rw [(List.append_eq_nil_iff.1 htext).1] at hreference
      cases hreference
    | reference hreference' hdecoded' hrest =>
      obtain ⟨rfl, rfl⟩ := hreference.unique hreference' htext
      obtain rfl := Option.some.inj (hdecoded.symm.trans hdecoded')
      rw [ih hrest]
    | copy hnone _ =>
      rw [hnone reference hreference ⟨rest, htext⟩] at hdecoded
      cases hdecoded
  | @copy rest decoded c hnone _ ih =>
    generalize htext : c :: rest = text at h'
    cases h' with
    | nil => cases htext
    | reference hreference hdecoded _ =>
      rw [hnone _ hreference ⟨_, htext.symm⟩] at hdecoded
      cases hdecoded
    | copy _ hrest =>
      obtain ⟨rfl, rfl⟩ := List.cons.inj htext
      rw [ih hrest]

/-- A reference takes at least as many bytes as any character. -/
theorem byteLength_le (h : Decodes text decoded) : byteLength decoded ≤ byteLength text := by
  induction h with
  | nil => exact Nat.le_refl 0
  | @reference reference rest decoded c hreference _ _ ih =>
    have hbytes : c.utf8Size ≤ byteLength reference :=
      calc c.utf8Size ≤ 4 := c.utf8Size_le_four
        _ ≤ reference.length := hreference.four_le_length
        _ ≤ byteLength reference := length_le_byteLength reference
    rw [byteLength_cons, byteLength_append]
    exact Nat.add_le_add hbytes ih
  | copy _ _ ih => exact Nat.add_le_add_left ih _

end Decodes

/-- Going from ampersand to ampersand is one pass over the text. -/
theorem decodes_decodeFrom {limit : Nat} {text : List Char} (hlimit : text.length ≤ limit) :
    Decodes text (decodeFrom limit text) := by
  induction limit generalizing text with
  | zero =>
    obtain rfl := List.eq_nil_of_length_eq_zero (Nat.le_zero.1 hlimit)
    exact .nil
  | succ limit ih =>
    obtain ⟨plain, behind, rfl, hplain, hbehind⟩ : ∃ plain behind, text = plain ++ behind ∧
        '&' ∉ plain ∧ ∀ c ∈ behind.head?, c = '&' := by
      refine ⟨_, _, (List.takeWhile_append_dropWhile (p := (· != '&'))).symm, fun hmem => ?_, ?_⟩
      · simpa using List.mem_takeWhile_imp hmem
      · intro c hc
        simpa [Option.mem_def.1 hc] using List.head?_dropWhile_not (· != '&') text
    have htake : (plain ++ behind).takeWhile (· != '&') = plain :=
      takeWhile_exact (fun c hc => bne_iff_ne.2 (by rintro rfl; exact hplain hc))
        fun c hc => by simp [hbehind c hc]
    unfold decodeFrom
    simp only [htake, List.drop_left]
    rw [List.length_append] at hlimit
    cases behind with
    | nil => simpa using Decodes.append_left hplain .nil
    | cons c rest =>
      rw [List.length_cons] at hlimit
      cases hfound : decodeFirst? (c :: rest) with
      | none =>
        dsimp only
        rw [hfound]
        exact .append_left hplain (.copy (undecodable_of_decodeFirst? hfound) (ih (by omega)))
      | some found =>
        obtain ⟨decoded, length⟩ := found
        obtain ⟨reference, behind, hsplit, hreference, hdecoded, rfl⟩ :=
          decodeFirst?_eq_some_iff.1 hfound
        have hshort : behind.length ≤ limit := by
          have hsum := congrArg List.length hsplit
          have hlong := hreference.four_le_length
          simp only [List.length_cons, List.length_append] at hsum
          omega
        dsimp only
        rw [hfound]
        dsimp only
        rw [hsplit, List.drop_left]
        exact .append_left hplain (.reference hreference hdecoded (ih hshort))

/-- The text with a reference in place of every ampersand. -/
def escapeAmpersands (text : List Char) : List Char :=
  text.flatMap fun c => if c = '&' then "&amp;".toList else [c]

theorem decodes_escapeAmpersands (text : List Char) : Decodes (escapeAmpersands text) text := by
  induction text with
  | nil => exact .nil
  | cons c text ih =>
    unfold escapeAmpersands at ih ⊢
    rw [List.flatMap_cons]
    by_cases hc : c = '&'
    · subst hc
      have hamp : IsReference "&amp;".toList := by decide
      exact .reference hamp rfl ih
    · rw [if_neg hc]
      exact .copy (undecodable_of_head? fun h => hc (Option.some.inj h)) ih

theorem byteLength_decodeReferences_le (text : List Char) :
    byteLength (decodeReferences text) ≤ byteLength text :=
  (decodes_decodeFrom (Nat.le_refl _)).byteLength_le

/-- Decoding is one pass over the text, from left to right: what a reference says is not read
again. So what every ampersand was taken from comes back, and the text does not get longer. -/
theorem decodeReferences_decodes (text : List Char) :
    (∀ decoded, Decodes text decoded ↔ decodeReferences text = decoded) ∧
      decodeReferences (escapeAmpersands text) = text ∧
      byteLength (decodeReferences text) ≤ byteLength text := by
  have hdecodes (text : List Char) : Decodes text (decodeReferences text) :=
    decodes_decodeFrom (Nat.le_refl _)
  refine ⟨fun decoded => ⟨(hdecodes text).unique, ?_⟩, ?_, byteLength_decodeReferences_le text⟩
  · rintro rfl
    exact hdecodes text
  · exact (hdecodes (escapeAmpersands text)).unique (decodes_escapeAmpersands text)

/-! ### One reference -/

section Decoding
variable {reference text : List Char} {base n m : Nat} {c : Char}

theorem digits_of_readDigits? (h : readDigits? base n text = some m) :
    ∀ c ∈ text, ∃ digit, digitValue? c = some digit ∧ digit < base := by
  induction text generalizing n with
  | nil => exact nofun
  | cons c rest ih =>
    obtain ⟨digit, hdigit, h⟩ := Option.bind_eq_some_iff.1 h
    dsimp only at h
    split at h
    · rename_i hless
      simp only [Bool.and_eq_true, decide_eq_true_eq] at hless
      exact List.forall_mem_cons.2 ⟨⟨digit, hdigit, hless.1⟩, ih h⟩
    · cases h

/-- A number without a sign is one digit or more. -/
theorem digits_of_readNumber? (h : readNumber? base text = some n) (hsign : '+' ∉ text) :
    1 ≤ text.length ∧ ∀ c ∈ text, ∃ digit, digitValue? c = some digit ∧ digit < base := by
  have hunsigned : (after? ['+'] text).getD text = text := by
    cases hafter : after? ['+'] text with
    | none => rfl
    | some rest =>
      rw [after?_eq_some hafter] at hsign
      exact absurd List.mem_cons_self hsign
  unfold readNumber? at h
  rw [hunsigned] at h
  dsimp only at h
  split at h
  · cases h
  · rename_i hne
    exact ⟨List.length_pos_iff.2 (by simpa using hne), digits_of_readDigits? h⟩

theorem isDigit_of_digitValue? {digit : Nat} (h : digitValue? c = some digit) (hless : digit < 10) :
    c.isDigit = true := by
  unfold digitValue? at h
  split at h
  · assumption
  · split at h
    · cases h
      omega
    · split at h <;> cases h
      omega

theorem isHexDigit_of_digitValue? {digit : Nat} (h : digitValue? c = some digit) :
    isHexDigit c = true := by
  unfold digitValue? at h
  unfold isHexDigit
  split at h
  · simp [*]
  · split at h
    · simp [*]
    · split at h
      · simp [*]
      · cases h

/-- What can be decoded is a number to base 16 or 10, or a known name. -/
theorem decodeReference?_cases (h : decodeReference? reference = some c) :
    (∃ mark digits n, (mark = 'x' ∨ mark = 'X') ∧
        reference = '&' :: '#' :: mark :: (digits ++ [';']) ∧ readNumber? 16 digits = some n) ∨
      (∃ digits n, reference = '&' :: '#' :: (digits ++ [';']) ∧ readNumber? 10 digits = some n) ∨
      ∃ entry ∈ namedCharacters, reference = '&' :: (entry.1.toList ++ [';']) := by
  obtain ⟨body, hbody, h⟩ := Option.bind_eq_some_iff.1 h
  rw [between?_eq_some hbody]
  dsimp only at h
  split at h
  · obtain ⟨n, hn, -⟩ := Option.bind_eq_some_iff.1 h
    exact .inl ⟨'x', _, n, .inl rfl, rfl, hn⟩
  · obtain ⟨n, hn, -⟩ := Option.bind_eq_some_iff.1 h
    exact .inl ⟨'X', _, n, .inr rfl, rfl, hn⟩
  · obtain ⟨n, hn, -⟩ := Option.bind_eq_some_iff.1 h
    exact .inr (.inl ⟨_, n, rfl, hn⟩)
  · obtain ⟨entry, hentry, hname⟩ := List.exists_of_findSome?_eq_some h
    refine .inr (.inr ⟨entry, hentry, ?_⟩)
    split at hname
    · rename_i hsame
      rw [hsame]
    · cases hname

/-- A known name makes a reference of few characters. -/
theorem isReference_of_named {entry : String × Char} (h : entry ∈ namedCharacters) :
    IsReference ('&' :: (entry.1.toList ++ [';'])) ∧ entry.1.toList.length ≤ 6 := by
  have hall : ∀ entry ∈ namedCharacters,
      IsReference ('&' :: (entry.1.toList ++ [';'])) ∧ entry.1.toList.length ≤ 6 := by decide
  exact hall entry h

/-- There is no sign in a reference. -/
theorem IsReference.plus_not_mem (h : IsReference reference) : '+' ∉ reference := by
  have hbody {p : Char → Bool} {body : List Char} (hp : p '+' = false) (h : ∀ c ∈ body, p c = true) :
      '+' ∉ body := fun hmem => absurd (h _ hmem) (ne_true_of_eq_false hp)
  cases h with
  | decimal hdigits =>
    simpa using hbody rfl hdigits
  | hexadecimal hmark hdigits =>
    have hdigits := hbody rfl hdigits
    rcases hmark with rfl | rfl <;> simpa using hdigits
  | @named first _ hfirst hothers =>
    have hothers := hbody rfl hothers
    have hne : '+' ≠ first := by
      rintro rfl
      cases hfirst
    simpa [hne] using hothers

/-- What the decoder reads is a reference in the written form exactly if no number in it has a
sign and it has at most ten characters, so that the digits are not too many. Then the scanner
finds the whole of it. -/
theorem isReference_iff_of_decoded (h : decodeReference? reference = some c) :
    (IsReference reference ↔ '+' ∉ reference ∧ reference.length ≤ 10) ∧
      (IsReference reference ↔ characterReference? reference = some reference.length) := by
  refine ⟨⟨fun hreference => ⟨hreference.plus_not_mem, ?_⟩, ?_⟩, isReference_iff⟩
  · cases hreference with
    | decimal _ _ hmost | hexadecimal _ _ _ hmost =>
      simp
      omega
    | @named first _ hfirst =>
      have hsign : first ≠ '#' := by
        rintro rfl
        cases hfirst
      rcases decodeReference?_cases h with ⟨_, _, _, _, hsame, _⟩ | ⟨_, _, hsame, _⟩ |
        ⟨entry, hentry, hsame⟩
      · exact absurd (List.cons.inj (List.cons.inj hsame).2).1 hsign
      · exact absurd (List.cons.inj (List.cons.inj hsame).2).1 hsign
      · rw [hsame]
        have hshort := (isReference_of_named hentry).2
        simp
        omega
  · rintro ⟨hsign, hlength⟩
    rcases decodeReference?_cases h with ⟨mark, digits, n, hmark, rfl, hn⟩ | ⟨digits, n, rfl, hn⟩ |
      ⟨entry, hentry, rfl⟩
    · obtain ⟨hleast, hdigits⟩ := digits_of_readNumber? hn fun hmem => hsign (by simp [hmem])
      refine .hexadecimal hmark (fun c hc => ?_) hleast (by simp at hlength; omega)
      obtain ⟨digit, hdigit, -⟩ := hdigits c hc
      exact isHexDigit_of_digitValue? hdigit
    · obtain ⟨hleast, hdigits⟩ := digits_of_readNumber? hn fun hmem => hsign (by simp [hmem])
      refine .decimal (fun c hc => ?_) hleast (by simp at hlength; omega)
      obtain ⟨digit, hdigit, hless⟩ := hdigits c hc
      exact isDigit_of_digitValue? hdigit hless
    · exact (isReference_of_named hentry).1

/-- A number with all the digits that a reference has room for. -/
theorem isReference_copyright :
    decodeReference? "&#x00A9;".toList = some '©' ∧ IsReference "&#x00A9;".toList := by
  have hdecoded : decodeReference? "&#x00A9;".toList = some '©' := by decide
  exact ⟨hdecoded, (isReference_iff_of_decoded hdecoded).1.2 ⟨by decide, by decide⟩⟩

/-- The decoder takes a sign and any number of zeros in front of a number; a reference has neither. -/
theorem decoded_of_not_isReference :
    (decodeReference? "&#+65;".toList = some 'A' ∧ ¬ IsReference "&#+65;".toList) ∧
      decodeReference? "&#00000065;".toList = some 'A' ∧ ¬ IsReference "&#00000065;".toList := by
  decide

end Decoding
end InlineMarkdown
