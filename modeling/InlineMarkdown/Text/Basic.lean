/-! Cutting texts: what stands behind an opening, up to a closing, between
separators. -/
namespace InlineMarkdown

/-- What follows `opening`, if the text starts with it. -/
def after? : (opening text : List Char) → Option (List Char)
  | [], text => some text
  | _ :: _, [] => none
  | a :: opening, b :: text => if a = b then after? opening text else none

/-- The number of characters up to the end of the first `closing` in the text. -/
def through? (closing : List Char) : List Char → Option Nat
  | [] => none
  | c :: rest =>
    if (after? closing (c :: rest)).isSome then some closing.length
    else (through? closing rest).map (· + 1)

/-- The pieces between the characters that satisfy `p`. -/
def splitWhere (p : Char → Bool) : List Char → List (List Char)
  | [] => [[]]
  | c :: rest =>
    if p c then [] :: splitWhere p rest
    else match splitWhere p rest with
      | [] => [[c]]
      | piece :: pieces => (c :: piece) :: pieces

/-- What follows `opening` up to `closing`, if the text starts with the one and
ends with the other and they do not overlap. -/
def between? (opening closing : Char) (text : List Char) : Option (List Char) :=
  match text with
  | c :: inner => if c = opening && inner.getLast? == some closing then some inner.dropLast else none
  | [] => none

/-- The text less its first `bytes` bytes; none if that would cut a character or the
text is shorter. -/
def dropBytes? : Nat → List Char → Option (List Char)
  | 0, text => some text
  | _ + 1, [] => none
  | bytes + 1, c :: rest =>
    if c.utf8Size ≤ bytes + 1 then dropBytes? (bytes + 1 - c.utf8Size) rest else none

theorem after?_eq_some {opening text rest : List Char} (h : after? opening text = some rest) :
    text = opening ++ rest := by
  induction opening generalizing text with
  | nil => simpa [after?] using h
  | cons a opening ih =>
    cases text with
    | nil => simp [after?] at h
    | cons b text =>
      simp only [after?] at h
      split at h
      · rename_i hab; simp [hab, ih h]
      · simp at h

theorem after?_append (opening rest : List Char) : after? opening (opening ++ rest) = some rest := by
  induction opening with
  | nil => rfl
  | cons a opening ih => simpa [after?] using ih

theorem between?_eq_some {opening closing : Char} {text inner : List Char}
    (h : between? opening closing text = some inner) : text = opening :: (inner ++ [closing]) := by
  cases text with
  | nil => exact nomatch h
  | cons c rest =>
    unfold between? at h
    dsimp only at h
    split at h
    · rename_i hends
      simp only [Bool.and_eq_true, decide_eq_true_eq, beq_iff_eq] at hends
      obtain ⟨inner, rfl⟩ := List.getLast?_eq_some_iff.1 hends.2
      rw [List.dropLast_concat] at h
      rw [hends.1, Option.some.inj h]
    · cases h

theorem between?_eq_none_iff {opening closing : Char} {text : List Char} :
    between? opening closing text = none ↔ ∀ inner, text ≠ opening :: (inner ++ [closing]) := by
  constructor
  · rintro h inner rfl
    simp [between?] at h
  · intro h
    cases hbetween : between? opening closing text with
    | none => rfl
    | some inner => exact absurd (between?_eq_some hbetween) (h inner)

theorem between?_sublist {opening closing : Char} {text inner : List Char}
    (h : between? opening closing text = some inner) : inner.Sublist text := by
  rw [between?_eq_some h]
  exact (List.sublist_append_left inner [closing]).cons opening

theorem dropBytes?_suffix {bytes : Nat} {text rest : List Char}
    (h : dropBytes? bytes text = some rest) : rest <:+ text := by
  fun_induction dropBytes? bytes text with
  | case1 => exact Option.some.inj h ▸ List.suffix_rfl
  | case2 => cases h
  | case3 bytes c tail _ ih => exact (ih h).trans (List.suffix_cons c tail)
  | case4 => cases h

end InlineMarkdown
