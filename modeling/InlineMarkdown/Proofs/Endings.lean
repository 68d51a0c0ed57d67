import InlineMarkdown.Proofs.LineEnds
import InlineMarkdown.Proofs.Scan
import Mathlib.Data.List.DropRight

/-! How the pieces of a source end.

Every construct that a scanner recognises ends with the character that closes it (`ClosedBy`),
apart from comments that are never closed and bare addresses; the latter end with a character of
theirs (`isBareAddress_of_url?`). -/
namespace InlineMarkdown

variable {text rest behind : List Char} {length : Nat}

/-- Whatever the scanner finds ends with this character. -/
def ClosedBy (c : Char) (scanner : List Char → Option Nat) : Prop :=
  ∀ text length, scanner text = some length → (text.take length).getLast? = some c

theorem ClosedBy.orElse {c : Char} {first second : List Char → Option Nat} (h : ClosedBy c first)
    (h' : ClosedBy c second) : ClosedBy c fun text => first text <|> second text :=
  fun text length hfound => (orElse_eq_some hfound).elim (h text length) (h' text length)

/-! ### Suffixes -/

theorem after?_suffix {opening : List Char} (h : after? opening text = some rest) : rest <:+ text :=
  ⟨opening, (after?_eq_some h).symm⟩

/-- What ends in front of `behind`, and behind `c`, ends with `c`. -/
theorem getLast?_take_of_suffix (front : List Char) {c : Char} {part : List Char}
    (hpart : part <:+ text)
    (h : after? (front ++ [c]) part = some behind) (hlength : length + behind.length = text.length) :
    (text.take length).getLast? = some c := by
  obtain ⟨before, rfl⟩ := hpart
  rw [after?_eq_some h] at hlength ⊢
  have htake : length = (before ++ front ++ [c]).length := by simp at hlength ⊢; omega
  rw [htake, ← List.append_assoc, ← List.append_assoc, List.take_left, List.getLast?_concat]

/-! ### Code spans and formulas -/

/-- A run takes all the copies that the text starts with. -/
theorem runLength_spec (c : Char) (text : List Char) :
    text.take (runLength c text) = List.replicate (runLength c text) c ∧
      (text.drop (runLength c text)).head? ≠ some c := by
  have hrun : text.takeWhile (· == c) = List.replicate (runLength c text) c :=
    List.eq_replicate_of_mem fun d hd => by simpa using List.mem_takeWhile_imp hd
  have hsplit : text = List.replicate (runLength c text) c ++ text.dropWhile (· == c) := by
    rw [← hrun, List.takeWhile_append_dropWhile]
  constructor
  · exact (congrArg (List.take _) hsplit).trans (List.take_left' List.length_replicate)
  · rw [(congrArg (List.drop _) hsplit).trans (List.drop_left' List.length_replicate)]
    intro hhead
    have hstops := List.head?_dropWhile_not (· == c) text
    rw [hhead] at hstops
    simp at hstops

/-- What is read up to the end of the closing run ends with that run; `run` backticks of it may
stand in front. -/
theorem fenceEnd?_spec {fence run : Nat} (h : fenceEnd? fence run text = some length) :
    ∃ inner, List.replicate run backtick ++ text.take length =
      inner ++ List.replicate fence backtick := by
  induction text generalizing run length with
  | nil =>
    unfold fenceEnd? at h
    obtain ⟨rfl, -⟩ := Option.ite_none_right_eq_some.1 h
    exact ⟨[], by simp⟩
  | cons c rest ih =>
    unfold fenceEnd? at h
    split at h
    · rename_i hc
      obtain ⟨n, hn, rfl⟩ := Option.map_eq_some_iff.1 h
      subst hc
      obtain ⟨inner, hinner⟩ := ih hn
      rw [List.replicate_succ', List.append_assoc, List.singleton_append,
        ← List.take_succ_cons] at hinner
      exact ⟨inner, hinner⟩
    split at h
    · rename_i hrun
      obtain rfl := Option.some.inj h
      exact ⟨[], by rw [List.take_zero, List.append_nil, hrun, List.nil_append]⟩
    split at h
    · cases h
    · obtain ⟨n, hn, rfl⟩ := Option.map_eq_some_iff.1 h
      obtain ⟨inner, hinner⟩ := ih hn
      rw [List.replicate_zero, List.nil_append] at hinner
      exact ⟨List.replicate run backtick ++ c :: inner, by
        rw [List.take_succ_cons, hinner, List.append_assoc, List.cons_append]⟩

/-- A code span is a run of backticks, something that does not start with one, and such a run
again. -/
theorem codeSpan?_spec (h : codeSpan? text = some length) : ∃ n inner, 0 < n ∧ inner ≠ [] ∧
    inner.head? ≠ some backtick ∧
      text.take length = List.replicate n backtick ++ inner ++ List.replicate n backtick := by
  unfold codeSpan? at h
  dsimp only at h
  split at h
  · cases h
  rename_i hfence
  obtain ⟨n, hn, rfl⟩ := Option.map_eq_some_iff.1 h
  obtain ⟨hopening, hstops⟩ := runLength_spec backtick text
  obtain ⟨inner, hinner⟩ := fenceEnd?_spec hn
  rw [List.replicate_zero, List.nil_append] at hinner
  have hpos := Nat.pos_of_ne_zero hfence
  generalize runLength backtick text = fence at *
  have hhead : ∀ c, (inner ++ List.replicate fence backtick).head? = some c → c ≠ backtick := by
    rintro c hc rfl
    rw [← hinner, List.head?_take] at hc
    split at hc
    · cases hc
    · exact hstops hc
  have hne : inner ≠ [] := by
    rintro rfl
    obtain ⟨fence, rfl⟩ := Nat.exists_eq_succ_of_ne_zero hfence
    exact hhead backtick rfl rfl
  refine ⟨fence, inner, hpos, hne, fun hc => ?_, ?_⟩
  · exact hhead backtick (by rw [List.head?_append, hc]; rfl) rfl
  · rw [List.take_add, hopening, hinner, List.append_assoc]

/-- What stands between an opening and a closing. -/
theorem after?_between {opening body closing : List Char} (hopening : after? opening text = some rest)
    (hbody : body <+: rest) (hclosing : after? closing (rest.drop body.length) = some behind) :
    after? (opening ++ body ++ closing) text = some behind := by
  obtain ⟨tail, rfl⟩ := hbody
  rw [List.drop_left] at hclosing
  rw [after?_eq_some hopening, after?_eq_some hclosing, ← List.append_assoc, ← List.append_assoc]
  exact after?_append _ _

theorem take_of_after? {opening : List Char} (h : after? opening text = some rest)
    (hlength : length = opening.length) : text.take length = opening := by
  rw [after?_eq_some h, hlength, List.take_left]

theorem mem_formulaBody {c : Char} (h : c ∈ formulaBody text) : c ≠ '$' ∧ c ≠ '\n' := by
  simpa using List.mem_takeWhile_imp h

/-- A formula is two dollar signs or one, something on one line without dollar signs, and the same
again. -/
theorem formula?_spec (h : formula? text = some length) : ∃ n body, 0 < n ∧ body ≠ [] ∧
    (∀ c ∈ body, c ≠ '$' ∧ c ≠ '\n') ∧
      text.take length = List.replicate n '$' ++ body ++ List.replicate n '$' := by
  rcases orElse_eq_some h with h | h
  · unfold displayFormula? at h
    obtain ⟨rest, hrest, h⟩ := Option.bind_eq_some_iff.1 h
    dsimp only at h
    split at h
    · cases h
    rename_i hbody
    obtain ⟨behind, hbehind, h⟩ := Option.bind_eq_some_iff.1 h
    obtain rfl := Option.some.inj h
    refine ⟨2, formulaBody rest, Nat.two_pos, mt List.isEmpty_iff.2 hbody, fun c => mem_formulaBody, ?_⟩
    exact take_of_after? (after?_between hrest (List.takeWhile_prefix _) hbehind) (by simp)
  · unfold inlineFormula? at h
    obtain ⟨rest, hrest, h⟩ := Option.bind_eq_some_iff.1 h
    obtain ⟨first, hfirst, h⟩ := Option.bind_eq_some_iff.1 h
    obtain ⟨last, -, h⟩ := Option.bind_eq_some_iff.1 h
    split at h
    · cases h
    obtain ⟨behind, hbehind, h⟩ := Option.bind_eq_some_iff.1 h
    obtain rfl := Option.some.inj h
    refine ⟨1, formulaBody rest, Nat.one_pos, List.ne_nil_of_mem (List.mem_of_head? hfirst),
      fun c => mem_formulaBody, ?_⟩
    exact take_of_after? (after?_between hrest (List.takeWhile_prefix _) hbehind) (by simp)

/-- What is between two runs of a character ends with it. -/
theorem getLast?_fenced {c : Char} {n : Nat} (hn : 0 < n) (front : List Char) :
    (front ++ List.replicate n c).getLast? = some c := by
  rw [List.getLast?_append, List.getLast?_replicate, if_neg (Nat.ne_of_gt hn)]
  rfl

theorem codeSpan?_closedBy : ClosedBy backtick codeSpan? := by
  intro text length h
  obtain ⟨n, inner, hn, -, -, htake⟩ := codeSpan?_spec h
  rw [htake, getLast?_fenced hn]

theorem formula?_closedBy : ClosedBy '$' formula? := by
  intro text length h
  obtain ⟨n, body, hn, -, -, htake⟩ := formula?_spec h
  rw [htake, getLast?_fenced hn]

/-! ### Addresses and references -/

/-- An address in angle brackets, with a scheme or with a mailbox. -/
inductive IsAngleAddress : List Char → Prop
  | scheme {scheme path : List Char} : (∀ c ∈ scheme, isSchemeChar c = true) →
      (∀ c ∈ path, isSpace c = false ∧ c ≠ '<' ∧ c ≠ '>') →
      IsAngleAddress (['<'] ++ scheme ++ [':'] ++ path ++ ['>'])
  | mail {mailbox host : List Char} : (∀ c ∈ mailbox, isMailboxChar c = true) →
      (∀ c ∈ host, c.isAlphanum = true ∨ c = '-' ∨ c = '.') →
      IsAngleAddress (['<'] ++ mailbox ++ ['@'] ++ host ++ ['>'])

/-- What is found of an address in angle brackets is one. -/
theorem isAngleAddress_of_autolink? (h : autolink? text = some length) :
    IsAngleAddress (text.take length) := by
  rcases orElse_eq_some h with h | h
  · unfold schemeAutolink? at h
    obtain ⟨rest, hrest, h⟩ := Option.bind_eq_some_iff.1 h
    dsimp only at h
    split at h
    · cases h
    obtain ⟨target, htarget, h⟩ := Option.bind_eq_some_iff.1 h
    obtain ⟨behind, hbehind, h⟩ := Option.bind_eq_some_iff.1 h
    obtain rfl := Option.some.inj h
    have hscheme := after?_between hrest (List.takeWhile_prefix isSchemeChar) htarget
    have hall := after?_between hscheme (List.takeWhile_prefix _) hbehind
    rw [take_of_after? hall (by simp; omega)]
    exact .scheme (fun c hc => List.mem_takeWhile_imp hc) fun c hc => by
      simpa [and_assoc] using List.mem_takeWhile_imp hc
  · unfold mailAutolink? at h
    obtain ⟨rest, hrest, h⟩ := Option.bind_eq_some_iff.1 h
    dsimp only at h
    split at h
    · cases h
    obtain ⟨target, htarget, h⟩ := Option.bind_eq_some_iff.1 h
    split at h
    · cases h
    obtain ⟨behind, hbehind, h⟩ := Option.bind_eq_some_iff.1 h
    obtain rfl := Option.some.inj h
    have hmailbox := after?_between hrest (List.takeWhile_prefix isMailboxChar) htarget
    have hall := after?_between hmailbox (List.takeWhile_prefix _) hbehind
    rw [take_of_after? hall (by simp; omega)]
    exact .mail (fun c hc => List.mem_takeWhile_imp hc) fun c hc => by
      simpa [or_assoc] using List.mem_takeWhile_imp hc

theorem autolink?_closedBy : ClosedBy '>' autolink? := by
  intro text length h
  have haddress := isAngleAddress_of_autolink? h
  generalize text.take length = address at haddress
  cases haddress <;> exact List.getLast?_concat

theorem referenceOf?_closedBy (opening : List Char) (p : Char → Bool) (least most : Nat) :
    ClosedBy ';' (referenceOf? opening p least most) := by
  intro text length h
  unfold referenceOf? at h
  obtain ⟨rest, hrest, h⟩ := Option.bind_eq_some_iff.1 h
  dsimp only at h
  split at h
  · cases h
  · obtain ⟨behind, hbehind, h⟩ := Option.bind_eq_some_iff.1 h
    obtain rfl := Option.some.inj h
    have hopening := length_after? hrest
    have hclosing := length_after? hbehind
    rw [List.length_drop] at hclosing
    simp only [List.length_cons, List.length_nil] at hclosing
    exact getLast?_take_of_suffix []
      ((List.drop_suffix _ _).trans (after?_suffix hrest)) hbehind (by omega)

theorem characterReference?_closedBy : ClosedBy ';' characterReference? := by
  refine (referenceOf?_closedBy _ _ _ _).orElse ((referenceOf?_closedBy _ _ _ _).orElse
    ((referenceOf?_closedBy _ _ _ _).orElse fun text length h => ?_))
  unfold namedReference? at h
  split at h
  · exact referenceOf?_closedBy _ _ _ _ text length h
  · cases h

/-! ### HTML -/

theorem getLast?_through? (front : List Char) {c : Char}
    (h : through? (front ++ [c]) text = some length) : (text.take length).getLast? = some c := by
  induction text generalizing length with
  | nil => cases h
  | cons d rest ih =>
    unfold through? at h
    split at h
    · rename_i hfound
      obtain rfl := Option.some.inj h
      obtain ⟨behind, hbehind⟩ := Option.isSome_iff_exists.1 hfound
      rw [after?_eq_some hbehind, List.take_left, List.getLast?_concat]
    · obtain ⟨n, hn, rfl⟩ := Option.map_eq_some_iff.1 h
      rw [List.take_succ_cons, List.getLast?_cons, ih hn]
      rfl

theorem getLast?_take_opening {opening : List Char} {n : Nat} {c : Char}
    (h : after? opening text = some rest) (hlast : (rest.take n).getLast? = some c) :
    (text.take (opening.length + n)).getLast? = some c := by
  rw [after?_eq_some h, List.take_length_add_append, List.getLast?_append, hlast]
  rfl

theorem enclosed?_closedBy (opening front : List Char) (c : Char) :
    ClosedBy c (enclosed? opening (front ++ [c])) := by
  intro text length h
  unfold enclosed? at h
  obtain ⟨rest, hrest, h⟩ := Option.bind_eq_some_iff.1 h
  obtain ⟨n, hn, h⟩ := Option.bind_eq_some_iff.1 h
  obtain rfl := Option.some.inj h
  exact getLast?_take_opening hrest (getLast?_through? front hn)

theorem htmlDeclaration?_closedBy : ClosedBy '>' htmlDeclaration? := by
  intro text length h
  unfold htmlDeclaration? at h
  obtain ⟨rest, hrest, h⟩ := Option.bind_eq_some_iff.1 h
  split at h
  · obtain ⟨n, hn, h⟩ := Option.bind_eq_some_iff.1 h
    obtain rfl := Option.some.inj h
    rw [Nat.add_comm]
    exact getLast?_take_opening hrest (getLast?_through? [] hn)
  · cases h

theorem htmlBlock?_closedBy : ClosedBy '>' htmlBlock? :=
  (enclosed?_closedBy _ ['-', '-'] '>').orElse ((enclosed?_closedBy _ [']', ']'] '>').orElse
    ((enclosed?_closedBy _ ['?'] '>').orElse htmlDeclaration?_closedBy))

theorem afterTagName?_suffix (h : afterTagName? text = some rest) : rest <:+ text := by
  unfold afterTagName? at h
  obtain ⟨-, h⟩ := Option.ite_none_right_eq_some.1 h
  exact Option.some.inj h ▸ List.dropWhile_suffix _

theorem afterValue?_suffix (h : afterValue? text = some rest) : rest <:+ text := by
  unfold afterValue? at h
  split at h
  · cases h
  · rename_i c tail
    split at h
    · exact (after?_suffix h).trans ((List.dropWhile_suffix _).trans (List.suffix_cons c tail))
    · obtain ⟨-, h⟩ := Option.ite_none_right_eq_some.1 h
      obtain rfl := Option.some.inj h
      exact (List.dropWhile_suffix _).trans (List.suffix_cons c tail)

theorem afterAttribute?_suffix (h : afterAttribute? text = some rest) : rest <:+ text := by
  unfold afterAttribute? at h
  obtain ⟨-, h⟩ := Option.ite_none_right_eq_some.1 h
  split at h
  · cases h
  · rename_i c tail htail
    obtain ⟨-, h⟩ := Option.ite_none_right_eq_some.1 h
    obtain rfl := Option.some.inj h
    have hname : tail.dropWhile isAttributeChar <:+ text :=
      (List.dropWhile_suffix _).trans
        ((List.suffix_cons c tail).trans (htail ▸ List.dropWhile_suffix _))
    refine List.IsSuffix.trans ?_ hname
    generalize tail.dropWhile isAttributeChar = behind
    rcases hvalued : (do
      let value ← after? ['='] (behind.dropWhile isSpace)
      afterValue? (value.dropWhile isSpace)) with _ | valued
    · simp only [hvalued, Option.getD_none, List.suffix_rfl]
    · simp only [hvalued, Option.getD_some]
      obtain ⟨value, hvalue, hafter⟩ := Option.bind_eq_some_iff.1 hvalued
      exact (afterValue?_suffix hafter).trans ((List.dropWhile_suffix _).trans
        ((after?_suffix hvalue).trans (List.dropWhile_suffix _)))

theorem afterAttributes_suffix (limit : Nat) (text : List Char) :
    afterAttributes limit text <:+ text := by
  induction limit generalizing text with
  | zero => exact List.suffix_rfl
  | succ limit ih =>
    unfold afterAttributes
    split
    · rename_i rest hrest
      exact (ih rest).trans (afterAttribute?_suffix hrest)
    · exact List.suffix_rfl

/-- The closing of a tag is the angle bracket, in front of which there may be a slash. -/
theorem exists_closing_of_tag (h : (afterOpenTag? text <|> afterCloseTag? text) = some rest) :
    ∃ front part, part <:+ text ∧ after? (front ++ ['>']) part = some rest := by
  rcases orElse_eq_some h with h | h
  · unfold afterOpenTag? at h
    obtain ⟨named, hnamed, h⟩ := Option.bind_eq_some_iff.1 h
    obtain ⟨attributes, hattributes, h⟩ := Option.bind_eq_some_iff.1 h
    have hsuffix := (List.dropWhile_suffix isSpace).trans
      ((afterAttributes_suffix attributes.length attributes).trans
        ((afterTagName?_suffix hattributes).trans (after?_suffix hnamed)))
    rcases orElse_eq_some h with h | h
    · exact ⟨['/'], _, hsuffix, h⟩
    · exact ⟨[], _, hsuffix, h⟩
  · unfold afterCloseTag? at h
    obtain ⟨named, hnamed, h⟩ := Option.bind_eq_some_iff.1 h
    obtain ⟨behind, hbehind, h⟩ := Option.bind_eq_some_iff.1 h
    exact ⟨[], _, (List.dropWhile_suffix _).trans
      ((afterTagName?_suffix hbehind).trans (after?_suffix hnamed)), h⟩

theorem htmlTag?_closedBy : ClosedBy '>' htmlTag? := by
  intro text length h
  unfold htmlTag? at h
  obtain ⟨rest, hrest, h⟩ := Option.bind_eq_some_iff.1 h
  obtain rfl := Option.some.inj h
  obtain ⟨front, part, hpart, hclosing⟩ := exists_closing_of_tag hrest
  have hle := ((after?_suffix hclosing).trans hpart).length_le
  exact getLast?_take_of_suffix front hpart hclosing (by omega)

/-! ### Bare addresses -/

/-- A bare address: one of the openings, then characters of addresses, the last of which is no
punctuation of the text around it. -/
inductive IsBareAddress : List Char → Prop
  | intro {opening body : List Char} {last : Char} : opening ∈ urlOpenings →
      (∀ c ∈ body, isUrlChar c = true) → isUrlChar last = true → isUrlTail last = false →
      IsBareAddress (opening ++ body ++ [last])

/-- What is found of a bare address is one. -/
theorem isBareAddress_of_url? (h : url? text = some length) : IsBareAddress (text.take length) := by
  unfold url? at h
  obtain ⟨opening, hopening, h⟩ := List.exists_of_findSome?_eq_some h
  obtain ⟨rest, hrest, h⟩ := Option.bind_eq_some_iff.1 h
  dsimp only at h
  split at h
  · cases h
  rename_i hbody
  obtain rfl := Option.some.inj h
  have hne : urlBody rest ≠ [] := mt List.isEmpty_iff.2 hbody
  have hbegins : urlBody rest <+: rest.takeWhile isUrlChar := List.rdropWhile_prefix _ _
  have hends : ¬ isUrlTail ((urlBody rest).getLast hne) = true := List.rdropWhile_last_not _ _ hne
  have hall : ∀ c ∈ urlBody rest, isUrlChar c = true := fun c hc =>
    List.mem_takeWhile_imp (hbegins.subset hc)
  have hrun := List.prefix_iff_eq_take.1 (hbegins.trans (List.takeWhile_prefix _))
  obtain ⟨body, last, hsplit⟩ := (List.eq_nil_or_concat' (urlBody rest)).resolve_left hne
  simp only [hsplit, List.getLast_append_singleton] at hends
  have htake : text.take (opening.length + (urlBody rest).length) = opening ++ body ++ [last] := by
    rw [after?_eq_some hrest, List.take_length_add_append, ← hrun, hsplit, List.append_assoc]
  rw [hsplit] at hall
  rw [htake]
  refine ⟨hopening, fun c hc => ?_, ?_, eq_false_of_ne_true hends⟩
  · exact hall c (List.mem_append_left _ hc)
  · exact hall last (List.mem_append_right _ (List.mem_singleton_self last))

/-- A bare address is found where one starts, and nowhere else. -/
theorem isSome_url?_iff (text : List Char) :
    (url? text).isSome = true ↔ ∃ address, address <+: text ∧ IsBareAddress address := by
  constructor
  · intro h
    obtain ⟨length, hlength⟩ := Option.isSome_iff_exists.1 h
    exact ⟨_, List.take_prefix length text, isBareAddress_of_url? hlength⟩
  rintro ⟨_, ⟨rest, rfl⟩, ⟨hopening, hbody, hlast, hends⟩⟩
  rename_i opening body last
  rw [url?, List.findSome?_isSome_iff]
  refine ⟨opening, hopening, ?_⟩
  have hsplit : opening ++ body ++ [last] ++ rest = opening ++ (body ++ last :: rest) := by simp
  have hmem : last ∈ (body ++ last :: rest).takeWhile isUrlChar := by
    rw [List.takeWhile_append_of_pos hbody, List.takeWhile_cons_of_pos hlast]
    exact List.mem_append_right _ List.mem_cons_self
  have hne : ¬ (urlBody (body ++ last :: rest)).isEmpty = true := by
    rw [List.isEmpty_iff]
    intro hnil
    have htail := List.rdropWhile_eq_nil_iff.1 hnil last hmem
    exact absurd (htail.symm.trans hends) nofun
  rw [hsplit, after?_append]
  dsimp only [Option.bind_eq_bind, Option.bind_some]
  rw [if_neg hne]
  rfl

/-! ### Runs of ordinary text -/

theorem startsCrlf_iff {text : List Char} :
    startsCrlf text = true ↔ ['\r', '\n'] <+: text := by
  constructor
  · intro h
    obtain ⟨rest, hrest⟩ := Option.isSome_iff_exists.1 h
    exact ⟨rest, (after?_eq_some hrest).symm⟩
  · rintro ⟨rest, rfl⟩
    rfl

/-- Behind the character `last`, a run of ordinary text ends in front of this text. -/
def endsRun (last : Option Char) (text : List Char) : Bool :=
  text.head?.any isSpecial || startsCrlf text || (urlBehind? last text).isSome

theorem endsRun_eq_false {last : Option Char} {text : List Char} :
    endsRun last text = false ↔ (∀ c ∈ text.head?, isSpecial c = false) ∧
      startsCrlf text = false ∧ urlBehind? last text = none := by
  simp [endsRun, and_assoc, Option.any_eq_false]

/-- The run of ordinary text between the character `last` and `tail`: it could end nowhere before,
and it ends there. -/
structure IsRun (last : Option Char) (run tail : List Char) : Prop where
  ne_nil : run ≠ []
  inside {front behind : List Char} : run = front ++ behind → behind ≠ [] →
    endsRun (front.getLast?.or last) (behind ++ tail) = false
  ends : tail ≠ [] → endsRun run.getLast? tail = true

theorem IsRun.single {last : Option Char} {c : Char} {tail : List Char}
    (h : endsRun last (c :: tail) = false) (hends : tail ≠ [] → endsRun (some c) tail = true) :
    IsRun last [c] tail := by
  refine ⟨List.cons_ne_nil c [], fun {front behind} hsplit hne => ?_, hends⟩
  cases front with
  | nil =>
    obtain rfl : [c] = behind := hsplit
    exact h
  | cons d front => exact absurd (List.append_eq_nil_iff.1 (List.cons.inj hsplit).2.symm).2 hne

theorem IsRun.cons {last : Option Char} {c : Char} {run tail : List Char}
    (h : endsRun last (c :: (run ++ tail)) = false) (hrun : IsRun (some c) run tail) :
    IsRun last (c :: run) tail := by
  refine ⟨List.cons_ne_nil c run, fun {front behind} hsplit hne => ?_, fun htail => ?_⟩
  · cases front with
    | nil =>
      obtain rfl : c :: run = behind := hsplit
      exact h
    | cons d front =>
      obtain ⟨rfl, hbehind⟩ := List.cons.inj hsplit
      have hinside := hrun.inside hbehind hne
      rwa [List.getLast?_cons, Option.some_or, ← Option.or_some]
  · rw [List.getLast?_cons_of_ne_nil hrun.ne_nil]
    exact hrun.ends htail

/-- What the tokenizer takes as ordinary text is a run. -/
theorem isRun_textRest {last : Option Char} {c : Char} {rest : List Char}
    (h : endsRun last (c :: rest) = false) :
    IsRun last (c :: rest.take (textRest c rest)) (rest.drop (textRest c rest)) := by
  induction rest generalizing last c with
  | nil => exact .single h fun hnil => absurd rfl hnil
  | cons d rest ih =>
    have hrest : textRest c (d :: rest) =
        if endsRun (some c) (d :: rest) = true then 0 else textRest d rest + 1 := rfl
    rw [hrest]
    split
    · rename_i hends
      exact .single h fun _ => hends
    · rename_i hon
      refine .cons ?_ (ih (eq_false_of_ne_true hon))
      exact (congrArg (fun text => endsRun last (c :: d :: text)) (List.take_append_drop ..)).trans h

/-- What is scanned as ordinary text is a run. -/
theorem isRun_of_scanned {last : Option Char} {c : Char} {rest : List Char}
    (hspecial : isSpecial c = false) (hcrlf : startsCrlf (c :: rest) = false)
    (hurl : urlBehind? last (c :: rest) = none) :
    IsRun last ((c :: rest).take (textRest c rest + 1)) ((c :: rest).drop (textRest c rest + 1)) :=
  isRun_textRest (endsRun_eq_false.2 ⟨by simpa using hspecial, hcrlf, hurl⟩)

end InlineMarkdown
