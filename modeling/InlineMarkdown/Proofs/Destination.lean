import InlineMarkdown.Proofs.Legible

/-! Destinations, written and taken apart again.

The first white space of a destination is where its address ends. A written address without
white space is therefore taken apart where its title was put behind it
(`splitDestination?_append`), and all that is left to ask is whether the two parts are read as
themselves: the address if it does not stand in angle brackets, the title if there is a kind of
quote that is not in it. An empty address has no white space in front of a title once the
destination is trimmed, so the title would be read as the address. -/
namespace InlineMarkdown

variable {url title text : List Char}

/-! ### Titles -/

theorem isSpace_of_quote {quote : Char} (h : quote = '"' ∨ quote = '\'') : isSpace quote = false := by
  rcases h with rfl | rfl <;> rfl

/-- A title is read from white space and one quoted part, in quotes that are not in it. -/
theorem quotedTitle?_eq_some_iff : quotedTitle? text = some title ↔
    ∃ space quote, text = space ++ quote :: (title ++ [quote]) ∧ space ≠ [] ∧
      (∀ c ∈ space, isSpace c = true) ∧ (quote = '"' ∨ quote = '\'') ∧ quote ∉ title := by
  constructor
  · intro h
    unfold quotedTitle? at h
    split at h
    · cases h
    rename_i hspace
    have hspace : text.takeWhile isSpace ≠ [] := by
      cases text with
      | nil => exact absurd rfl hspace
      | cons c rest => simpa using hspace
    split at h
    · cases h
    rename_i quote rest hdrop
    split at h
    · rename_i hquote
      dsimp only at h
      split at h
      · rename_i hclose
        obtain rfl := Option.some.inj h
        have hrest : rest = rest.takeWhile (· != quote) ++ [quote] := by
          conv => lhs; rw [← List.take_append_drop (rest.takeWhile (· != quote)).length rest]
          rw [hclose]
          exact congrArg (· ++ _) (List.prefix_iff_eq_take.1 (List.takeWhile_prefix _)).symm
        refine ⟨text.takeWhile isSpace, quote, ?_, hspace, fun c => List.mem_takeWhile_imp,
          by simpa using hquote, fun hmem => by simpa using List.mem_takeWhile_imp hmem⟩
        rw [← hrest, ← hdrop, List.takeWhile_append_dropWhile]
      · cases h
    · cases h
  · rintro ⟨space, quote, rfl, hne, hspace, hquote, htitle⟩
    obtain ⟨c, space, rfl⟩ := List.exists_cons_of_ne_nil hne
    have hbound := isSpace_of_quote hquote
    have hdrop : (c :: space ++ quote :: (title ++ [quote])).dropWhile isSpace =
        quote :: (title ++ [quote]) := by
      rw [List.dropWhile_append_of_pos hspace, List.dropWhile_cons_of_neg (by simp [hbound])]
    have htake : (title ++ [quote]).takeWhile (· != quote) = title :=
      takeWhile_exact (fun c hc => bne_iff_ne.2 (by rintro rfl; exact htitle hc)) (by simp)
    have hquotes : (decide (quote = '"') || decide (quote = '\'')) = true := by simpa using hquote
    have hhead : (!(c :: space ++ quote :: (title ++ [quote])).head?.any isSpace) = false := by
      simpa using hspace c (List.mem_cons_self ..)
    unfold quotedTitle?
    simp only [hhead, hdrop, hquotes, htake, List.drop_left, if_true, Bool.false_eq_true, if_false]

/-- A title as it is written behind an address. -/
def writtenTitle (title : List Char) : List Char :=
  if title = [] then []
  else
    let quote := if '"' ∈ title then '\'' else '"'
    ' ' :: quote :: (title ++ [quote])

theorem writtenTitle_of_ne (h : title ≠ []) : ∃ quote, (quote = '"' ∨ quote = '\'') ∧
    writtenTitle title = ' ' :: quote :: (title ++ [quote]) ∧
      (quote ∉ title ↔ ¬ ('"' ∈ title ∧ '\'' ∈ title)) := by
  unfold writtenTitle
  rw [if_neg h]
  by_cases hdouble : '"' ∈ title
  · exact ⟨'\'', .inr rfl, by simp [hdouble], by simp [hdouble]⟩
  · exact ⟨'"', .inl rfl, by simp [hdouble], by simp [hdouble]⟩

/-- A written title is read if there is a kind of quote that is not in it. -/
theorem quotedTitle?_writtenTitle (h : title ≠ []) :
    quotedTitle? (writtenTitle title) = some title ↔ ¬ ('"' ∈ title ∧ '\'' ∈ title) := by
  obtain ⟨quote, hquote, hwritten, hnot⟩ := writtenTitle_of_ne h
  rw [← hnot, quotedTitle?_eq_some_iff, hwritten]
  constructor
  · rintro ⟨space, other, hsame, -, -, -, hother⟩
    -- both texts end in their quote, so it is the same one
    have hlast := congrArg List.getLast? hsame
    simp [List.getLast?_append, List.getLast?_cons] at hlast
    rwa [hlast]
  · intro htitle
    exact ⟨[' '], quote, rfl, by simp, List.forall_mem_singleton.2 rfl, hquote, htitle⟩

/-! ### Addresses -/

theorem trim_of_ends (hfirst : ∀ c ∈ text.head?, isSpace c = false)
    (hlast : ∀ c ∈ text.getLast?, isSpace c = false) : trim text = text := by
  have hdrop {text : List Char} (h : ∀ c ∈ text.head?, isSpace c = false) :
      text.dropWhile isSpace = text := by
    cases text with
    | nil => rfl
    | cons c rest => exact List.dropWhile_cons_of_neg (by simpa using h c rfl)
  unfold trim trimRight trimLeft
  rw [hdrop hfirst, hdrop (by rwa [List.head?_reverse]), List.reverse_reverse]

theorem trim_of_bounds {first last : Char} (hfirst : isSpace first = false)
    (hlast : isSpace last = false) : trim (first :: (text ++ [last])) = first :: (text ++ [last]) := by
  refine trim_of_ends (fun c hc => ?_) fun c hc => ?_
  · rwa [← Option.some.inj hc]
  · have hend : (first :: (text ++ [last])).getLast? = some last := by simp [List.getLast?_cons]
    rwa [← Option.some.inj (hend.symm.trans hc)]

/-- An address has no white space in it. -/
theorem isSpace_of_plainUrl? {address : List Char} (h : plainUrl? address = some url) :
    ∀ c ∈ url, isSpace c = false := by
  unfold plainUrl? at h
  split at h
  · cases h
  · rename_i hspace
    obtain rfl := Option.some.inj h
    have hsub : ((between? '<' '>' address).getD address).Sublist address := by
      cases hbetween : between? '<' '>' address with
      | none => exact .refl _
      | some inner => exact between?_sublist hbetween
    intro c hc
    simpa using fun hc => hspace (List.any_eq_true.2 ⟨c, hsub.subset ‹_›, hc⟩)

/-- An address is read as itself if it does not stand in angle brackets. -/
theorem plainUrl?_eq_self_iff (hspace : ∀ c ∈ url, isSpace c = false) :
    plainUrl? url = some url ↔ ∀ inner, url ≠ '<' :: (inner ++ ['>']) := by
  have hplain : url.any isSpace = false := by simpa using hspace
  rw [← between?_eq_none_iff]
  unfold plainUrl?
  rw [hplain]
  cases hbetween : between? '<' '>' url with
  | none => simp
  | some inner =>
    have hne : inner ≠ url := by
      rw [between?_eq_some hbetween]
      intro h
      have hlength := congrArg List.length h
      simp at hlength
      omega
    simpa using hne

/-! ### Both together -/

theorem linkDestination_eq_append (hspace : ∀ c ∈ url, isSpace c = false) :
    linkDestination url title = url ++ writtenTitle title := by
  have hplain : url.any isSpace = false := by simpa using hspace
  unfold linkDestination writtenTitle
  rw [hplain]
  by_cases htitle : title = []
  · simp [htitle]
  · by_cases hdouble : '"' ∈ title <;> simp [htitle, hdouble]

/-- A destination is taken apart behind its address. -/
theorem splitDestination?_append {behind : List Char} (hspace : ∀ c ∈ url, isSpace c = false)
    (hbehind : ∀ c ∈ behind.head?, isSpace c = true) (htrim : trim (url ++ behind) = url ++ behind) :
    splitDestination? (url ++ behind) =
      match quotedTitle? behind with
      | some title => (plainUrl? url).map (·, title)
      | none => (plainUrl? (url ++ behind)).map (·, []) := by
  have htake : (url ++ behind).takeWhile (!isSpace ·) = url :=
    takeWhile_exact (fun c hc => by simp [hspace c hc]) fun c hc => by simp [hbehind c hc]
  cases hread : quotedTitle? behind with
  | none => simp [splitDestination?, htrim, htake, hread]
  | some title => simp [splitDestination?, htrim, htake, hread]

theorem trim_append_writtenTitle (hspace : ∀ c ∈ url, isSpace c = false)
    (hne : title = [] ∨ url ≠ []) : trim (url ++ writtenTitle title) = url ++ writtenTitle title := by
  by_cases htitle : title = []
  · subst htitle
    show trim (url ++ []) = url ++ []
    rw [List.append_nil]
    exact trim_of_ends (fun c hc => hspace c (List.mem_of_head? hc))
      fun c hc => hspace c (List.mem_of_getLast? hc)
  · obtain ⟨c, rest, rfl⟩ := List.exists_cons_of_ne_nil (hne.resolve_left htitle)
    obtain ⟨quote, hquote, hwritten, -⟩ := writtenTitle_of_ne htitle
    have hends : trim (c :: ((rest ++ ' ' :: quote :: title) ++ [quote])) =
        c :: ((rest ++ ' ' :: quote :: title) ++ [quote]) :=
      trim_of_bounds (hspace c (List.mem_cons_self ..)) (isSpace_of_quote hquote)
    rw [hwritten]
    simpa using hends

/-- Behind an address without white space, what is read is what was written if both parts are. -/
theorem splitDestination?_linkDestination_of_plain (hspace : ∀ c ∈ url, isSpace c = false)
    (hne : title = [] ∨ url ≠ []) :
    splitDestination? (linkDestination url title) = some (url, title) ↔
      (∀ inner, url ≠ '<' :: (inner ++ ['>'])) ∧
        (title = [] ∨ ¬ ('"' ∈ title ∧ '\'' ∈ title)) := by
  have hbehind : ∀ c ∈ (writtenTitle title).head?, isSpace c = true := by
    by_cases htitle : title = []
    · subst htitle
      exact nofun
    · obtain ⟨quote, -, hwritten, -⟩ := writtenTitle_of_ne htitle
      rw [hwritten]
      rintro c ⟨⟩
      rfl
  rw [linkDestination_eq_append hspace,
    splitDestination?_append hspace hbehind (trim_append_writtenTitle hspace hne)]
  rw [← plainUrl?_eq_self_iff hspace]
  by_cases htitle : title = []
  · subst htitle
    show (plainUrl? (url ++ [])).map (·, []) = some (url, []) ↔ _
    rw [List.append_nil]
    simp
  · rw [← quotedTitle?_writtenTitle htitle]
    cases quotedTitle? (writtenTitle title) with
    | none => simp [htitle, Ne.symm htitle]
    | some read => simp [htitle]

theorem isTarget_iff : isTarget url title = true ↔
    (∀ c ∈ url, isSpace c = false) ∧ (∀ inner, url ≠ '<' :: (inner ++ ['>'])) ∧
      (title = [] ∨ url ≠ [] ∧ ¬ ('"' ∈ title ∧ '\'' ∈ title)) := by
  unfold isTarget
  rw [Bool.and_eq_true, Bool.and_eq_true, Option.isNone_iff_eq_none, between?_eq_none_iff, and_assoc]
  simp [imp_iff_not_or]

/-- The destination of a target is read as that target. -/
theorem splitDestination?_linkDestination (h : isTarget url title = true) :
    splitDestination? (linkDestination url title) = some (url, title) := by
  obtain ⟨hspace, hbrackets, htitle⟩ := isTarget_iff.1 h
  exact (splitDestination?_linkDestination_of_plain hspace (htitle.imp_right And.left)).2
    ⟨hbrackets, htitle.imp_right And.right⟩

/-- With no address, the title is taken for one: it is the first word. -/
theorem splitDestination?_of_no_address (htitle : title ≠ []) :
    splitDestination? (linkDestination [] title) ≠ some ([], title) := by
  obtain ⟨quote, hquote, hwritten, -⟩ := writtenTitle_of_ne htitle
  have hbound := isSpace_of_quote hquote
  have htrim : trim (linkDestination [] title) = quote :: (title ++ [quote]) := by
    rw [linkDestination_eq_append (List.forall_mem_nil _), hwritten]
    exact trim_of_bounds hbound hbound
  have hfirst : (quote :: (title ++ [quote])).takeWhile (!isSpace ·) =
      quote :: (title ++ [quote]).takeWhile (!isSpace ·) :=
    List.takeWhile_cons_of_pos (by simp [hbound])
  -- the first word starts with a quote, so it is in no angle brackets and stays as it is
  have hword (word : List Char) : plainUrl? (quote :: word) ≠ some [] := by
    have hbetween : between? '<' '>' (quote :: word) = none := by
      rw [between?_eq_none_iff]
      rintro inner hsame
      rcases hquote with rfl | rfl <;> exact absurd (List.cons.inj hsame).1 (by decide)
    unfold plainUrl?
    rw [hbetween]
    split <;> simp
  intro h
  unfold splitDestination? at h
  simp only [htrim, hfirst] at h
  split at h
  · obtain ⟨address, haddress, hsame⟩ := Option.map_eq_some_iff.1 h
    exact hword _ (haddress.trans (congrArg some (Prod.mk.inj hsame).1))
  · obtain ⟨address, -, hsame⟩ := Option.map_eq_some_iff.1 h
    exact htitle (Prod.mk.inj hsame).2.symm

/-- What is read as an address has no white space in it. -/
theorem isSpace_of_splitDestination? (h : splitDestination? text = some (url, title)) :
    ∀ c ∈ url, isSpace c = false := by
  unfold splitDestination? at h
  dsimp only at h
  split at h
  all_goals
    obtain ⟨address, haddress, hsame⟩ := Option.map_eq_some_iff.1 h
    rw [← (Prod.mk.inj hsame).1]
    exact isSpace_of_plainUrl? haddress

/-- A destination is read as the address and the title that it was written from exactly if the
address has no white space in it and is not in angle brackets, and there is no title, or an
address in front of it and a kind of quote that is not in it. -/
theorem splitDestination?_linkDestination_iff (url title : List Char) :
    splitDestination? (linkDestination url title) = some (url, title) ↔
      (∀ c ∈ url, isSpace c = false) ∧ (∀ inner, url ≠ '<' :: (inner ++ ['>'])) ∧
        (title = [] ∨ url ≠ [] ∧ ¬ ('"' ∈ title ∧ '\'' ∈ title)) := by
  constructor
  · intro h
    have hspace := isSpace_of_splitDestination? h
    have haddress : title = [] ∨ url ≠ [] := by
      by_contra hnone
      obtain ⟨htitle, hurl⟩ := not_or.1 hnone
      rw [not_not.1 hurl] at h
      exact splitDestination?_of_no_address htitle h
    obtain ⟨hbrackets, htitle⟩ := (splitDestination?_linkDestination_of_plain hspace haddress).1 h
    exact ⟨hspace, hbrackets, or_and_left.2 ⟨haddress, htitle⟩⟩
  · rintro ⟨hspace, hbrackets, htitle⟩
    exact (splitDestination?_linkDestination_of_plain hspace (htitle.imp_right And.left)).2
      ⟨hbrackets, htitle.imp_right And.right⟩

end InlineMarkdown
