import Mathlib.Data.List.TakeWhile
import InlineMarkdown.Proofs.Pieces

/-! Fences that hold.

A code span is closed by the first run of backticks as long as its fence. The writer's fence
is longer than any run in the code and set off from the code where it has to be, so that the
whole span is one lexeme and its content the code again. A formula has no dollar sign in it
and closes at the next. -/
namespace InlineMarkdown

theorem takeWhile_exact {p : Char → Bool} {body tail : List Char} (hbody : ∀ c ∈ body, p c = true)
    (htail : ∀ c ∈ tail.head?, p c = false) : (body ++ tail).takeWhile p = body := by
  rw [List.takeWhile_append_of_pos hbody]
  cases tail with
  | nil => simp
  | cons c tail => simp [htail c rfl]

/-! ### Runs -/

theorem runLength_replicate {c : Char} {tail : List Char} (htail : tail.head? ≠ some c) (n : Nat) :
    runLength c (List.replicate n c ++ tail) = n := by
  unfold runLength
  rw [takeWhile_exact (fun d hd => by simp [List.eq_of_mem_replicate hd]) fun d hd => ?_,
    List.length_replicate]
  have : d ≠ c := by
    rintro rfl
    exact htail hd
  simpa using this

theorem le_foldl_max (lengths : List Nat) (start : Nat) :
    start ≤ lengths.foldl max start ∧ ∀ n ∈ lengths, n ≤ lengths.foldl max start := by
  induction lengths generalizing start with
  | nil => exact ⟨Nat.le_refl _, nofun⟩
  | cons n rest ih =>
    obtain ⟨hstart, hrest⟩ := ih (max start n)
    refine ⟨Nat.le_trans (Nat.le_max_left ..) hstart, fun m hm => ?_⟩
    rcases List.mem_cons.1 hm with rfl | hm
    · exact Nat.le_trans (Nat.le_max_right ..) hstart
    · exact hrest m hm

/-- No run of backticks in the code is longer than the longest. -/
theorem length_le_longestRun {code piece : List Char}
    (h : piece ∈ splitWhere (· != backtick) code) : piece.length ≤ longestRun code :=
  (le_foldl_max _ 0).2 _ (List.mem_map_of_mem h)

theorem splitWhere_ne_nil (p : Char → Bool) (text : List Char) : splitWhere p text ≠ [] := by
  cases text with
  | nil => nofun
  | cons c rest =>
    unfold splitWhere
    split
    · nofun
    · split <;> nofun

/-! ### Code spans -/

theorem fenceEnd?_close {fence run : Nat} {tail : List Char} (htail : tail.head? ≠ some backtick)
    (count : Nat) (hfence : run + count = fence) :
    fenceEnd? fence run (List.replicate count backtick ++ tail) = some count := by
  induction count generalizing run with
  | zero =>
    obtain rfl : run = fence := hfence
    cases tail with
    | nil => simp [fenceEnd?]
    | cons c tail =>
      have hc : c ≠ backtick := fun hc => htail (by rw [hc]; rfl)
      simp [fenceEnd?, hc]
  | succ count ih =>
    rw [List.replicate_succ, List.cons_append, fenceEnd?, if_pos rfl, ih (by omega)]
    rfl

/-- The search for the closing fence passes over code whose runs are all shorter. `run`
backticks stand in front of it; behind it the search goes on with none, unless what is behind
it (`parted`) does not care. -/
theorem fenceEnd?_code {fence run n : Nat} {code piece tail : List Char} {pieces : List (List Char)}
    {parted : Prop} (hsplit : splitWhere (· != backtick) code = piece :: pieces)
    (hrun : run + piece.length < fence) (hpieces : ∀ other ∈ pieces, other.length < fence)
    (hline : '\n' ∉ code)
    (hclose : ∀ run, run < fence → parted ∨ run = 0 → fenceEnd? fence run tail = some n)
    (hend : parted ∨ code.getLast? ≠ some backtick ∧ (code = [] → run = 0)) :
    fenceEnd? fence run (code ++ tail) = some (code.length + n) := by
  induction code generalizing run piece pieces with
  | nil =>
    rw [List.nil_append, hclose run (by omega) (hend.imp_right fun h => h.2 rfl)]
    simp
  | cons c rest ih =>
    obtain ⟨first, others, hrest⟩ := List.exists_cons_of_ne_nil (splitWhere_ne_nil (· != backtick) rest)
    have hbehind : '\n' ∉ rest := fun h => hline (List.mem_cons_of_mem _ h)
    have hlast (run : Nat) (hzero : rest = [] → run = 0 ∨ c = backtick) :
        parted ∨ rest.getLast? ≠ some backtick ∧ (rest = [] → run = 0) := by
      refine hend.imp_right fun ⟨hlast, _⟩ => ?_
      cases rest with
      | nil =>
        have hc : c ≠ backtick := fun hc => hlast (by rw [hc]; rfl)
        exact ⟨nofun, fun _ => (hzero rfl).resolve_right hc⟩
      | cons d rest => exact ⟨by rwa [List.getLast?_cons_cons] at hlast, nofun⟩
    rw [splitWhere] at hsplit
    rw [List.cons_append, fenceEnd?]
    by_cases hc : c = backtick
    · rw [if_neg (by simp [hc]), hrest] at hsplit
      obtain ⟨rfl, rfl⟩ := List.cons.inj hsplit
      rw [List.length_cons] at hrun
      rw [if_pos hc, ih hrest (by omega) hpieces hbehind (hlast _ fun _ => .inr hc)]
      simp
      omega
    · rw [if_pos (by simpa using hc), hrest] at hsplit
      obtain ⟨rfl, rfl⟩ := List.cons.inj hsplit
      have hnewline : c ≠ '\n' := fun h => hline (by rw [h]; exact List.mem_cons_self ..)
      have hfirst := hpieces first (List.mem_cons_self ..)
      rw [if_neg hc, if_neg (by simp at hrun; omega), if_neg hnewline,
        ih hrest (by omega) (fun other h => hpieces other (List.mem_cons_of_mem _ h)) hbehind
          (hlast _ fun _ => .inl rfl)]
      simp
      omega

/-- The spaces between a code span's fences and its code. -/
def codePad (code : List Char) : List Char := if needsPadding code then [' '] else []

/-- The fence of a code span. -/
def codeFence (code : List Char) : List Char := List.replicate (longestRun code + 1) backtick

theorem codeSpan_eq (code : List Char) :
    codeSpan code = codeFence code ++ (codePad code ++ code ++ codePad code) ++ codeFence code := by
  simp [codeSpan, codeFence, codePad]

/-- Between the fences neither end is a backtick. -/
theorem codePad_ends {code : List Char} (hne : code ≠ []) (tail : List Char) :
    (codePad code ++ code ++ tail).head? ≠ some backtick ∧
      (needsPadding code = false → code.getLast? ≠ some backtick) := by
  unfold codePad
  cases hpad : needsPadding code with
  | true => exact ⟨nofun, nofun⟩
  | false =>
    simp only [needsPadding, Bool.or_eq_false_iff, beq_eq_false_iff_ne, ne_eq] at hpad
    obtain ⟨⟨hfirst, hlast⟩, -⟩ := hpad
    refine ⟨?_, fun _ => hlast⟩
    cases code with
    | nil => exact absurd rfl hne
    | cons c code => exact hfirst

theorem codeSpan?_of_fence {n length : Nat} {body : List Char} (hbody : body.head? ≠ some backtick)
    (hend : fenceEnd? (n + 1) 0 body = some length) :
    codeSpan? (List.replicate (n + 1) backtick ++ body) = some (n + 1 + length) := by
  have hdrop : (List.replicate (n + 1) backtick ++ body).drop (n + 1) = body := by
    rw [List.drop_append_of_le_length (by simp), List.drop_of_length_le (by simp), List.nil_append]
  unfold codeSpan?
  dsimp only
  rw [runLength_replicate hbody, if_neg (Nat.succ_ne_zero n), hdrop, hend]
  rfl

/-- The search for the closing fence of a code span ends at that fence. -/
theorem fenceEnd?_codeSpan {code tail : List Char} (hne : code ≠ []) (hline : '\n' ∉ code)
    (htail : tail.head? ≠ some backtick) :
    fenceEnd? (longestRun code + 1) 0
        (codePad code ++ code ++ (codePad code ++ (codeFence code ++ tail))) =
      some ((codePad code ++ code ++ codePad code).length + (longestRun code + 1)) := by
  have hclosing : fenceEnd? (longestRun code + 1) 0 (codeFence code ++ tail) = _ :=
    fenceEnd?_close htail (longestRun code + 1) (Nat.zero_add _)
  obtain ⟨piece, pieces, hsplit⟩ := List.exists_cons_of_ne_nil (splitWhere_ne_nil (· != backtick) code)
  have hpieces : ∀ other ∈ piece :: pieces, other.length < longestRun code + 1 := fun other h =>
    Nat.lt_succ_of_le (length_le_longestRun (hsplit ▸ h))
  have hpiece : 0 + piece.length < longestRun code + 1 := by
    simpa using hpieces piece (List.mem_cons_self ..)
  have hrest : ∀ other ∈ pieces, other.length < longestRun code + 1 := fun other h =>
    hpieces other (List.mem_cons_of_mem _ h)
  have hlast := (codePad_ends hne []).2
  unfold codePad
  cases hpad : needsPadding code with
  | true =>
    -- The space behind the code ends its last run, however long that is.
    have hspace {run : Nat} {rest : List Char} (hrun : run < longestRun code + 1) :
        fenceEnd? (longestRun code + 1) run (' ' :: rest) =
          (fenceEnd? (longestRun code + 1) 0 rest).map (· + 1) := by
      rw [fenceEnd?, if_neg (by decide), if_neg (Nat.ne_of_lt hrun), if_neg (by decide)]
    have hcode := fenceEnd?_code hsplit hpiece hrest hline
      (fun run hrun _ => (hspace hrun).trans (congrArg _ hclosing)) (.inl trivial)
    simp only [if_true, List.cons_append, List.nil_append]
    rw [hspace (Nat.zero_lt_succ _), hcode]
    simp
    omega
  | false =>
    have hcode := fenceEnd?_code hsplit hpiece hrest hline
      (fun run _ hzero => hzero.elim False.elim fun hzero => hzero ▸ hclosing)
      (.inr ⟨hlast hpad, fun _ => rfl⟩)
    simpa using hcode

theorem scan_backtick (before : Option Char) (rest : List Char) :
    scan before backtick rest = match codeSpan? (backtick :: rest) with
      | some length => (.inlineCode, length)
      | none => (.text, runLength backtick (backtick :: rest)) := rfl

/-- A code span is one lexeme. -/
theorem readAs_codeSpan {before : Option Char} {code tail : List Char} (hne : code ≠ [])
    (hline : '\n' ∉ code) (htail : tail.head? ≠ some backtick) :
    ReadAs before .inlineCode (codeSpan code) tail := by
  have hspan : codeSpan? (codeSpan code ++ tail) = some (codeSpan code).length := by
    rw [codeSpan_eq, List.append_assoc, List.append_assoc, List.append_assoc]
    refine (codeSpan?_of_fence (codePad_ends hne _).1 (fenceEnd?_codeSpan hne hline htail)).trans ?_
    simp [codeFence]
    omega
  have hfirst : codeSpan code = backtick :: (codeSpan code).tail := by
    simp [codeSpan_eq, codeFence, List.replicate_succ]
  rw [hfirst, List.cons_append, ← hfirst] at hspan
  refine ⟨backtick, (codeSpan code).tail, hfirst, ?_⟩
  rw [scan_backtick, hspan]

theorem text_codeSpan (code : List Char) :
    Lexeme.text ⟨.inlineCode, codeSpan code⟩ = codeSpan code :=
  text_of_ne (c := backtick) (by decide) (codeSpan code).tail

/-! ### Contents -/

theorem dropBytes?_replicate {c : Char} (hc : c.utf8Size = 1) (n : Nat) (rest : List Char) :
    dropBytes? n (List.replicate n c ++ rest) = some rest := by
  induction n with
  | zero => cases rest <;> rfl
  | succ n ih => simpa [List.replicate_succ, dropBytes?, hc] using ih

/-- Between two runs of `fence` stands what is left without them. -/
theorem stripFences_fenced {fence : Char} (hsize : fence.utf8Size = 1) {inner : List Char}
    (hne : inner ≠ []) (hinner : inner.head? ≠ some fence) (n : Nat) :
    stripFences (List.replicate n fence ++ inner ++ List.replicate n fence) fence =
      if fence = backtick && isPadded inner then (inner.drop 1).dropLast else inner := by
  have hrun : runLength fence (List.replicate n fence ++ inner ++ List.replicate n fence) = n := by
    rw [List.append_assoc]
    refine runLength_replicate ?_ n
    cases inner with
    | nil => exact absurd rfl hne
    | cons c inner => exact hinner
  have hkept : dropBytes? n (List.replicate n fence ++ inner ++ List.replicate n fence).reverse =
      some (List.replicate n fence ++ inner).reverse := by
    rw [List.reverse_append, List.reverse_replicate, dropBytes?_replicate hsize]
  have hdrop : (List.replicate n fence ++ inner).drop n = inner := by
    rw [List.drop_append_of_le_length (by simp), List.drop_of_length_le (by simp), List.nil_append]
  unfold stripFences
  simp only [hrun, hkept, List.reverse_reverse, hdrop]

/-- Trimming leaves nothing of white space alone. -/
theorem trim_isEmpty (text : List Char) : (trim text).isEmpty = text.all isSpace := by
  have hblank : trim text = [] ↔ ∀ c ∈ text, isSpace c = true := by
    unfold trim trimRight trimLeft
    rw [List.reverse_eq_nil_iff, List.dropWhile_eq_nil_iff]
    constructor
    · intro h
      refine List.dropWhile_eq_nil_iff.1 ?_
      rcases hdrop : text.dropWhile isSpace with _ | ⟨c, rest⟩
      · rfl
      · have hhead := List.head?_dropWhile_not isSpace text
        rw [hdrop] at h hhead
        exact absurd (h c (by simp)) (by simpa using hhead)
    · intro h c hc
      exact h c ((List.dropWhile_sublist isSpace).mem (List.mem_reverse.1 hc))
  rw [Bool.eq_iff_iff, List.isEmpty_iff, hblank, List.all_eq_true]

/-- Padded text stands between two spaces, and is not white space alone. -/
theorem exists_of_isPadded {text : List Char} (h : isPadded text = true) :
    ∃ inner, text = ' ' :: (inner ++ [' ']) ∧ ∃ c ∈ inner, isSpace c = false := by
  unfold isPadded at h
  simp only [Bool.and_eq_true, decide_eq_true_eq, beq_iff_eq, Bool.not_eq_true', trim_isEmpty,
    List.all_eq_false] at h
  obtain ⟨⟨⟨hlength, hfirst⟩, hlast⟩, c, hc, hblack⟩ := h
  obtain ⟨rest, rfl⟩ := List.head?_eq_some_iff.1 hfirst
  have hrest : rest.getLast? = some ' ' := by
    cases rest with
    | nil => simp at hlength
    | cons d rest => rwa [List.getLast?_cons_cons] at hlast
  obtain ⟨inner, rfl⟩ := List.getLast?_eq_some_iff.1 hrest
  refine ⟨inner, rfl, c, ?_, by simpa using hblack⟩
  -- a character that is no space is neither the first nor the last
  have hspace : c ≠ ' ' := by
    rintro rfl
    exact hblack rfl
  simpa [hspace] using hc

/-- Code that is padded is not all white space. -/
theorem exists_of_needsPadding {code : List Char} (h : needsPadding code = true) :
    ∃ c ∈ code, isSpace c = false := by
  simp only [needsPadding, Bool.or_eq_true, Bool.and_eq_true, beq_iff_eq, Bool.not_eq_true',
    trim_isEmpty] at h
  rcases h with (h | h) | ⟨-, h⟩
  · exact ⟨backtick, List.mem_of_head? h, by decide⟩
  · exact ⟨backtick, List.mem_of_getLast? h, by decide⟩
  · simpa using h

/-- The content of a code span is its code. -/
theorem stripFences_codeSpan {code : List Char} (hne : code ≠ []) :
    stripFences (codeSpan code) backtick = code := by
  rw [codeSpan_eq, codeFence]
  have hhead := (codePad_ends hne (codePad code)).1
  rw [stripFences_fenced rfl (by simp [hne]) hhead]
  simp only [decide_true, Bool.true_and]
  unfold codePad
  cases hpad : needsPadding code with
  | true =>
    obtain ⟨c, hc, hblack⟩ := exists_of_needsPadding hpad
    have hpadded : isPadded ([' '] ++ code ++ [' ']) = true := by
      simp only [isPadded, trim_isEmpty, Bool.and_eq_true, Bool.not_eq_true', List.all_eq_false]
      exact ⟨⟨⟨by simp, by simp⟩, by rw [List.getLast?_concat]; rfl⟩, c, by simp [hc], by simp [hblack]⟩
    simp only [if_true, hpadded]
    simp
  | false =>
    have hplain : isPadded code = false := by
      simp only [needsPadding, Bool.or_eq_false_iff] at hpad
      unfold isPadded
      rw [Bool.and_assoc, Bool.and_assoc, ← Bool.and_assoc (_ == _), hpad.2, Bool.and_false]
    simp [hplain]

/-! ### Formulas -/

/-- The fence of a formula. -/
def formulaFence (body : List Char) : List Char :=
  if body.head?.any isSpace || body.getLast?.any isSpace then ['$', '$'] else ['$']

theorem formulaBody_exact {body tail : List Char} (hbody : ∀ c ∈ body, c ≠ '$' ∧ c ≠ '\n') :
    formulaBody (body ++ '$' :: tail) = body :=
  takeWhile_exact (fun c hc => by simp [hbody c hc]) fun c hc => by
    obtain rfl := Option.some.inj hc
    rfl

theorem displayFormula?_fenced {body tail : List Char} (hne : body ≠ [])
    (hbody : ∀ c ∈ body, c ≠ '$' ∧ c ≠ '\n') :
    displayFormula? ('$' :: '$' :: (body ++ '$' :: '$' :: tail)) = some (body.length + 4) := by
  simp [displayFormula?, after?, formulaBody_exact hbody, hne]

theorem inlineFormula?_fenced {body tail : List Char} (hne : body ≠ [])
    (hbody : ∀ c ∈ body, c ≠ '$' ∧ c ≠ '\n')
    (hends : (body.head?.any isSpace || body.getLast?.any isSpace) = false) :
    formula? ('$' :: (body ++ '$' :: tail)) = some (body.length + 2) := by
  have hdisplay : displayFormula? ('$' :: (body ++ '$' :: tail)) = none := by
    cases body with
    | nil => exact absurd rfl hne
    | cons c body =>
      have hc : '$' ≠ c := fun h => (hbody c (List.mem_cons_self ..)).1 h.symm
      simp [displayFormula?, after?, hc]
  obtain ⟨first, hfirst⟩ : ∃ first, body.head? = some first := ⟨_, List.head?_eq_some_head hne⟩
  obtain ⟨last, hlast⟩ : ∃ last, body.getLast? = some last := ⟨_, List.getLast?_eq_some_getLast hne⟩
  rw [hfirst, hlast] at hends
  simp only [Option.any_some, Bool.or_eq_false_iff] at hends
  unfold formula?
  rw [hdisplay]
  simp [inlineFormula?, after?, formulaBody_exact hbody, hfirst, hlast, hends]

theorem scan_dollar (before : Option Char) (rest : List Char) :
    scan before '$' rest = match formula? ('$' :: rest) with
      | some length => (.formula, length)
      | none => (.text, 1) := rfl

/-- A formula is one lexeme. -/
theorem readAs_fencedFormula {before : Option Char} {body : List Char} (hne : body ≠ [])
    (hbody : ∀ c ∈ body, c ≠ '$' ∧ c ≠ '\n') (tail : List Char) :
    ReadAs before .formula (fencedFormula body) tail := by
  unfold fencedFormula
  cases hends : body.head?.any isSpace || body.getLast?.any isSpace with
  | true =>
    refine ⟨'$', '$' :: (body ++ ['$', '$']), by simp, ?_⟩
    have htext : '$' :: (body ++ ['$', '$']) ++ tail = '$' :: (body ++ '$' :: '$' :: tail) := by simp
    have hformula : formula? ('$' :: '$' :: (body ++ '$' :: '$' :: tail)) = some (body.length + 4) := by
      unfold formula?
      rw [displayFormula?_fenced hne hbody]
      rfl
    rw [htext, scan_dollar, hformula]
    simp
  | false =>
    refine ⟨'$', body ++ ['$'], by simp, ?_⟩
    have htext : body ++ ['$'] ++ tail = body ++ '$' :: tail := by simp
    rw [htext, scan_dollar, inlineFormula?_fenced hne hbody hends]
    simp

theorem text_fencedFormula (body : List Char) :
    Lexeme.text ⟨.formula, fencedFormula body⟩ = fencedFormula body := by
  unfold fencedFormula
  split <;> exact text_of_ne (by decide) _

/-- The content of a formula is its body. -/
theorem stripFences_fencedFormula {body : List Char} (hne : body ≠ [])
    (hbody : ∀ c ∈ body, c ≠ '$' ∧ c ≠ '\n') : stripFences (fencedFormula body) '$' = body := by
  have hhead : body.head? ≠ some '$' := fun h => (hbody _ (List.mem_of_head? h)).1 rfl
  have hstrip := @stripFences_fenced '$' rfl body hne hhead
  unfold fencedFormula
  cases body.head?.any isSpace || body.getLast?.any isSpace with
  | true => exact hstrip 2
  | false => exact hstrip 1

/-! ### First tokens -/

/-- A lexeme that starts a source and says what it reads is the first token. -/
theorem tokenize_head? {kind : Kind} {raw tail : List Char} (h : ReadAs none kind raw tail)
    (htext : Lexeme.text ⟨kind, raw⟩ = raw) :
    (tokenize (raw ++ tail)).head? = some ⟨kind, raw, Span.covering {} raw⟩ := by
  have hlexemes : lexemes (raw ++ tail) = ⟨kind, raw⟩ :: lexemesBehind raw.getLast? tail := h.lexemes
  unfold tokenize
  rw [hlexemes, place, htext]
  rfl

/-- Code and formulas come back from between their fences: with what they enclose, the fences
are the first token of a source that starts with them, and the parser takes exactly the fences
off it. A code span must not have a backtick behind it, a formula no dollar sign in it. -/
theorem tokenize_fenced {body : List Char} (hne : body ≠ []) (hline : '\n' ∉ body)
    (rest : List Char) :
    (rest.head? ≠ some backtick →
      (tokenize (codeSpan body ++ rest)).head? =
          some ⟨.inlineCode, codeSpan body, Span.covering {} (codeSpan body)⟩ ∧
        stripFences (codeSpan body) backtick = body) ∧
    ('$' ∉ body →
      (tokenize (formulaFence body ++ body ++ formulaFence body ++ rest)).head? =
          some ⟨.formula, formulaFence body ++ body ++ formulaFence body,
            Span.covering {} (formulaFence body ++ body ++ formulaFence body)⟩ ∧
        stripFences (formulaFence body ++ body ++ formulaFence body) '$' = body) := by
  constructor
  · intro hrest
    refine ⟨?_, stripFences_codeSpan hne⟩
    exact tokenize_head? (readAs_codeSpan hne hline hrest) (text_codeSpan body)
  · intro hdollar
    have hbody : ∀ c ∈ body, c ≠ '$' ∧ c ≠ '\n' := fun c hc =>
      ⟨ne_of_mem_of_not_mem hc hdollar, ne_of_mem_of_not_mem hc hline⟩
    have hfenced : formulaFence body ++ body ++ formulaFence body = fencedFormula body := rfl
    rw [hfenced]
    refine ⟨?_, stripFences_fencedFormula hne hbody⟩
    exact tokenize_head? (readAs_fencedFormula hne hbody rest) (text_fencedFormula body)

/-- Two backticks and a space: the code span needs three backticks and padding, the formula
two dollar signs. -/
theorem tokenize_backticks :
    codeSpan [backtick, backtick, ' '] =
        [backtick, backtick, backtick, ' ', backtick, backtick, ' ', ' ', backtick, backtick, backtick] ∧
      (tokenize (codeSpan [backtick, backtick, ' '] ++ ['b'])).head? =
        some ⟨.inlineCode, codeSpan [backtick, backtick, ' '], ⟨{}, ⟨0, 11, 11⟩⟩⟩ ∧
      stripFences (codeSpan [backtick, backtick, ' ']) backtick = [backtick, backtick, ' '] ∧
      (tokenize ['$', '$', backtick, backtick, ' ', '$', '$', '$']).head? =
        some ⟨.formula, ['$', '$', backtick, backtick, ' ', '$', '$'], ⟨{}, ⟨0, 7, 7⟩⟩⟩ ∧
      stripFences ['$', '$', backtick, backtick, ' ', '$', '$'] '$' = [backtick, backtick, ' '] := by
  have hbody : [backtick, backtick, ' '] ≠ [] ∧ '\n' ∉ [backtick, backtick, ' '] ∧
    '$' ∉ [backtick, backtick, ' '] := by decide
  obtain ⟨hspan, hcode⟩ := (tokenize_fenced hbody.1 hbody.2.1 ['b']).1 (by decide)
  obtain ⟨hfenced, hformula⟩ := (tokenize_fenced hbody.1 hbody.2.1 ['$']).2 hbody.2.2
  exact ⟨by decide, hspan, hcode, hfenced, hformula⟩

/-! ### Addresses in angle brackets -/

section Bracket
variable {p : Char → Bool} (text tail : List Char)

theorem takeWhile_bracket (hp : p '>' = false) : (text ++ '>' :: tail).takeWhile p = text.takeWhile p := by
  induction text with
  | nil => simp [hp]
  | cons c text ih =>
    rw [List.cons_append, List.takeWhile_cons, List.takeWhile_cons, ih]

theorem drop_bracket : (text ++ '>' :: tail).drop (text.takeWhile p).length =
    text.dropWhile p ++ '>' :: tail := by
  induction text with
  | nil => rfl
  | cons c text ih =>
    rw [List.takeWhile_cons, List.dropWhile_cons]
    split
    · exact ih
    · rfl

theorem after?_bracket {c : Char} (hc : c ≠ '>') :
    after? [c] (text ++ '>' :: tail) = (after? [c] text).map (· ++ '>' :: tail) := by
  cases text with
  | nil => simp [after?, hc]
  | cons d text =>
    simp only [List.cons_append, after?]
    split <;> rfl

/-- What stands behind the closing bracket does not count. -/
theorem close_bracket {β : Type} (value : Option β) :
    ((after? ['>'] (text ++ '>' :: tail)).bind fun _ => value) =
      (after? ['>'] (text ++ ['>'])).bind fun _ => value := by
  cases text with
  | nil => simp [after?]
  | cons d text =>
    simp only [List.cons_append, after?]
    split <;> rfl

end Bracket

theorem schemeAutolink?_bracket (url tail : List Char) :
    schemeAutolink? ('<' :: (url ++ '>' :: tail)) = schemeAutolink? ('<' :: (url ++ ['>'])) := by
  have htake (tail : List Char) := takeWhile_bracket (p := isSchemeChar) url tail (by decide)
  have hcolon (tail : List Char) := after?_bracket (url.dropWhile isSchemeChar) tail
    (show ':' ≠ '>' by decide)
  unfold schemeAutolink?
  simp only [after?, if_true, Option.bind_eq_bind, Option.bind_some, htake,
    drop_bracket, hcolon]
  split
  · rfl
  · cases after? [':'] (url.dropWhile isSchemeChar) with
    | none => rfl
    | some target =>
      simp only [Option.map_some, Option.bind_some]
      rw [takeWhile_bracket target tail (by decide), takeWhile_bracket target [] (by decide),
        drop_bracket, drop_bracket]
      exact close_bracket _ tail _

theorem mailAutolink?_bracket (url tail : List Char) :
    mailAutolink? ('<' :: (url ++ '>' :: tail)) = mailAutolink? ('<' :: (url ++ ['>'])) := by
  have htake (tail : List Char) := takeWhile_bracket (p := isMailboxChar) url tail (by decide)
  have hat (tail : List Char) := after?_bracket (url.dropWhile isMailboxChar) tail
    (show '@' ≠ '>' by decide)
  unfold mailAutolink?
  simp only [after?, if_true, Option.bind_eq_bind, Option.bind_some, htake,
    drop_bracket, hat]
  split
  · rfl
  · cases after? ['@'] (url.dropWhile isMailboxChar) with
    | none => rfl
    | some target =>
      simp only [Option.map_some, Option.bind_some]
      rw [takeWhile_bracket target tail (by decide), takeWhile_bracket target [] (by decide),
        drop_bracket, drop_bracket]
      split
      · rfl
      · exact close_bracket _ tail _

/-- An address that is one by itself is one lexeme wherever it stands. -/
theorem readAs_address {before : Option Char} {url : List Char}
    (h : autolink? ('<' :: url ++ ['>']) = some (url.length + 2)) (tail : List Char) :
    ReadAs before .autolink ('<' :: url ++ ['>']) tail := by
  have htext : url ++ ['>'] ++ tail = url ++ '>' :: tail := by simp
  have haddress : autolink? ('<' :: (url ++ '>' :: tail)) = some (url.length + 2) := by
    rw [← h]
    unfold autolink?
    rw [schemeAutolink?_bracket, mailAutolink?_bracket]
    rfl
  refine ⟨'<', url ++ ['>'], rfl, ?_⟩
  rw [htext]
  have hangle : angle? ('<' :: (url ++ '>' :: tail)) = some (.autolink, url.length + 2) := by
    unfold angle?
    rw [haddress]
    rfl
  have hkind : Kind.ofChar? '<' = none := rfl
  simp [scan, hkind, startsCrlf, after?, backtick, hangle]

end InlineMarkdown
