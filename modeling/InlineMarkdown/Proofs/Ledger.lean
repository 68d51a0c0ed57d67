import InlineMarkdown.Proofs.Canonical
import InlineMarkdown.Proofs.Line
import InlineMarkdown.Proofs.Weight
import Mathlib.Data.Nat.Dist

/-! What becomes of the delimiters of a line.

Of one kind of delimiter, tildes apart, no more than one run is open at a time: a run closes the
open one until either is used up, and what is left of the longer is open behind it (`Draft.Owes`).
So two runs cancel out marker by marker. As many as both have are used up, in twos for strong
emphasis and one for emphasis if one is left over (`weight_resolve`), and over a line of words and
runs the same holds run by run (`parseMarkdown_runs`). -/
namespace InlineMarkdown
open InlineParser

/-! ### Runs that cancel out -/

/-- The number of markers that are open behind runs of some lengths. A run and what is open in
front of it cancel out. -/
def leftOpen : (opened : Nat) → (counts : List Nat) → Nat
  | opened, [] => opened
  | opened, count :: rest => leftOpen (Nat.dist opened count) rest

/-- The number of markers that each run closes. -/
def closedBy : (opened : Nat) → (counts : List Nat) → List Nat
  | _, [] => []
  | opened, count :: rest => min opened count :: closedBy (Nat.dist opened count) rest

/-- What the nodes weigh that come of closing so many markers of one run. -/
def Weight.ofClosed (w : Weight) (count : Nat) : Nat := count / 2 * w.of .strong + count % 2 * w.of .emphasis

theorem Weight.ofClosed_zero (w : Weight) : w.ofClosed 0 = 0 := by
  rw [ofClosed, Nat.zero_div, Nat.zero_mod, Nat.zero_mul, Nat.zero_mul]

theorem Weight.ofClosed_strong : (nodes .strong nofun).ofClosed = (· / 2) := by
  funext count
  show count / 2 * 1 + count % 2 * 0 = count / 2
  omega

theorem Weight.ofClosed_emphasis : (nodes .emphasis nofun).ofClosed = (· % 2) := by
  funext count
  show count / 2 * 0 + count % 2 * 1 = count % 2
  omega

theorem Weight.ofClosed_chars (c : Char) : (chars c).ofClosed = fun _ => 0 := by
  funext count
  show count / 2 * 0 + count % 2 * 0 = 0
  omega

/-- Markers are closed in twos as long as there are two. -/
theorem Weight.ofClosed_add {w : Weight} {marker : Marker} {used count : Nat}
    (hmarker : marker ≠ .tilde) (hused : used = 2 ∨ used = 1 ∧ count = 0) :
    w.ofClosed (count + used) = w.ofClosed count + w.of (marker.wrapper used) := by
  rw [Marker.wrapper_of_ne_tilde hmarker]
  rcases hused with rfl | ⟨rfl, rfl⟩
  · rw [if_pos (Nat.le_refl 2), ofClosed, ofClosed, Nat.add_div_right _ Nat.two_pos,
      Nat.add_mod_right, Nat.succ_mul]
    omega
  · rw [if_neg (by decide), ofClosed, ofClosed]
    simp

/-! ### Open runs -/

/-- At most one run of this marker is open, and it has so many markers. -/
structure Draft.Owes (draft : Draft) (marker : Marker) (opened : Nat) : Prop where
  stacked : draft.Stacked
  bare : Bare draft.nodes.toList
  runs : openCounts marker draft.stack = if opened = 0 then [] else [opened]

namespace Draft
variable {draft : Draft} {marker : Marker} {opened count limit : Nat} {place : Position} {w : Weight}

theorem Owes.empty (marker : Marker) : Owes {} marker 0 := ⟨.empty, .nil, rfl⟩

theorem Owes.pushText (h : draft.Owes marker opened) (text : List Char) (span : Span) :
    (draft.pushText text span).Owes marker opened := by
  refine ⟨h.stacked.pushText text span, bare_pushText h.bare text span, ?_⟩
  rw [stack_pushText]
  exact h.runs

theorem Owes.openRun (h : draft.Owes marker 0) (hcount : 0 < count) (place : Position) :
    (draft.openRun marker count place).Owes marker count := by
  refine ⟨h.stacked.openRun place hcount, bare_openRun h.bare _ _ _, ?_⟩
  show openCounts marker (⟨marker, count, draft.nodes.size, place⟩ :: draft.stack) = _
  rw [openCounts_cons marker rfl, h.runs, if_pos rfl, if_neg (Nat.ne_of_gt hcount)]

/-- A run closes the one that is open. -/
theorem Owes.exists_closing? (h : draft.Owes marker opened) (hopened : 0 < opened) (count : Nat) :
    ∃ opener above below, draft.stack = above ++ opener :: below ∧ opener.marker = marker ∧
      opener.count = opened ∧ openCounts marker below = [] ∧
      draft.closing? marker count = (marker.used? opened count).map (opener, below, ·) := by
  have hruns := h.runs
  rw [if_neg (Nat.ne_of_gt hopened)] at hruns
  have hsplit := List.takeWhile_append_dropWhile (p := (·.marker != marker)) (l := draft.stack)
  rcases openCounts_cases marker draft.stack with ⟨-, hnone⟩ | ⟨opener, below, hdrop, hmarker, hcounts⟩
  · cases hnone.symm.trans hruns
  · obtain ⟨hcount, hbelow⟩ := List.cons.inj (hcounts.symm.trans hruns)
    refine ⟨opener, _, below, hdrop ▸ hsplit.symm, hmarker, hcount, hbelow, ?_⟩
    rw [closing?, hdrop]
    dsimp only
    rw [hcount]

theorem Owes.closing?_eq_none (h : draft.Owes marker 0) (count : Nat) :
    draft.closing? marker count = none := by
  rcases openCounts_cases marker draft.stack with ⟨hdrop, -⟩ | ⟨opener, below, -, -, hcounts⟩
  · rw [closing?, hdrop]
  · cases hcounts.symm.trans h.runs

/-- Closing an open run leaves what is not used. -/
theorem Owes.wrap (h : draft.Owes marker opened) {opener : Delimiter} {above below : List Delimiter}
    (hstack : draft.stack = above ++ opener :: below) (hmarker : opener.marker = marker)
    (hcount : opener.count = opened) (hbelow : openCounts marker below = []) (used : Nat)
    (stop : Position) : (draft.wrap opener below used stop).Owes marker (opened - used) := by
  have hopener : opener ∈ draft.stack := hstack ▸ List.mem_append_right above List.mem_cons_self
  have hcut := h.stacked.cut hstack
  have hindex : opener.index ≤ draft.nodes.size := Nat.le_of_lt (h.stacked.stands hopener).lt
  have hbare := bare_wrap h.stacked hopener h.bare below used stop
  subst hmarker hcount
  rcases Nat.lt_or_ge used opener.count with hlt | hle
  · have hleft : 0 < opener.count - used := Nat.sub_pos_of_lt hlt
    rw [wrap_of_lt hindex hlt] at hbare ⊢
    refine ⟨(hcut.openRun _ hleft).push _, hbare, ?_⟩
    have hcounts := openCounts_cons opener.marker (d := ⟨opener.marker,
      opener.count - used, (draft.cut opener below).nodes.size, opener.start⟩) rfl below
    rw [hbelow] at hcounts
    rw [if_neg (Nat.ne_of_gt hleft)]
    exact hcounts
  · rw [wrap_of_le hle] at hbare ⊢
    refine ⟨hcut.push _, hbare, ?_⟩
    rw [Nat.sub_eq_zero_of_le hle, if_pos rfl]
    exact hbelow

/-- A run and the one that is open use up two markers each while both have two, then one. -/
theorem used_cases {used : Nat} (hmarker : marker ≠ .tilde) (hopened : 0 < opened) (hcount : 0 < count)
    (h : marker.used? opened count = some used) : ∃ less fewer, opened = less + used ∧
      count = fewer + used ∧ (used = 2 ∨ used = 1 ∧ min less fewer = 0) := by
  have hused : used = if 2 ≤ opened && 2 ≤ count then 2 else 1 :=
    Option.some.inj (h.symm.trans (Marker.used?_of_ne_tilde hmarker ..))
  refine ⟨opened - used, count - used, ?_⟩
  by_cases hlong : 2 ≤ opened ∧ 2 ≤ count
  · obtain rfl : used = 2 := by simpa [hlong] using hused
    omega
  · obtain rfl : used = 1 := by simpa [hlong] using hused
    omega

/-- A run of markers and what is open cancel out. As many as both have are closed, and what the
draft weighs changes by that. -/
theorem Owes.resolveUpTo (h : draft.Owes marker opened) (hmarker : marker ≠ .tilde)
    (hlimit : count ≤ limit) (place : Position) :
    (resolveUpTo marker limit count place draft).Owes marker (Nat.dist opened count) ∧
      ∀ w : Weight, (resolveUpTo marker limit count place draft).weight w + w.ofRun marker opened =
        draft.weight w + w.ofRun marker (Nat.dist opened count) + w.ofClosed (min opened count) := by
  induction limit generalizing count place draft opened with
  | zero =>
    obtain rfl := Nat.le_zero.1 hlimit
    rw [Nat.dist_zero_right, Nat.min_zero]
    exact ⟨h, fun w => by rw [w.ofClosed_zero]; rfl⟩
  | succ limit ih =>
    unfold Draft.resolveUpTo
    rcases Nat.eq_zero_or_pos count with rfl | hcount
    · rw [if_pos rfl, Nat.dist_zero_right, Nat.min_zero]
      exact ⟨h, fun w => by rw [w.ofClosed_zero]; rfl⟩
    rw [if_neg (Nat.ne_of_gt hcount)]
    rcases Nat.eq_zero_or_pos opened with rfl | hopened
    · rw [h.closing?_eq_none, Nat.dist_zero_left, Nat.zero_min]
      refine ⟨h.openRun hcount place, fun w => ?_⟩
      rw [w.ofClosed_zero, w.ofRun_zero]
      exact weight_openRun ..
    obtain ⟨opener, above, below, hstack, hopener, hopenerCount, hbelow, hclosing⟩ :=
      h.exists_closing? hopened count
    obtain ⟨used, hused⟩ : ∃ used, marker.used? opened count = some used :=
      ⟨_, Marker.used?_of_ne_tilde hmarker ..⟩
    -- What a round uses comes off both counts, so their distance stays.
    obtain ⟨less, fewer, rfl, rfl, hpair⟩ := used_cases hmarker hopened hcount hused
    rw [hclosing, hused, Option.map_some]
    dsimp only
    generalize place.advance (marker.run used) = stop
    have hwrap := h.wrap hstack hopener hopenerCount hbelow used stop
    have hmem : opener ∈ draft.stack := hstack ▸ List.mem_append_right above List.mem_cons_self
    have hweight (w : Weight) := weight_wrap h.stacked hmem below used stop w
    have hfewer : fewer ≤ limit :=
      Nat.le_of_lt_succ (Nat.lt_of_lt_of_le (Nat.lt_add_of_pos_right (used_pos hused)) hlimit)
    rw [hopener, hopenerCount] at hweight
    rw [Nat.add_sub_cancel] at hwrap hweight ⊢
    obtain ⟨howes, hrest⟩ := ih hwrap hfewer stop
    rw [Nat.dist_add_add_right, Nat.add_min_add_right]
    refine ⟨howes, fun w => ?_⟩
    have hfirst := hweight w
    have hothers := hrest w
    rw [Weight.ofClosed_add hmarker hpair]
    omega

theorem Owes.resolve (h : draft.Owes marker opened) (hmarker : marker ≠ .tilde) (count : Nat)
    (place : Position) : (draft.resolve marker count place).Owes marker (Nat.dist opened count) ∧
      ∀ w : Weight, (draft.resolve marker count place).weight w + w.ofRun marker opened =
        draft.weight w + w.ofRun marker (Nat.dist opened count) + w.ofClosed (min opened count) :=
  h.resolveUpTo hmarker (Nat.le_refl count) place

end Draft

/-! ### Lines of words and runs -/

/-- A word, and runs of a marker with a word behind each. -/
def writeRuns (marker : Marker) (first : List Char) (runs : List (Nat × List Char)) : List Char :=
  first ++ runs.flatMap fun run => marker.run run.1 ++ run.2

/-- The words are letters and digits, the runs have a marker, and no two runs touch. -/
structure PlainRuns (first : List Char) (runs : List (Nat × List Char)) : Prop where
  words : ∀ word ∈ first :: runs.map Prod.snd, ∀ c ∈ word, isAlphanumeric c = true
  counts : ∀ run ∈ runs, 0 < run.1
  between : ∀ run ∈ runs.dropLast, run.2 ≠ []

theorem isAlphanumeric_char (marker : Marker) : isAlphanumeric marker.char = false := by
  cases marker <;> decide

theorem isSpecial_char (marker : Marker) : isSpecial marker.char = true := by
  cases marker <;> rfl

theorem writeRuns_cons (marker : Marker) (first : List Char) (count : Nat) (word : List Char)
    (runs : List (Nat × List Char)) : writeRuns marker first ((count, word) :: runs) =
      first ++ (marker.run count ++ writeRuns marker word runs) := by
  rw [writeRuns, List.flatMap_cons, writeRuns, List.append_assoc]

theorem head?_run (marker : Marker) {count : Nat} (h : 0 < count) (tail : List Char) :
    ∀ c ∈ (marker.run count ++ tail).head?, isSpecial c = true := by
  intro c hc
  obtain ⟨n, rfl⟩ : ∃ n, count = n + 1 := ⟨count - 1, (Nat.succ_pred_eq_of_pos h).symm⟩
  obtain rfl : marker.char = c := Option.some.inj hc
  exact isSpecial_char marker

section Reading
variable {marker : Marker} {first word tail : List Char} {count opened : Nat}
  {runs : List (Nat × List Char)}

theorem PlainRuns.behind (h : PlainRuns first ((count, word) :: runs)) :
    0 < count ∧ PlainRuns word runs := by
  refine ⟨h.counts _ List.mem_cons_self, fun w hw => h.words w (List.mem_cons_of_mem _ hw),
    fun run hrun => h.counts run (List.mem_cons_of_mem _ hrun), fun run hrun => h.between run ?_⟩
  cases runs with
  | nil => cases hrun
  | cons => exact List.mem_cons_of_mem _ hrun

/-- Behind a run there is no more of its marker. -/
theorem PlainRuns.head?_ne (h : PlainRuns first ((count, word) :: runs)) (marker : Marker) :
    (writeRuns marker word runs).head? ≠ some marker.char := by
  cases word with
  | nil =>
    cases runs with
    | nil => exact nofun
    | cons => exact absurd rfl (h.between _ List.mem_cons_self)
  | cons c word =>
    have hc := h.words _ (List.mem_cons_of_mem _ List.mem_cons_self) c List.mem_cons_self
    intro hhead
    exact ne_of_isAlphanumeric hc (isAlphanumeric_char marker) (Option.some.inj hhead)

variable {inner : Option ParseContent} {draft : Draft} {c : Cursor} {start : Position} {before : Option Char}

/-- Among words and runs there are letters, digits and markers only. -/
theorem PlainRuns.not_mem (h : PlainRuns first runs) {marker : Marker} {d : Char}
    (hd : isAlphanumeric d = false) (hmarker : d ≠ marker.char) : d ∉ writeRuns marker first runs := by
  have hword {word : List Char} (hword : word ∈ first :: runs.map Prod.snd) : d ∉ word :=
    fun hmem => ne_of_isAlphanumeric (h.words word hword _ hmem) hd rfl
  intro hmem
  rcases List.mem_append.1 hmem with hmem | hmem
  · exact hword List.mem_cons_self hmem
  · obtain ⟨run, hrun, hmem⟩ := List.mem_flatMap.1 hmem
    rcases List.mem_append.1 hmem with hmem | hmem
    · exact hmarker (List.eq_of_mem_replicate hmem)
    · exact hword (List.mem_cons_of_mem _ (List.mem_map_of_mem hrun)) hmem

theorem PlainRuns.newline_not_mem (h : PlainRuns first runs) (marker : Marker) :
    '\n' ∉ writeRuns marker first runs :=
  h.not_mem (by decide) (by cases marker <;> decide)

/-- A word goes to the draft as text. -/
theorem steps_word (parser : InlineParser) (hinner : ∀ parse ∈ inner, parse.Orderly)
    (h : c.Faces start before (word ++ tail)) (hne : word ≠ [])
    (hword : ∀ ch ∈ word, isAlphanumeric ch = true) (htail : ∀ ch ∈ tail.head?, isSpecial ch = true)
    (draft : Draft) :
    parser.steps inner lineStop c.remaining draft c = parser.steps inner lineStop c.advance.remaining
        (draft.pushText word (Span.covering start word)) c.advance ∧
      c.advance.Faces (start.advance word) word.getLast? tail := by
  have hread := readAs_word hne hword htail before
  have hpeek := h.peek hread
  rw [text_word hword] at hpeek
  have hgo : stopsAt lineStop c ⟨.text, word, ⟨start, start.advance word⟩⟩ = false := by
    rw [stopsAt, h.abandoned]
    rfl
  refine ⟨?_, h.advance hread⟩
  rw [steps_step hinner hpeek hgo]
  rfl

theorem exists_steps_word (parser : InlineParser) (hinner : ∀ parse ∈ inner, parse.Orderly)
    (h : c.Faces start before (word ++ tail)) (hword : ∀ ch ∈ word, isAlphanumeric ch = true)
    (htail : ∀ ch ∈ tail.head?, isSpecial ch = true) (howes : draft.Owes marker opened) :
    ∃ draft' c' start' before', parser.steps inner lineStop c.remaining draft c =
        parser.steps inner lineStop c'.remaining draft' c' ∧
      Cursor.Faces c' start' before' tail ∧ draft'.Owes marker opened ∧
      ∀ w : Weight, draft'.weight w = draft.weight w + w.of (.text word) := by
  by_cases hne : word = []
  · subst hne
    exact ⟨draft, c, start, before, rfl, h, howes, fun w => by rw [w.nil]; rfl⟩
  · obtain ⟨hsteps, hfaces⟩ := steps_word parser hinner h hne hword htail draft
    exact ⟨_, _, _, _, hsteps, hfaces, howes.pushText word _, fun w => Draft.weight_pushText ..⟩

/-- A run of markers is passed as a whole. -/
theorem steps_run (parser : InlineParser) (hinner : ∀ parse ∈ inner, parse.Orderly)
    (h : c.Faces start before (marker.run count ++ tail)) (hcount : 0 < count)
    (htail : tail.head? ≠ some marker.char) (draft : Draft) :
    parser.steps inner lineStop c.remaining draft c =
      parser.steps inner lineStop ({ c with position := c.position + count } : Cursor).remaining
        (parser.delimiterRun marker draft c).1 { c with position := c.position + count } := by
  obtain ⟨token, hpeek, hkind⟩ := h.peek_run hcount
  obtain ⟨_, _, -, -, hrun⟩ := h.exists_runDraft parser hcount htail draft
  have hgo : stopsAt lineStop c token = false := by
    rw [stopsAt, h.abandoned, Token.isEof, hkind]
    cases marker <;> rfl
  rw [steps_step hinner hpeek hgo, step_of_marker _ _ hkind, hrun]

/-- Over a line of words and runs, what runs close is added up, and the rest of it stays text. -/
theorem exists_steps_runs (parser : InlineParser) (hinner : ∀ parse ∈ inner, parse.Orderly)
    (hmarker : marker ≠ .tilde)
    (hruns : PlainRuns first runs) (h : c.Faces start before (writeRuns marker first runs))
    (howes : draft.Owes marker opened) :
    ∃ draft' c' start' before',
      parser.steps inner lineStop c.remaining draft c = (draft', c') ∧
      Cursor.Faces c' start' before' [] ∧
      draft'.Owes marker (leftOpen opened (runs.map Prod.fst)) ∧
      ∀ w : Weight, draft'.weight w + w.ofRun marker opened =
        draft.weight w + w.ofRun marker (leftOpen opened (runs.map Prod.fst)) +
          ((closedBy opened (runs.map Prod.fst)).map w.ofClosed).sum +
          ((first :: runs.map Prod.snd).map fun word => w.of (.text word)).sum := by
  have hfirst := hruns.words first List.mem_cons_self
  induction runs generalizing first draft c start before opened with
  | nil =>
    obtain ⟨draft', c', start', before', hsteps, hfaces, howes', hweight⟩ :=
      exists_steps_word parser hinner h hfirst (by simp) howes
    refine ⟨draft', c', start', before', ?_, hfaces, howes', fun w => ?_⟩
    · rw [hsteps]
      exact steps_of_stopsAt hfaces.peek_nil rfl _ _
    · rw [hweight]
      simp [leftOpen, closedBy]
      omega
  | cons run runs ih =>
    obtain ⟨count, word⟩ := run
    obtain ⟨hcount, hbehind⟩ := hruns.behind
    rw [writeRuns_cons] at h
    obtain ⟨draft₁, c₁, start₁, before₁, hsteps₁, hfaces₁, howes₁, hweight₁⟩ :=
      exists_steps_word parser hinner h hfirst (head?_run marker hcount _) howes
    obtain ⟨howes₂, hweight₂⟩ := howes₁.resolve hmarker count start₁
    obtain ⟨draft', c', start', before', hsteps, hfaces, howes', hweight⟩ :=
      ih hbehind (hfaces₁.pass_run count) howes₂ (hbehind.words word List.mem_cons_self)
    refine ⟨draft', c', start', before', ?_, hfaces, howes', fun w => ?_⟩
    · have hrun := hfaces₁.delimiterRun parser hcount (hruns.head?_ne marker)
        (fun htilde => absurd htilde hmarker) draft₁
      rw [hsteps₁, steps_run parser hinner hfaces₁ hcount (hruns.head?_ne marker), hrun, hsteps]
    · have hword := hweight₁ w
      have hrun := hweight₂ w
      have hrest := hweight w
      simp only [List.map_cons, List.sum_cons, leftOpen, closedBy] at hrest ⊢
      omega

/-- The trees of a line of words and runs. -/
theorem exists_line_runs (options : InlineOptions) (hmarker : marker ≠ .tilde)
    (hruns : PlainRuns first runs) :
    ∃ draft : Draft, (parseMarkdown (writeRuns marker first runs) options).root.children =
        draft.finish ∧
      Bare draft.nodes.toList ∧ ∀ w : Weight, draft.weight w =
        w.ofRun marker (leftOpen 0 (runs.map Prod.fst)) +
          ((closedBy 0 (runs.map Prod.fst)).map w.ofClosed).sum +
          ((first :: runs.map Prod.snd).map fun word => w.of (.text word)).sum := by
  let parser : InlineParser := { options }
  let c : Cursor := { tokens := (tokenize (writeRuns marker first runs)).toArray }
  have hfaces : c.Faces {} none (writeRuns marker first runs) :=
    ⟨rfl, IndexSet.contains_empty, rfl⟩
  obtain ⟨draft, c', _, _, hsteps, -, howes, hweight⟩ :=
    exists_steps_runs parser (parser.inside_orderly 64) hmarker hruns hfaces (.empty marker)
  have hchildren : _ = (parser.steps (parser.inside 64) lineStop c.remaining {} c).1.finish :=
    children_of_steps options (hruns.newline_not_mem marker)
  rw [hsteps] at hchildren
  refine ⟨draft, hchildren, howes.bare, fun w => ?_⟩
  have hsum := hweight w
  rw [w.ofRun_zero, Nat.add_zero] at hsum
  rw [hsum, show Draft.weight {} w = 0 from rfl, Nat.zero_add]

/-- In a line of words and runs of asterisks or underscores, the markers that runs close make strong
emphasis in twos and emphasis of what is left over, and those that stay open are text. -/
theorem parseMarkdown_runs (options : InlineOptions) (hmarker : marker ≠ .tilde)
    (h : PlainRuns first runs) :
    let root := (parseMarkdown (writeRuns marker first runs) options).root
    let counts := runs.map Prod.fst
    root.descendants.countP (·.kind == .strong) = ((closedBy 0 counts).map (· / 2)).sum ∧
      root.descendants.countP (·.kind == .emphasis) = ((closedBy 0 counts).map (· % 2)).sum ∧
      root.textContent.count marker.char = leftOpen 0 counts := by
  intro root counts
  obtain ⟨draft, hchildren, hbare, hweight⟩ := exists_line_runs options hmarker h
  have htotal (w : Weight) : w.total root.children = w.ofRun marker (leftOpen 0 counts) +
      ((closedBy 0 counts).map w.ofClosed).sum +
      ((first :: runs.map Prod.snd).map fun word => w.of (.text word)).sum := by
    rw [← hweight, ← Draft.weight_finish hbare]
    exact congrArg w.total hchildren
  have hnodes (kind : NodeKind) (hkind : ∀ text, kind ≠ .text text) :
      root.descendants.countP (·.kind == kind) =
        ((closedBy 0 counts).map (Weight.nodes kind hkind).ofClosed).sum := by
    -- What stays open and the words are texts.
    rw [root.descendants_eq, ← Weight.total_nodes hkind, htotal, Weight.ofRun, Weight.nodes_text,
      Weight.sum_texts_eq_zero fun word _ => Weight.nodes_text hkind word, Nat.zero_add, Nat.add_zero]
  have hchars : root.textContent.count marker.char = (Weight.chars marker.char).total root.children := by
    have hkind : root.kind = .document := parseMarkdown_kind _ options
    rw [Weight.total_chars]
    clear_value root
    obtain ⟨kind, span, children⟩ := root
    obtain rfl : kind = .document := hkind
    rfl
  refine ⟨?_, ?_, ?_⟩
  · rw [hnodes .strong nofun, Weight.ofClosed_strong]
  · rw [hnodes .emphasis nofun, Weight.ofClosed_emphasis]
  · have hwords : ∀ word ∈ first :: runs.map Prod.snd,
        (Weight.chars marker.char).of (.text word) = 0 := by
      intro word hword
      apply List.count_eq_zero.2
      intro hmem
      exact Bool.false_ne_true ((isAlphanumeric_char marker).symm.trans (h.words word hword _ hmem))
    have hopen : (Weight.chars marker.char).ofRun marker (leftOpen 0 counts) = leftOpen 0 counts :=
      List.count_replicate_self
    rw [hchars, htotal, Weight.sum_texts_eq_zero hwords, Weight.ofClosed_chars, hopen,
      List.sum_eq_zero_iff_forall_eq_nat.2 (by simp)]
    rfl

theorem parseMarkdown_runs_reopened :
    let root := (parseMarkdown "**a*b****".toList {}).root
    Marker.asterisk ≠ .tilde ∧ PlainRuns [] [(2, ['a']), (1, ['b']), (4, [])] ∧
      root.descendants.countP (·.kind == .strong) = 0 ∧
      root.descendants.countP (·.kind == .emphasis) = 2 ∧ root.textContent.count '*' = 3 := by
  intro root
  have hmarker : Marker.asterisk ≠ .tilde := nofun
  have hwords : [[], ['a'], ['b'], []].all (·.all isAlphanumeric) = true := by decide
  have hruns : PlainRuns [] [(2, ['a']), (1, ['b']), (4, [])] :=
    ⟨fun word hword => List.all_eq_true.1 (List.all_eq_true.1 hwords word hword), by decide, by decide⟩
  have hwritten : writeRuns .asterisk [] [(2, ['a']), (1, ['b']), (4, [])] = "**a*b****".toList := by
    decide
  have hparsed := parseMarkdown_runs {} hmarker hruns
  rw [hwritten] at hparsed
  exact ⟨hmarker, hruns, hparsed⟩

end Reading

end InlineMarkdown
