import InlineMarkdown.Proofs.Ledger

/-! A word between two runs.

In front of the word the first run is open, and the second closes it round by round
(`Draft.resolveUpTo_around`). A round wraps what is behind the open run and takes as many markers
off either side, so the draft looks the same after it, with one more node around the word
(`Draft.around`): asterisks and underscores go in twos until one side has no two left, and
tildes all at once. What is left of the longer run stays as text, in front of the nest or behind
it (`Encloses`). Tildes that mean nothing are text from the start, and so is then the whole line. -/
namespace InlineMarkdown
open InlineParser

/-! ### Nests -/

/-- A text of so many markers, unless there are none. -/
def leftover (marker : Marker) (count : Nat) (span : Span) : List Node :=
  if count = 0 then [] else [Node.ofText (marker.run count) span]

/-- The node in the nest of so many markers: once in strong emphasis for every two, and around all
that in emphasis if one is left over. -/
def Node.enclose (count : Nat) (node : Node) : Node :=
  let strong := (fun inner : Node => (⟨.strong, {}, [inner]⟩ : Node))^[count / 2] node
  if count % 2 = 1 then ⟨.emphasis, {}, [strong]⟩ else strong

variable {options : InlineOptions} {marker : Marker} {n m used limit left right count : Nat}
  {place here : Position} {span : Span} {node : Node} {nodes : List Node}

/-- The innermost node of a nest is that of the first pair. -/
theorem Node.enclose_add (node : Node) (hmarker : marker ≠ .tilde)
    (hused : used = 2 ∨ used = 1 ∧ count = 0) :
    node.enclose (count + used) = Node.enclose count ⟨marker.wrapper used, {}, [node]⟩ := by
  rw [Marker.wrapper_of_ne_tilde hmarker]
  rcases hused with rfl | ⟨rfl, rfl⟩
  · unfold Node.enclose
    rw [if_pos (Nat.le_refl 2), Nat.add_div_right _ Nat.two_pos, Nat.add_mod_right,
      Function.iterate_succ_apply]
  · rfl

/-- A nest of markers is no text. -/
theorem Node.enclose_isText (node : Node) (hcount : 0 < count) : (node.enclose count).isText = false := by
  unfold enclose
  dsimp only
  split
  · rfl
  · rename_i heven
    obtain ⟨half, hhalf⟩ : ∃ half, count / 2 = half + 1 := ⟨count / 2 - 1, by omega⟩
    rw [hhalf, Function.iterate_succ_apply']
    rfl

theorem shapes_leftover (marker : Marker) (count : Nat) (span : Span) :
    shapes (leftover marker count span) = leftover marker count {} := by
  unfold leftover
  split <;> rfl

theorem separate_leftover (marker : Marker) (count : Nat) (span : Span) :
    Separate (leftover marker count span) := by
  unfold leftover
  split
  · exact .nil
  · exact separate_cons.2 ⟨nofun, .nil, .nil⟩

/-- The nodes are one of this shape, with what is left of a run on either side. -/
def Encloses (marker : Marker) (left : Nat) (shape : Node) (right : Nat) (nodes : List Node) : Prop :=
  ∃ front node behind, nodes = leftover marker left front ++ node :: leftover marker right behind ∧
    node.shape = shape ∧ Separate [node]

/-- What is left of the runs is not joined to a node between them that is no text. -/
theorem Encloses.coalesce {shape : Node} (h : Encloses marker left shape right nodes)
    (hshape : shape.isText = false) :
    shapes (coalesce nodes) = leftover marker left {} ++ shape :: leftover marker right {} := by
  obtain ⟨front, node, behind, rfl, rfl, hnode⟩ := h
  have hplain : node.isText = false := by rwa [node.shape_eq] at hshape
  have hrest : Separate (node :: leftover marker right behind) :=
    separate_cons.2 ⟨fun _ _ => .inl hplain, (separate_cons.1 hnode).2.1, separate_leftover ..⟩
  have hall := (separate_leftover marker left front).append hrest fun next hnext => by
    obtain rfl := Option.some.inj hnext
    exact hplain
  rw [hall.tidy.coalesce, shapes_append, shapes_cons, shapes_leftover, shapes_leftover]

/-! ### Rounds -/

namespace Draft

/-- One node, and in front of it an open run of so many markers, if there are any. -/
def around (marker : Marker) (count : Nat) (place : Position) (node : Node) : Draft :=
  if count = 0 then push {} node else (openRun {} marker count place).push node

theorem nodes_around (marker : Marker) (count : Nat) (place : Position) (node : Node) :
    (around marker count place node).nodes.toList =
      leftover marker count (Span.covering place (marker.run count)) ++ [node] := by
  unfold around leftover
  split <;> rfl

theorem around_of_pos (hcount : 0 < count) :
    around marker count place node = (openRun {} marker count place).push node :=
  if_neg (Nat.ne_of_gt hcount)

theorem closing?_around (hn : 0 < n) (m : Nat) : (around marker n place node).closing? marker m =
    (marker.used? n m).map (⟨marker, n, 0, place⟩, [], ·) := by
  rw [around_of_pos hn]
  unfold closing?
  rw [show (((openRun {} marker n place).push node).stack.dropWhile (·.marker != marker)) =
    [⟨marker, n, 0, place⟩] from List.dropWhile_cons_of_neg (by simp)]

/-- Closing the run wraps the node and leaves a draft of the same form. -/
theorem wrap_around (hn : 0 < n) (hused : used ≤ n) (stop : Position) :
    (around marker n place node).wrap ⟨marker, n, 0, place⟩ [] used stop =
      around marker (n - used) place
        ⟨marker.wrapper used, ⟨place.advance (marker.run (n - used)), stop⟩, [node]⟩ := by
  rw [around_of_pos hn]
  have hcut : ((openRun {} marker n place).push node).cut ⟨marker, n, 0, place⟩ [] = {} := by
    simp [cut, push, openRun]
  rcases Nat.lt_or_ge used n with hlt | hge
  · rw [wrap_of_lt (Nat.zero_le _) hlt, hcut, around_of_pos (Nat.sub_pos_of_lt hlt)]
    rfl
  · obtain rfl := Nat.le_antisymm hused hge
    rw [wrap_of_le (Nat.le_refl _), hcut, Nat.sub_self]
    rfl

/-- In a round both runs lose what the pair uses up. -/
theorem resolveUpTo_around (hn : 0 < n) (hm : 0 < m) (hused : marker.used? n m = some used)
    (limit : Nat) (here : Position) :
    let stop := here.advance (marker.run used)
    resolveUpTo marker (limit + 1) m here (around marker n place node) =
      resolveUpTo marker limit (m - used) stop (around marker (n - used) place
        ⟨marker.wrapper used, ⟨place.advance (marker.run (n - used)), stop⟩, [node]⟩) := by
  intro stop
  have hle := (used_le hused hn hm).2.1
  conv => lhs; unfold resolveUpTo
  rw [if_neg (Nat.ne_of_gt hm), closing?_around hn, hused, Option.map_some]
  dsimp only
  rw [wrap_around hn hle]

/-- When one run is used up, what is left of the other stays. -/
theorem encloses_of_used_up (hlimit : m ≤ limit) (hend : n = 0 ∨ m = 0) (here : Position)
    (hnode : Separate [node]) : Encloses marker n node.shape m
      (resolveUpTo marker limit m here (around marker n place node)).nodes.toList := by
  refine ⟨Span.covering place (marker.run n), node, Span.covering here (marker.run m), ?_, rfl, hnode⟩
  have hnodes := nodes_around marker n place node
  rcases Nat.eq_zero_or_pos m with rfl | hm
  · have hdone : resolveUpTo marker limit 0 here (around marker n place node) =
        around marker n place node := by
      cases limit <;> rfl
    rw [hdone, hnodes]
    rfl
  · obtain rfl : n = 0 := hend.resolve_right (Nat.ne_of_gt hm)
    obtain ⟨limit, rfl⟩ : ∃ less, limit = less + 1 := ⟨limit - 1, by omega⟩
    unfold resolveUpTo
    rw [if_neg (Nat.ne_of_gt hm)]
    show ((around marker 0 place node).openRun marker m here).nodes.toList = _
    unfold leftover
    rw [if_neg (Nat.ne_of_gt hm)]
    rfl

/-- Asterisks and underscores close each other in twos, then one. -/
theorem encloses_emphasis (hmarker : marker ≠ .tilde) (hlimit : m ≤ limit) (hnode : Separate [node]) :
    Encloses marker (n - min n m) (node.shape.enclose (min n m)) (m - min n m)
      (resolveUpTo marker limit m here (around marker n place node)).nodes.toList := by
  induction limit generalizing n m here node with
  | zero =>
    obtain rfl := Nat.le_zero.1 hlimit
    rw [Nat.min_zero]
    exact encloses_of_used_up hlimit (.inr rfl) here hnode
  | succ limit ih =>
    by_cases hend : n = 0 ∨ m = 0
    · have hmin : min n m = 0 := by omega
      rw [hmin]
      exact encloses_of_used_up hlimit hend here hnode
    · have hn : 0 < n := by omega
      have hm : 0 < m := by omega
      obtain ⟨used, hused⟩ : ∃ used, marker.used? n m = some used :=
        ⟨_, Marker.used?_of_ne_tilde hmarker ..⟩
      rw [resolveUpTo_around hn hm hused]
      have hpos := used_pos hused
      -- What the round uses comes off both runs, so their minimum loses as much.
      obtain ⟨less, fewer, rfl, rfl, hpair⟩ := used_cases hmarker hn hm hused
      simp only [Nat.add_sub_cancel, Nat.add_min_add_right, Nat.add_sub_add_right]
      rw [Node.enclose_add _ hmarker hpair]
      exact ih (by omega) (separate_cons.2 ⟨nofun, hnode, .nil⟩)

/-- Tildes close each other all at once. -/
theorem encloses_strike (hn : 2 ≤ n) (hm : 2 ≤ m) (hlimit : m ≤ limit) (hnode : Separate [node]) :
    Encloses .tilde (n - min n m) ⟨.strike, {}, [node.shape]⟩ (m - min n m)
      (resolveUpTo .tilde limit m here (around .tilde n place node)).nodes.toList := by
  obtain ⟨limit, rfl⟩ : ∃ less, limit = less + 1 := ⟨limit - 1, by omega⟩
  have hused : Marker.tilde.used? n m = some (min n m) := by
    unfold Marker.used?
    simp [Nat.not_lt.2 hn, Nat.not_lt.2 hm]
  rw [resolveUpTo_around (by omega) (by omega) hused]
  exact encloses_of_used_up (by omega) (by omega) _ (separate_cons.2 ⟨nofun, hnode, .nil⟩)

/-! ### Tildes that are text -/

/-- There is nothing but text so far. -/
def Literal (draft : Draft) : Prop := ∀ node ∈ draft.nodes.toList, node.isText = true

variable {draft : Draft}

theorem Literal.push (h : draft.Literal) (hnode : node.isText = true) : (draft.push node).Literal := by
  intro other hother
  unfold Draft.push at hother
  rw [Array.toList_push] at hother
  rcases List.mem_append.1 hother with hother | hother
  · exact h other hother
  · exact List.mem_singleton.1 hother ▸ hnode

theorem Literal.pushText (h : draft.Literal) (text : List Char) (span : Span) :
    (draft.pushText text span).Literal := by
  rcases pushText_cases draft text span with hpush | ⟨last, joined, -, hlast, hjoined, hpush⟩ <;>
    rw [hpush]
  · exact h.push rfl
  · have htext : joined.isText = true := by
      obtain ⟨kind, span, children⟩ := last
      cases kind <;> cases hjoined
      rfl
    intro other hother
    rw [Array.toList_push] at hother
    rcases List.mem_append.1 hother with hother | hother
    · refine h other ?_
      rw [Array.toList_pop] at hother
      exact List.mem_of_mem_dropLast hother
    · exact List.mem_singleton.1 hother ▸ htext

/-- Text in front of text stays text when a run is opened or is text itself. -/
theorem Literal.runDraft (h : draft.Literal) (first : Token Kind) {rest : List (Token Kind)}
    (hrun : draft.stack = [] ∨
      marker = .tilde ∧ (rest.length + 1 < 2 ∨ options.strikethrough = false)) :
    (runDraft options marker first rest draft).Literal := by
  unfold InlineParser.runDraft
  dsimp only
  split
  · exact h.pushText _ _
  · rename_i hresolved
    have hstack : draft.stack = [] := by
      refine hrun.resolve_right fun ⟨htilde, hmeans⟩ => hresolved ?_
      rcases hmeans with hshort | hoff
      · simp [htilde, hshort]
      · simp [htilde, hoff]
    rw [resolve_open (by simp [hstack]) (Nat.succ_pos _)]
    exact h.push rfl

end Draft

/-! ### The line -/

section Line
variable {word : List Char}

theorem plainRuns_enclosed (hne : word ≠ []) (hword : ∀ c ∈ word, isAlphanumeric c = true)
    (hn : 0 < n) (hm : 0 < m) : PlainRuns [] [(n, word), (m, [])] where
  words := by simpa using hword
  counts := by simp [hn, hm]
  between := by simpa using hne

theorem writeRuns_enclosed (marker : Marker) (n m : Nat) (word : List Char) :
    writeRuns marker [] [(n, word), (m, [])] = marker.run n ++ word ++ marker.run m := by
  simp [writeRuns]

/-- A word between two runs: the first run goes to the draft, then the word, then the second run,
each as a whole. -/
theorem exists_runDrafts (options : InlineOptions) (marker : Marker) (hne : word ≠ [])
    (hword : ∀ c ∈ word, isAlphanumeric c = true) (hn : 0 < n) (hm : 0 < m) :
    ∃ first rest place last others, rest.length + 1 = n ∧ others.length + 1 = m ∧
      (parseMarkdown (marker.run n ++ word ++ marker.run m) options).root.children =
        (runDraft options marker last others
          ((runDraft options marker first rest {}).pushText word place)).finish := by
  let parser : InlineParser := { options }
  have hinner := parser.inside_orderly 64
  have hruns := plainRuns_enclosed hne hword hn hm
  rw [← writeRuns_enclosed]
  let c : Cursor := { tokens := (tokenize (writeRuns marker [] [(n, word), (m, [])])).toArray }
  have hopen : c.Faces {} none (marker.run n ++ writeRuns marker word [(m, [])]) := by
    rw [← List.nil_append (marker.run n ++ _), ← writeRuns_cons]
    exact ⟨rfl, IndexSet.contains_empty, rfl⟩
  -- Neither run has another marker of its kind behind it, so each is read to its end.
  have hfirst := hruns.head?_ne marker
  obtain ⟨first, rest, -, hrest, hrun₁⟩ := hopen.exists_runDraft parser hn hfirst {}
  have hbehind := hopen.pass_run n
  rw [writeRuns_cons] at hbehind
  let place : Span := Span.covering (Position.advance {} (marker.run n)) word
  let draft : Draft := (runDraft options marker first rest {}).pushText word place
  obtain ⟨hsteps, hclose⟩ := steps_word parser hinner hbehind hne hword (head?_run marker hm _)
    (runDraft options marker first rest {})
  have hlast := hruns.behind.2.head?_ne marker
  obtain ⟨last, others, -, hothers, hrun₂⟩ := hclose.exists_runDraft parser hm hlast draft
  have hend := (hclose.pass_run m).peek_nil
  refine ⟨first, rest, place, last, others, hrest, hothers, ?_⟩
  rw [children_of_steps options (hruns.newline_not_mem marker)]
  refine congrArg Draft.finish ?_
  calc (parser.steps (parser.inside 64) lineStop c.remaining {} c).1
      = (parser.steps (parser.inside 64) lineStop _ (runDraft options marker last others draft) _).1 := by
        rw [steps_run parser hinner hopen hn hfirst, hrun₁, hsteps,
          steps_run parser hinner hclose hm hlast, hrun₂]
    _ = runDraft options marker last others draft :=
        congrArg Prod.fst (steps_of_stopsAt hend rfl _ _)

/-- Where the runs mean something, the second closes the one in front of the word. -/
theorem exists_around (options : InlineOptions) (hne : word ≠ [])
    (hword : ∀ c ∈ word, isAlphanumeric c = true) (hn : 0 < n) (hm : 0 < m)
    (htilde : marker = .tilde → n ≠ 1 ∧ m ≠ 1 ∧ options.strikethrough = true) :
    ∃ place here span, (parseMarkdown (marker.run n ++ word ++ marker.run m) options).root.children =
      coalesce (Draft.resolveUpTo marker m m here
        (Draft.around marker n place (Node.ofText word span))).nodes.toList := by
  obtain ⟨first, rest, span, last, others, rfl, rfl, hchildren⟩ :=
    exists_runDrafts options marker hne hword hn hm
  have hfirst : runDraft options marker first rest {} =
      Draft.resolve {} marker (rest.length + 1) first.span.start :=
    runDraft_eq_resolve (fun h => ⟨(htilde h).1, (htilde h).2.2⟩) {}
  have hlast (draft : Draft) : runDraft options marker last others draft =
      draft.resolve marker (others.length + 1) last.span.start :=
    runDraft_eq_resolve (fun h => (htilde h).2) draft
  refine ⟨first.span.start, last.span.start, span, ?_⟩
  rw [hchildren, hlast, hfirst, Draft.resolve_open (by simp) hn,
    Draft.parted_openRun {} marker (rest.length + 1) first.span.start, Draft.around_of_pos hn]
  rfl

/-- Tildes that do not mean anything are text, and so is the whole line. -/
theorem children_of_tildes {source : List Char}
    (hsource : Marker.tilde.run n ++ word ++ Marker.tilde.run m = source) (hne : word ≠ [])
    (hword : ∀ c ∈ word, isAlphanumeric c = true) (hn : 0 < n) (hm : 0 < m)
    (htext : options.strikethrough = false ∨ n = 1 ∨ m = 1) :
    (parseMarkdown source options).root.children = [Node.ofText source (Span.covering {} source)] := by
  have hdrafts := exists_runDrafts options .tilde hne hword hn hm
  rw [hsource] at hdrafts
  obtain ⟨first, rest, span, last, others, rfl, rfl, hchildren⟩ := hdrafts
  have hempty : Draft.Literal {} := nofun
  have hfront : (runDraft options .tilde first rest {}).Literal := hempty.runDraft first (.inl rfl)
  have hbehind := hfront.pushText word span
  have hlast : ((runDraft options .tilde first rest {}).pushText word span).stack = [] ∨
      Marker.tilde = .tilde ∧ (others.length + 1 < 2 ∨ options.strikethrough = false) := by
    rcases htext with hoff | hone | hone
    · exact .inr ⟨rfl, .inr hoff⟩
    -- A single tilde in front of the word is text, so the run behind it finds nothing open.
    · left
      rw [Draft.stack_pushText, runDraft, if_pos (by simp [hone]), Draft.stack_pushText]
    · exact .inr ⟨rfl, .inl (by omega)⟩
  have htexts : ∀ node ∈ (parseMarkdown source options).root.children, node.isText = true := by
    rw [hchildren]
    exact coalesce_isText (hbehind.runDraft last hlast)
  have hruns := plainRuns_enclosed hne hword hn hm
  have hline := hruns.newline_not_mem .tilde
  have hescape : '\\' ∉ writeRuns .tilde [] [(_, word), (_, [])] := hruns.not_mem (by decide) (by decide)
  rw [writeRuns_enclosed, hsource] at hline hescape
  have hsome : source ≠ [] := by
    rw [← hsource]
    simp [hne]
  rw [children_of_isText options hline htexts, texts_of_not_mem hescape, if_neg hsome]

/-- Asterisks and underscores become the nest of as many markers as both runs have. -/
theorem shapes_of_emphasis (options : InlineOptions) (hmarker : marker ≠ .tilde) (hne : word ≠ [])
    (hword : ∀ c ∈ word, isAlphanumeric c = true) (hn : 0 < n) (hm : 0 < m) :
    shapes (parseMarkdown (marker.run n ++ word ++ marker.run m) options).root.children =
      leftover marker (n - min n m) {} ++ (Node.ofText word {}).enclose (min n m) ::
        leftover marker (m - min n m) {} := by
  obtain ⟨place, here, span, hchildren⟩ :=
    exists_around options hne hword hn hm fun htilde => absurd htilde hmarker
  have hseparate : Separate [Node.ofText word span] := separate_cons.2 ⟨nofun, .nil, .nil⟩
  have hnest := (Node.ofText word {}).enclose_isText (Nat.lt_min.2 ⟨hn, hm⟩)
  refine (congrArg shapes hchildren).trans (Encloses.coalesce ?_ hnest)
  exact Draft.encloses_emphasis hmarker (Nat.le_refl m) hseparate

/-- A word between two runs. As many markers of either as the other has too are around the word, in
twos for strong emphasis and one for emphasis if one is left over, or all of them for strikethrough.
What is left of the longer run is text on its side. Where tildes do not mean anything the line is
text. -/
theorem parseMarkdown_enclosed (options : InlineOptions) (marker : Marker) (hne : word ≠ [])
    (hword : ∀ c ∈ word, isAlphanumeric c = true) (hn : 0 < n) (hm : 0 < m) :
    let source := marker.run n ++ word ++ marker.run m
    let children := (parseMarkdown source options).root.children
    let inner := Node.ofText word {}
    let k := min n m
    (marker ≠ .tilde → shapes children =
        leftover marker (n - k) {} ++ inner.enclose k :: leftover marker (m - k) {}) ∧
      (marker = .tilde → options.strikethrough = true → 2 ≤ n → 2 ≤ m → shapes children =
        leftover marker (n - k) {} ++ ⟨.strike, {}, [inner]⟩ :: leftover marker (m - k) {}) ∧
      (marker = .tilde → options.strikethrough = false ∨ n = 1 ∨ m = 1 →
        children = [Node.ofText source (Span.covering {} source)]) := by
  intro source children inner k
  have hseparate (span : Span) : Separate [Node.ofText word span] :=
    separate_cons.2 ⟨nofun, .nil, .nil⟩
  refine ⟨fun hmarker => ?_, fun htilde hon htwo htwo' => ?_, fun htilde htext => ?_⟩
  · exact shapes_of_emphasis options hmarker hne hword hn hm
  · subst htilde
    obtain ⟨place, here, span, hchildren⟩ :=
      exists_around options hne hword hn hm fun _ => ⟨by omega, by omega, hon⟩
    refine (congrArg shapes hchildren).trans (Encloses.coalesce ?_ rfl)
    exact Draft.encloses_strike htwo htwo' (Nat.le_refl m) (hseparate span)
  · subst htilde
    exact children_of_tildes rfl hne hword hn hm htext

theorem parseMarkdown_enclosed_runs :
    let word := "ab".toList
    let inner := Node.ofText word {}
    let children (source : List Char) := (parseMarkdown source {}).root.children
    word ≠ [] ∧ (∀ c ∈ word, isAlphanumeric c = true) ∧
      shapes (children "*****ab***".toList) =
        [Node.ofText "**".toList {}, ⟨.emphasis, {}, [⟨.strong, {}, [inner]⟩]⟩] ∧
      shapes (children "~~ab~~~".toList) = [⟨.strike, {}, [inner]⟩, Node.ofText "~".toList {}] ∧
      children "~ab~~".toList = [Node.ofText "~ab~~".toList (Span.covering {} "~ab~~".toList)] := by
  intro word inner children
  have hne : word ≠ [] := by decide
  have hletters : word.all isAlphanumeric = true := by decide
  have hword : ∀ c ∈ word, isAlphanumeric c = true := List.all_eq_true.1 hletters
  have hasterisks : Marker.asterisk.run 5 ++ word ++ Marker.asterisk.run 3 = "*****ab***".toList := by
    decide
  have htildes : Marker.tilde.run 2 ++ word ++ Marker.tilde.run 3 = "~~ab~~~".toList := by decide
  have htext : Marker.tilde.run 1 ++ word ++ Marker.tilde.run 2 = "~ab~~".toList := by decide
  refine ⟨hne, hword, ?_, ?_, ?_⟩
  · rw [← hasterisks]
    exact (parseMarkdown_enclosed {} .asterisk hne hword (by decide) (by decide)).1 nofun
  · rw [← htildes]
    exact (parseMarkdown_enclosed {} .tilde hne hword (by decide) (by decide)).2.1 rfl rfl
      (by decide) (by decide)
  · rw [← htext]
    exact (parseMarkdown_enclosed {} .tilde hne hword (by decide) (by decide)).2.2 rfl (.inr (.inl rfl))

end Line
end InlineMarkdown
