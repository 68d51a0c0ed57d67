import InlineMarkdown.Proofs.Frame

/-! One step of the parser, seen from outside.

At a token that may start a construct a step is an attempt, `attemptAt`. At any other
token it is `plain`: it passes a number of tokens and changes the draft in a way that
only the options, the tokens and the position decide. What a step makes of the draft has
the four cases of `Stepped`, and what every step keeps is kept by a whole level of them
(`steps_preserve`). -/
namespace InlineMarkdown
open Attempt

/-! ### Runs of one kind -/

namespace Cursor

theorem length_runFrom_le (tokens : Array (Token Kind)) (kind : Kind) (limit i : Nat) :
    (runFrom tokens kind limit i).length ≤ limit := by
  induction limit generalizing i with
  | zero => simp [runFrom]
  | succ limit ih =>
    unfold runFrom
    split
    · simp
    · split
      · simpa using ih (i + 1)
      · simp

theorem runFrom_of_kindAt {tokens : Array (Token Kind)} {kind : Kind} {limit i : Nat}
    {token : Token Kind} (htoken : tokens[i]? = some token) (hkind : token.kind = kind) :
    runFrom tokens kind (limit + 1) i = token :: runFrom tokens kind limit (i + 1) := by
  simp [runFrom, htoken, hkind]

variable {tokens : Array (Token Kind)}

theorem getElem?_runFrom {kind : Kind} {limit i j : Nat} {token : Token Kind}
    (h : (runFrom tokens kind limit i)[j]? = some token) : tokens[i + j]? = some token := by
  induction limit generalizing i j with
  | zero => exact nomatch h
  | succ limit ih =>
    unfold runFrom at h
    split at h
    · exact nomatch h
    · rename_i first hfirst
      split at h
      · cases j with
        | zero =>
          obtain rfl := Option.some.inj h
          exact hfirst
        | succ j =>
          have := ih h
          rwa [Nat.add_right_comm, Nat.add_assoc] at this
      · exact nomatch h

/-- Behind a run there is no token of its kind. -/
theorem runFrom_maximal {kind : Kind} {limit i : Nat} (h : tokens.size ≤ i + limit) :
    ¬ KindAt tokens (i + (runFrom tokens kind limit i).length) kind := by
  induction limit generalizing i with
  | zero =>
    rintro ⟨token, htoken, -⟩
    have := (Array.getElem?_eq_some_iff.1 htoken).1
    simp [runFrom] at this
    omega
  | succ limit ih =>
    unfold runFrom
    split
    · rename_i hnone
      rintro ⟨token, htoken, -⟩
      cases hnone.symm.trans htoken
    · rename_i token htoken
      split
      · have hrest := ih (i := i + 1) (by omega)
        rwa [List.length_cons, Nat.add_comm _ 1, ← Nat.add_assoc]
      · rename_i hkind
        rintro ⟨token', htoken', hkind'⟩
        obtain rfl := Option.some.inj (htoken.symm.trans htoken')
        exact hkind hkind'

/-- The tokens of a run are of its kind. -/
theorem kindAt_runFrom {kind : Kind} {limit i j : Nat} (hi : i ≤ j)
    (hj : j < i + (runFrom tokens kind limit i).length) : KindAt tokens j kind := by
  induction limit generalizing i with
  | zero => exact absurd hj (Nat.not_lt.2 hi)
  | succ limit ih =>
    unfold runFrom at hj
    split at hj
    · exact absurd hj (Nat.not_lt.2 hi)
    · rename_i token htoken
      split at hj
      · rename_i hkind
        rw [List.length_cons] at hj
        by_cases hfirst : j = i
        · exact ⟨token, hfirst ▸ htoken, hkind⟩
        · exact ih (i := i + 1) (by omega) (by omega)
      · exact absurd hj (Nat.not_lt.2 hi)

end Cursor

namespace InlineParser

/-! ### Plain steps -/

/-- A step that takes the cursor to `q` and the draft through `f`, whatever the cursor
remembers and however hard the parser tries. -/
def Plain (options : InlineOptions) (tokens : Array (Token Kind)) (p : Nat) (token : Token Kind)
    (f : Draft → Draft) (q : Nat) : Prop :=
  p < q ∧ q ≤ tokens.size ∧ ∀ (parser : InlineParser), parser.options = options →
    ∀ (inner : Option ParseContent) (draft : Draft) (c : Cursor),
      c.tokens = tokens → c.position = p →
        parser.step inner token draft c = (f draft, { c with position := q })

variable {options : InlineOptions} {tokens : Array (Token Kind)} {p : Nat} {token : Token Kind}

theorem lt_size_of_getElem? (h : tokens[p]? = some token) : p < tokens.size :=
  (Array.getElem?_eq_some_iff.1 h).1

/-- A step that passes one token. -/
theorem Plain.of_advance {f : Draft → Draft} (htoken : tokens[p]? = some token)
    (h : ∀ (parser : InlineParser), parser.options = options → ∀ (inner : Option ParseContent)
      (draft : Draft) (c : Cursor), parser.step inner token draft c = (f draft, c.advance)) :
    Plain options tokens p token f (p + 1) := by
  refine ⟨Nat.lt_succ_self p, lt_size_of_getElem? htoken,
    fun parser hoptions inner draft c hc hp => ?_⟩
  rw [h parser hoptions, Cursor.advance, hp]

/-- A step at a delimiter is that of its run. -/
theorem step_of_marker (parser : InlineParser) (inner : Option ParseContent) {marker : Marker}
    (hkind : token.kind = marker.kind) (draft : Draft) (c : Cursor) :
    parser.step inner token draft c = parser.delimiterRun marker draft c := by
  cases marker <;> simp only [step, hkind, Marker.kind]

/-- A run of delimiters is passed as a whole. It becomes text where it can mean nothing, and is
resolved elsewhere. -/
theorem delimiterRun_cases (parser : InlineParser) {marker : Marker} {c : Cursor}
    (hkind : KindAt c.tokens c.position marker.kind) (draft : Draft) :
    ∃ n first last, n = (Cursor.runFrom c.tokens marker.kind c.remaining c.position).length ∧
      0 < n ∧ c.tokens[c.position]? = some first ∧ c.tokens[c.position + (n - 1)]? = some last ∧
      ¬ KindAt c.tokens (c.position + n) marker.kind ∧
      (parser.delimiterRun marker draft c =
          (draft.pushText (marker.run n) ⟨first.span.start, last.span.stop⟩,
            { c with position := c.position + n }) ∨
        (marker = .tilde → parser.options.strikethrough = true) ∧
          parser.delimiterRun marker draft c =
            (draft.resolve marker n first.span.start, { c with position := c.position + n })) := by
  have hmaximal : ¬ KindAt c.tokens (c.position +
      (Cursor.runFrom c.tokens marker.kind c.remaining c.position).length) marker.kind := by
    refine Cursor.runFrom_maximal ?_
    unfold Cursor.remaining
    omega
  have hget {j : Nat} {token : Token Kind} := @Cursor.getElem?_runFrom c.tokens marker.kind
    c.remaining c.position j token
  unfold delimiterRun Cursor.bumpRun
  dsimp only
  generalize Cursor.runFrom c.tokens marker.kind c.remaining c.position = run at hmaximal hget
  cases run with
  | nil => exact absurd hkind hmaximal
  | cons first rest =>
    obtain ⟨last, hlast⟩ : ∃ last, (first :: rest).getLast? = some last :=
      ⟨_, List.getLast?_eq_some_getLast (List.cons_ne_nil first rest)⟩
    refine ⟨_, first, last, rfl, Nat.zero_lt_succ _, hget (j := 0) rfl,
      hget (List.getLast?_eq_getElem?.symm.trans hlast), hmaximal, ?_⟩
    rw [List.head?_cons, hlast]
    dsimp only
    split
    · exact .inl rfl
    · rename_i hmeaning
      refine .inr ⟨fun htilde => ?_, rfl⟩
      cases hon : parser.options.strikethrough with
      | true => rfl
      | false => exact absurd (by simp [htilde, hon]) hmeaning

/-- What a run of delimiters makes of a draft. -/
def runDraft (options : InlineOptions) (marker : Marker) (first : Token Kind)
    (rest : List (Token Kind)) (draft : Draft) : Draft :=
  let count := rest.length + 1
  if marker = .tilde && (count < 2 || !options.strikethrough) then
    draft.pushText (marker.run count)
      ⟨first.span.start, (rest.getLast?.getD first).span.stop⟩
  else draft.resolve marker count first.span.start

/-- Tildes mean something if there are two and strikethrough is on. -/
theorem runDraft_eq_resolve {marker : Marker} {first : Token Kind} {rest : List (Token Kind)}
    (htilde : marker = .tilde → rest.length + 1 ≠ 1 ∧ options.strikethrough = true) (draft : Draft) :
    runDraft options marker first rest draft = draft.resolve marker (rest.length + 1) first.span.start := by
  have hmeans : (decide (marker = .tilde) &&
      (decide (rest.length + 1 < 2) || !options.strikethrough)) = false := by
    cases marker with
    | tilde =>
      obtain ⟨hone, hon⟩ := htilde rfl
      have hlong : ¬ rest.length + 1 < 2 := by omega
      rw [hon, decide_eq_false hlong]
      rfl
    | asterisk | underscore => rfl
  unfold runDraft
  dsimp only
  rw [hmeans]
  rfl

/-- A run of delimiters is passed as a whole. -/
theorem Plain.of_run {marker : Marker} {rest : List (Token Kind)} (hkind : token.kind = marker.kind)
    (hrun : Cursor.runFrom tokens marker.kind (tokens.size - p) p = token :: rest) :
    Plain options tokens p token (runDraft options marker token rest) (p + (rest.length + 1)) := by
  have hlength := Cursor.length_runFrom_le tokens marker.kind (tokens.size - p) p
  rw [hrun, List.length_cons] at hlength
  refine ⟨by omega, by omega, fun parser hoptions inner draft c hc hp => ?_⟩
  subst hoptions hc hp
  rw [parser.step_of_marker inner hkind]
  unfold delimiterRun Cursor.bumpRun Cursor.remaining runDraft
  simp only [hrun, List.head?_cons, List.getLast?_cons, List.length_cons]
  split <;> rfl

/-- Where nothing is tried, a token that may start a construct is text. -/
theorem orText_fail (token : Token Kind) (draft : Draft) (c : Cursor) :
    orText fail token draft c = (draft.pushText token.text token.span, c.advance) := rfl

/-- Which attempt a token starts: the one for its bracket, or none. -/
def attemptAt (parser : InlineParser) (inner : Option ParseContent) : Kind → Attempt Node
  | .exclamation => parser.tryImage inner
  | .leftBracket => parser.tryBracket inner
  | _ => fail

theorem attemptAt_of_framesAt_nil {parser : InlineParser} {kind : Kind}
    (inner : Option ParseContent) (h : framesAt parser.options kind = []) :
    parser.attemptAt inner kind = fail := by
  cases kind with
  | exclamation =>
    have himages : parser.options.images = false := by
      cases hi : parser.options.images <;> simp [framesAt, hi] at h ⊢
    simp [attemptAt, tryImage, himages]
  | leftBracket =>
    have hoff : (parser.options.footnotes || parser.options.citations || parser.options.links) =
        false := by
      cases hf : parser.options.footnotes <;> cases hc : parser.options.citations <;>
        cases hl : parser.options.links <;> simp [framesAt, bracketFrames, hf, hc, hl] at h ⊢
    simp [attemptAt, tryBracket, hoff]
  | _ => rfl

/-- What a token that starts no construct and is no delimiter makes of a draft. -/
def ownDraft (options : InlineOptions) (token : Token Kind) (draft : Draft) : Draft :=
  (leaf? options token).elim (draft.pushText token.text token.span) draft.push

/-- A token that starts no construct and is no delimiter is passed by itself. -/
theorem step_of_ne_marker {parser : InlineParser} (inner : Option ParseContent)
    (hframes : framesAt parser.options token.kind = [])
    (hmarker : ∀ marker : Marker, token.kind ≠ marker.kind) (draft : Draft) (c : Cursor) :
    parser.step inner token draft c = (ownDraft parser.options token draft, c.advance) := by
  have hattempt := attemptAt_of_framesAt_nil inner hframes
  cases hkind : token.kind with
  | asterisk => exact absurd hkind (hmarker .asterisk)
  | underscore => exact absurd hkind (hmarker .underscore)
  | tilde => exact absurd hkind (hmarker .tilde)
  | exclamation | leftBracket =>
    simp only [hkind, attemptAt] at hattempt
    simp only [step, hkind, hattempt, orText_fail, ownDraft, leaf?, Option.elim_none]
  | _ =>
    simp only [step, hkind, ownDraft]
    cases leaf? parser.options token <;> rfl

/-- Such a token is passed in the same way wherever it stands. -/
theorem Plain.of_ne_marker (hframes : framesAt options token.kind = [])
    (hmarker : ∀ marker : Marker, token.kind ≠ marker.kind) (htoken : tokens[p]? = some token) :
    Plain options tokens p token (ownDraft options token) (p + 1) :=
  .of_advance htoken fun _ hoptions inner draft c =>
    hoptions ▸ step_of_ne_marker inner (hoptions ▸ hframes) hmarker draft c

/-- At a token that starts no construct the step is plain. -/
theorem exists_plain (htoken : tokens[p]? = some token)
    (hframes : framesAt options token.kind = []) : ∃ f q, Plain options tokens p token f q := by
  by_cases hmarker : ∃ marker : Marker, token.kind = marker.kind
  · obtain ⟨marker, hkind⟩ := hmarker
    obtain ⟨limit, hlimit⟩ : ∃ limit, tokens.size - p = limit + 1 := by
      have := lt_size_of_getElem? htoken
      exact ⟨tokens.size - p - 1, by omega⟩
    have hrun : Cursor.runFrom tokens marker.kind (tokens.size - p) p = token :: _ :=
      hlimit ▸ Cursor.runFrom_of_kindAt htoken hkind
    exact ⟨_, _, .of_run hkind hrun⟩
  · exact ⟨_, _, .of_ne_marker hframes (fun marker hkind => hmarker ⟨marker, hkind⟩) htoken⟩

/-! ### Attempts -/

/-- The constructs that are tried at a token, as one attempt inside `bracketed`. -/
def bodyAt (options : InlineOptions) (parse : ParseContent) : Kind → Attempt Node
  | .exclamation => image.attempt parse
  | .leftBracket => bracket options parse
  | _ => fail

/-- What is said to be tried at a token of this kind. -/
def constructAt : Kind → Construct
  | .exclamation => .image
  | _ => .bracket

theorem attemptAt_of_framesAt_ne_nil {parser : InlineParser} {kind : Kind}
    (inner : Option ParseContent) (h : framesAt parser.options kind ≠ []) :
    parser.attemptAt inner kind =
      bracketed parser.search.remember inner (constructAt kind) (bodyAt parser.options · kind) := by
  cases kind with
  | exclamation =>
    have himages : parser.options.images = true := by
      cases hi : parser.options.images <;> simp [framesAt, hi] at h ⊢
    simp [attemptAt, tryImage, himages, bodyAt, constructAt]
  | leftBracket =>
    have hon : (parser.options.footnotes || parser.options.citations || parser.options.links) =
        true := by
      cases hf : parser.options.footnotes <;> cases hc : parser.options.citations <;>
        cases hl : parser.options.links <;> simp [framesAt, bracketFrames, hf, hc, hl] at h ⊢
    simp only [attemptAt, tryBracket, hon, if_true, bodyAt, constructAt]
  | _ => exact absurd rfl h

theorem step_of_framesAt_ne_nil (parser : InlineParser) {token : Token Kind}
    (inner : Option ParseContent) (draft : Draft) (c : Cursor)
    (h : framesAt parser.options token.kind ≠ []) :
    parser.step inner token draft c = orText (parser.attemptAt inner token.kind) token draft c := by
  cases hkind : token.kind with
  | exclamation | leftBracket => simp only [step, hkind, attemptAt]
  | _ => exact absurd (by simp [hkind, framesAt]) h

/-! ### What a step can do -/

/-- The ways in which a step may go, each with the draft and the cursor behind it. -/
inductive Stepped (parser : InlineParser) (inner : Option ParseContent) (token : Token Kind)
    (draft : Draft) (c : Cursor) : Draft × Cursor → Prop
  /-- A run of delimiters is passed as a whole. -/
  | run (marker : Marker) : token.kind = marker.kind →
      Stepped parser inner token draft c (parser.delimiterRun marker draft c)
  /-- The attempt at the token yields a node. -/
  | node {node : Node} {d : Cursor} : parser.attemptAt inner token.kind c = (some node, d) →
      Stepped parser inner token draft c (draft.push node, d)
  /-- The token is a node by itself. -/
  | leaf {node : Node} : leaf? parser.options token = some node →
      Stepped parser inner token draft c (draft.push node, c.advance)
  /-- The token is text, behind whatever has been attempted in vain. -/
  | text {d : Cursor} : (∀ marker : Marker, token.kind ≠ marker.kind) →
      parser.attemptAt inner token.kind c = (none, d) →
      Stepped parser inner token draft c (draft.pushText token.text token.span, d.advance)

theorem stepped_orText (parser : InlineParser) (inner : Option ParseContent)
    (hmarker : ∀ marker : Marker, token.kind ≠ marker.kind) (draft : Draft) (c : Cursor) :
    Stepped parser inner token draft c
      (orText (parser.attemptAt inner token.kind) token draft c) := by
  unfold orText
  rcases h : parser.attemptAt inner token.kind c with ⟨_ | node, d⟩
  · exact .text hmarker h
  · exact .node h

theorem stepped (parser : InlineParser) (inner : Option ParseContent) (token : Token Kind)
    (draft : Draft) (c : Cursor) :
    Stepped parser inner token draft c (parser.step inner token draft c) := by
  by_cases hmarker : ∃ marker : Marker, token.kind = marker.kind
  · obtain ⟨marker, hkind⟩ := hmarker
    rw [parser.step_of_marker inner hkind]
    exact .run marker hkind
  · have hmarker (marker : Marker) : token.kind ≠ marker.kind := fun h => hmarker ⟨marker, h⟩
    by_cases hframes : framesAt parser.options token.kind = []
    · rw [step_of_ne_marker inner hframes hmarker]
      unfold ownDraft
      cases hleaf : leaf? parser.options token with
      | some node => exact .leaf hleaf
      | none => exact .text hmarker (congrFun (attemptAt_of_framesAt_nil inner hframes) c)
    · rw [parser.step_of_framesAt_ne_nil inner draft c hframes]
      exact parser.stepped_orText inner hmarker draft c

/-! ### All steps -/

theorem isEof_of_stopsAt {stop : List Kind} {c : Cursor} (h : stopsAt stop c token = false) :
    token.isEof = false := by
  unfold stopsAt at h
  rw [Bool.or_eq_false_iff, Bool.or_eq_false_iff] at h
  exact h.1.1

theorem going_of_stopsAt {stop : List Kind} {c : Cursor} (h : stopsAt stop c token = false) :
    c.abandoned = false := by
  unfold stopsAt at h
  rw [Bool.or_eq_false_iff] at h
  exact h.2

/-- What holds at first and is kept by every step, holds where the steps end. -/
theorem steps_preserve {parser : InlineParser} {inner : Option ParseContent} {stop : List Kind}
    (P : Draft → Cursor → Prop)
    (hstep : ∀ draft c token, P draft c → c.peek = some token → stopsAt stop c token = false →
      P (parser.step inner token draft c).1 (parser.step inner token draft c).2)
    (limit : Nat) {draft : Draft} {c : Cursor} (h : P draft c) :
    P (parser.steps inner stop limit draft c).1 (parser.steps inner stop limit draft c).2 := by
  induction limit generalizing draft c with
  | zero => exact h
  | succ limit ih =>
    unfold steps
    rcases htoken : c.peek with _ | token
    · exact h
    · dsimp only
      by_cases hstops : stopsAt stop c token = true
      · rw [if_pos hstops]
        exact h
      · rw [if_neg hstops]
        exact ih (hstep draft c token h htoken (eq_false_of_ne_true hstops))

end InlineParser
end InlineMarkdown
