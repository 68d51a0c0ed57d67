import InlineMarkdown.Proofs.Unbounded
import InlineMarkdown.Proofs.Exploration

/-! The way of the naive parser.

The naive parser goes through the tokens as a `Descent`: `trail` says at which tokens it
makes attempts, where their content starts and ends, and where it goes on. The laws of a
descent are facts about the naive parser alone; searches come in later. -/
namespace InlineMarkdown
open Attempt

namespace InlineParser
variable {parser : InlineParser} {inner : Option ParseContent} {stop : List Kind}
  {tokens : Array (Token Kind)} {p q : Nat} {c d : Cursor} {token : Token Kind}

/-! ### Positions of steps -/

/-- Where a step ends does not depend on the nodes so far. -/
theorem step_cursor (htoken : c.peek = some token) (draft draft' : Draft) :
    (parser.step inner token draft c).2 = (parser.step inner token draft' c).2 := by
  by_cases hframes : framesAt parser.options token.kind = []
  · obtain ⟨f, q, -, -, hstep⟩ := exists_plain htoken hframes
    rw [hstep parser rfl inner draft c rfl rfl, hstep parser rfl inner draft' c rfl rfl]
  · rw [parser.step_of_framesAt_ne_nil inner draft c hframes, parser.step_of_framesAt_ne_nil inner draft' c hframes]
    unfold orText
    rcases parser.attemptAt inner token.kind c with ⟨_ | node, d⟩ <;> rfl

theorem steps_cursor (limit : Nat) (draft draft' : Draft) (c : Cursor) :
    (parser.steps inner stop limit draft c).2 = (parser.steps inner stop limit draft' c).2 := by
  induction limit generalizing draft draft' c with
  | zero => rfl
  | succ limit ih =>
    unfold steps
    rcases htoken : c.peek with _ | token
    · rfl
    · dsimp only
      split
      · rfl
      · rw [step_cursor htoken draft draft']
        exact ih _ _ _

/-! ### The trail -/

/-- Tokens at which a parse stops. -/
def Halts (tokens : Array (Token Kind)) (stop : List Kind) (p : Nat) : Prop :=
  ∀ token, tokens[p]? = some token → token.isEof = true ∨ stop.contains token.kind = true

/-- Where the naive parser goes on from position `p`. -/
def trailNext (parser : InlineParser) (tokens : Array (Token Kind)) (p : Nat) : Nat :=
  match tokens[p]? with
  | none => p + 1
  | some token =>
    (parser.naive.step (some parser.unbounded) token {} { tokens, position := p }).2.position

/-- Where its content ends that begins at position `p`. -/
def trailEnd (parser : InlineParser) (tokens : Array (Token Kind)) (p : Nat) : Nat :=
  (parser.unbounded [.rightBracket] { tokens, position := p }).2.position

/-- Where the content of a construct at position `p` begins, or the only token before
that is text. -/
def contentStart (tokens : Array (Token Kind)) (p : Nat) : Nat :=
  if tokens[p]?.any (·.kind == .exclamation) then p + 2 else p + 1

/-- An attempt is made at this position. -/
def Tried (parser : InlineParser) (tokens : Array (Token Kind)) (p : Nat) : Prop :=
  ∃ token, tokens[p]? = some token ∧ framesAt parser.options token.kind ≠ []

/-- One of these constructs opens at this position. -/
def Opens (frames : List Frame) (tokens : Array (Token Kind)) (p : Nat) : Prop :=
  ∃ frame ∈ frames, ∃ q, frame.opening.view tokens p = (some (), q)

def Opened (parser : InlineParser) (tokens : Array (Token Kind)) (p : Nat) : Prop :=
  ∃ token, tokens[p]? = some token ∧ Opens (framesAt parser.options token.kind) tokens p

theorem halts_iff (htoken : tokens[p]? = some token) :
    Halts tokens stop p ↔ token.isEof = true ∨ stop.contains token.kind = true := by
  simp [Halts, htoken]

theorem tried_iff (htoken : tokens[p]? = some token) :
    parser.Tried tokens p ↔ framesAt parser.options token.kind ≠ [] := by
  simp [Tried, htoken]

theorem opened_iff (htoken : tokens[p]? = some token) :
    parser.Opened tokens p ↔ Opens (framesAt parser.options token.kind) tokens p := by
  simp [Opened, htoken]

theorem halts_of_remaining (h : c.remaining ≤ 0) : Halts c.tokens stop c.position :=
  fun _ htoken => nomatch (peek_of_remaining h).symm.trans htoken

theorem exists_token_of_not_halts (h : ¬ Halts tokens stop p) : ∃ token, tokens[p]? = some token ∧
    token.isEof = false ∧ stop.contains token.kind = false := by
  rcases htoken : tokens[p]? with _ | token
  · exact absurd (fun token htoken' => nomatch htoken.symm.trans htoken') h
  · rw [halts_iff htoken, not_or] at h
    exact ⟨token, rfl, eq_false_of_ne_true h.1, eq_false_of_ne_true h.2⟩

theorem stopsAt_of_not_halts (htoken : c.peek = some token) (hgoing : c.abandoned = false) :
    stopsAt stop c token = false ↔ ¬ Halts c.tokens stop c.position := by
  unfold stopsAt
  rw [halts_iff htoken, hgoing, Bool.or_false, Bool.or_eq_false_iff, not_or, Bool.not_eq_true,
    Bool.not_eq_true]

theorem steps_of_halts (h : Halts c.tokens stop c.position) (limit : Nat) (draft : Draft) :
    parser.steps inner stop limit draft c = (draft, c) := by
  cases limit with
  | zero => rfl
  | succ limit =>
    unfold steps
    rcases htoken : c.peek with _ | token
    · rfl
    · have hstops : stopsAt stop c token = true := by
        unfold stopsAt
        rcases h token htoken with h | h <;> simp only [h, Bool.true_or, Bool.or_true]
      simp only [hstops, if_true]

theorem not_halts_of_kind {kind : Kind} (h : KindAt tokens p kind)
    (hkind : kind ≠ .eof ∧ kind ≠ .rightBracket) : ¬ Halts tokens [.rightBracket] p := by
  obtain ⟨token, htoken, rfl⟩ := h
  rw [halts_iff htoken]
  rintro (h | h)
  · exact hkind.1 (eq_of_beq h)
  · simp at h
    exact hkind.2 h

/-! ### The laws of a descent -/

theorem trailNext_of_plain {f : Draft → Draft} (htoken : tokens[p]? = some token)
    (h : Plain parser.options tokens p token f q) : parser.trailNext tokens p = q := by
  unfold trailNext
  rw [htoken]
  dsimp only
  rw [h.2.2 parser.naive rfl _ {} { tokens, position := p } rfl rfl]

theorem mem_unbounded_orderly : ∀ parse ∈ some parser.unbounded, parse.Orderly := fun _ h =>
  (mem_some_unbounded h).1

theorem lt_trailNext (parser : InlineParser) (tokens : Array (Token Kind)) (p : Nat) :
    p < parser.trailNext tokens p := by
  unfold trailNext
  split
  · exact Nat.lt_succ_self p
  · rename_i token htoken
    exact (parser.naive.step_leads (c := { tokens, position := p }) mem_unbounded_orderly htoken {}).2

theorem trailEnd_of_halts (h : Halts tokens [.rightBracket] p) : parser.trailEnd tokens p = p := by
  unfold trailEnd unbounded
  rw [atRoom_eq_level]
  unfold level
  rw [steps_of_halts h]

theorem le_trailEnd (parser : InlineParser) (tokens : Array (Token Kind)) (p : Nat) :
    p ≤ parser.trailEnd tokens p := by
  by_cases hp : p ≤ tokens.size
  · exact (parser.unbounded_orderly.leads [.rightBracket] { tokens, position := p } hp).2
  · have hhalts : Halts tokens [.rightBracket] p := by
      intro token htoken
      have := lt_size_of_getElem? htoken
      omega
    exact Nat.le_of_eq (trailEnd_of_halts hhalts).symm

/-- A run of the unbounded parser's steps ends where the trail says. -/
theorem unbounded_position (parser : InlineParser) (hc : c.position ≤ c.tokens.size) (hgoing : c.abandoned = false) :
    (parser.unbounded [.rightBracket] c).2.position = parser.trailEnd c.tokens c.position := by
  have hfresh : Beside c { tokens := c.tokens, position := c.position } := ⟨rfl, rfl, hgoing, rfl⟩
  unfold trailEnd
  rw [(unbounded_eq_level_beside hfresh hc).2, (unbounded_eq_level parser _ hc hgoing).2]

theorem trailEnd_next (h : ¬ Halts tokens [.rightBracket] p) :
    parser.trailEnd tokens (parser.trailNext tokens p) = parser.trailEnd tokens p := by
  obtain ⟨token, htoken, -, -⟩ := exists_token_of_not_halts h
  have hlt := lt_size_of_getElem? htoken
  have hpeek : Cursor.peek { tokens, position := p } = some token := htoken
  have hstops : stopsAt [.rightBracket] { tokens, position := p } token = false :=
    (stopsAt_of_not_halts hpeek rfl).2 h
  have hroom : openersFrom tokens p ≤ tokens.size + 1 :=
    Nat.le_succ_of_le (openersFrom_le_size tokens p)
  obtain ⟨hleads, -⟩ := parser.naive.step_leads mem_unbounded_orderly hpeek {}
  have hgoing := parser.naive.step_roomy (roomyInside_unbounded parser tokens.size)
    hpeek rfl hroom {}
  have htrail : parser.trailNext tokens p = (parser.naive.step (some parser.unbounded) token {}
      { tokens, position := p }).2.position := by
    unfold trailNext
    rw [htoken]
  have hend : parser.trailEnd tokens p = (parser.naive.level (some parser.unbounded)
      [.rightBracket] { tokens, position := p }).2.position :=
    (unbounded_eq_level parser _ (Nat.le_of_lt hlt) rfl).2
  rw [hend, htrail]
  unfold level
  dsimp only
  rw [steps_step mem_unbounded_orderly hpeek hstops]
  generalize hstep : parser.naive.step (some parser.unbounded) token {} { tokens, position := p } =
    run at *
  obtain ⟨draft, d⟩ := run
  dsimp only at hleads hgoing ⊢
  have htokens : d.tokens = tokens := hleads.tokens
  have hlevel := (unbounded_eq_level parser [.rightBracket] hleads.within hgoing).2
  rw [unbounded_position parser hleads.within hgoing, htokens] at hlevel
  rw [hlevel]
  unfold level
  dsimp only
  rw [steps_cursor d.remaining draft {}]

/-! ### Content -/

theorem contentStart_exclamation (h : KindAt tokens p .exclamation) :
    contentStart tokens p = p + 2 := by
  obtain ⟨token, htoken, hkind⟩ := h
  simp [contentStart, htoken, hkind]

theorem contentStart_leftBracket (h : KindAt tokens p .leftBracket) :
    contentStart tokens p = p + 1 := by
  obtain ⟨token, htoken, hkind⟩ := h
  simp [contentStart, htoken, hkind]

/-- A caret or text is passed by itself, in content as anywhere. -/
theorem trailNext_of_soft (parser : InlineParser) {kind : Kind} (h : KindAt tokens p kind)
    (hkind : kind = .caret ∨ kind = .text) : ¬ Halts tokens [.rightBracket] p ∧
      ¬ parser.Tried tokens p ∧ parser.trailNext tokens p = p + 1 := by
  have hhalts : ¬ Halts tokens [.rightBracket] p :=
    not_halts_of_kind h (by rcases hkind with rfl | rfl <;> exact ⟨nofun, nofun⟩)
  obtain ⟨token, htoken, rfl⟩ := h
  have hframes : framesAt parser.options token.kind = [] := by
    rcases hkind with hkind | hkind <;> rw [hkind] <;> rfl
  have hmarker (marker : Marker) : token.kind ≠ marker.kind := by
    rcases hkind with hkind | hkind <;> rw [hkind] <;> cases marker <;> nofun
  have htried : ¬ parser.Tried tokens p := by
    rw [tried_iff htoken]
    exact absurd hframes
  exact ⟨hhalts, htried, trailNext_of_plain htoken (.of_ne_marker hframes hmarker htoken)⟩

/-- The content of a construct begins at `contentStart`, or behind one token there that
is passed by itself. -/
theorem eq_contentStart (parser : InlineParser) (h : Inside tokens p q) :
    q = contentStart tokens p ∨ q = parser.trailNext tokens (contentStart tokens p) ∧
      ¬ Halts tokens [.rightBracket] (contentStart tokens p) ∧
      ¬ parser.Tried tokens (contentStart tokens p) := by
  cases h with
  | bracket hp => exact .inl (contentStart_leftBracket hp).symm
  | marked hp hmark hkind =>
    obtain ⟨hhalts, htried, hnext⟩ := trailNext_of_soft parser hmark hkind
    rw [contentStart_leftBracket hp]
    exact .inr ⟨hnext.symm, hhalts, htried⟩
  | image hp _ => exact .inl (contentStart_exclamation hp).symm

theorem trailEnd_inside (parser : InlineParser) (h : Inside tokens p q) :
    parser.trailEnd tokens q = parser.trailEnd tokens (contentStart tokens p) := by
  rcases eq_contentStart parser h with rfl | ⟨rfl, hhalts, -⟩
  · rfl
  · exact trailEnd_next hhalts

theorem contentStart_eq (h : parser.Opened tokens p) : contentStart tokens p = p + 1 ∨
    contentStart tokens p = p + 2 ∧ ¬ Halts tokens [.rightBracket] (p + 1) ∧
      (parser.Tried tokens (p + 1) → contentStart tokens (p + 1) = p + 2) ∧
      (¬ parser.Tried tokens (p + 1) → parser.trailNext tokens (p + 1) = p + 2) := by
  obtain ⟨token, htoken, frame, hmem, q, hopening⟩ := h
  cases (framesAt_regular hmem).inside hopening with
  | bracket hp | marked hp _ _ => exact .inl (contentStart_leftBracket hp)
  | image hp hbracket =>
    refine .inr ⟨contentStart_exclamation hp, not_halts_of_kind hbracket ⟨nofun, nofun⟩,
      fun _ => contentStart_leftBracket hbracket, fun htried => ?_⟩
    obtain ⟨token', htoken', hkind⟩ := hbracket
    have hframes : framesAt parser.options token'.kind = [] :=
      Decidable.not_not.1 fun h => htried ((tried_iff htoken').2 h)
    have hmarker (marker : Marker) : token'.kind ≠ marker.kind := by
      rw [hkind]
      cases marker <;> nofun
    exact trailNext_of_plain htoken' (.of_ne_marker hframes hmarker htoken')

end InlineParser

namespace Frame

/-- The construct that matches ends behind its content. -/
theorem Tries.content_lt {parser : InlineParser} {frames : List Frame}
    (hframes : ∀ frame ∈ frames, frame.Regular) {c d : Cursor} {result : Option Node}
    (h : Tries parser.unbounded frames c result d) (hresult : result ≠ none)
    (hc : c.position ≤ c.tokens.size) (hgoing : c.abandoned = false) :
    ∃ frame ∈ frames, ∃ q, frame.opening.view c.tokens c.position = (some (), q) ∧
      parser.trailEnd c.tokens q < d.position := by
  induction h with
  | exhausted => exact absurd rfl hresult
  | @hit frame rest c d node hattempt =>
    have hregular := hframes _ (List.mem_cons_self ..)
    obtain ⟨q, content, middle, hview, hopens, hcontent, hclosing⟩ :=
      exists_content hregular parser.unbounded_orderly hc hattempt
    refine ⟨frame, List.mem_cons_self .., q, hview, ?_⟩
    have hposition := parser.unbounded_position (c := { c with position := q }) hopens hgoing
    rw [hcontent] at hposition
    rw [← hposition]
    exact (hregular.bracket hclosing).2
  | @miss frame rest c d e result reports hattempt hrest ih =>
    have hregular := hframes _ (List.mem_cons_self ..)
    have hgoing' := attempt_roomy hregular (parser.unbounded_roomy _) hc hgoing
      (Nat.le_succ_of_le (Nat.le_refl _))
    rw [hattempt] at hgoing'
    obtain ⟨hretry, hposition⟩ :=
      miss_leads hregular parser.unbounded_orderly hc hattempt reports
    obtain ⟨frame', hmem, q, hopening, hlt⟩ := ih (fun f hf => hframes f (List.mem_cons_of_mem _ hf))
      hresult hretry.within hgoing'
    rw [hretry.tokens, hposition] at hopening
    rw [hretry.tokens] at hlt
    exact ⟨frame', List.mem_cons_of_mem _ hmem, q, hopening, hlt⟩

end Frame

namespace InlineParser
variable {parser : InlineParser} {tokens : Array (Token Kind)} {p : Nat}

/-- An attempt fails, or goes beyond the end of its content. -/
theorem trailNext_eq (h : parser.Tried tokens p) : parser.trailNext tokens p = p + 1 ∨
    parser.Opened tokens p ∧
      parser.trailEnd tokens (contentStart tokens p) < parser.trailNext tokens p := by
  obtain ⟨token, htoken, hframes⟩ := h
  have hp : p ≤ tokens.size := Nat.le_of_lt (lt_size_of_getElem? htoken)
  obtain ⟨_, houtcome⟩ := attemptAt_outcome parser.naive (some parser.unbounded)
    { tokens, position := p } hframes
  have hleads := houtcome.leads mem_unbounded_orderly hp
  have htrail : parser.trailNext tokens p = (orText (parser.naive.attemptAt (some parser.unbounded)
      token.kind) token {} { tokens, position := p }).2.position := by
    unfold trailNext
    rw [htoken]
    exact congrArg (·.2.position) (parser.naive.step_of_framesAt_ne_nil
      (some parser.unbounded) {} { tokens, position := p } hframes)
  unfold orText at htrail
  rcases hrun : parser.naive.attemptAt (some parser.unbounded) token.kind { tokens, position := p }
    with ⟨_ | node, d⟩ <;> rw [hrun] at houtcome hleads htrail
  · left
    rw [htrail]
    exact congrArg (· + 1) (hleads.2.1 rfl)
  · right
    rw [htrail]
    cases houtcome with
    | @matched parse _ e _ hparse htries _ =>
      obtain rfl := Option.some.inj hparse
      obtain ⟨frame, hmem, q, hopening, hlt⟩ := htries.content_lt (fun _ => framesAt_regular) nofun
        hp rfl
      refine ⟨⟨token, htoken, frame, hmem, q, hopening⟩, ?_⟩
      have hinside : Inside tokens p q := (framesAt_regular hmem).inside hopening
      have hend := trailEnd_inside parser hinside
      rw [← hend]
      exact hlt

/-- The naive parser's way through these tokens. -/
def trail (parser : InlineParser) (tokens : Array (Token Kind)) : Descent where
  tries := parser.Tried tokens
  opened := parser.Opened tokens
  start := contentStart tokens
  closes := Halts tokens [.rightBracket]
  next := parser.trailNext tokens
  ending := parser.trailEnd tokens
  tries_of_opened := by
    rintro p ⟨token, htoken, frame, hmem, -⟩
    exact ⟨token, htoken, List.ne_nil_of_mem hmem⟩
  lt_next := parser.lt_trailNext tokens
  le_ending := parser.le_trailEnd tokens
  ending_next := trailEnd_next
  start_eq := contentStart_eq
  next_eq := trailNext_eq

end InlineParser
end InlineMarkdown
