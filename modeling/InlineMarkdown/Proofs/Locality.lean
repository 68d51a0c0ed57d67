import InlineMarkdown.Proofs.Lines

/-! Lines without brackets are parsed by themselves.

Only what stands in brackets can go on behind the end of a line. On a line without an opening
bracket no construct matches, so every step passes tokens of the line, and what it makes of
them depends on those alone (`Cursor.On`). So such a line becomes the same nodes whatever
stands behind it (`exists_lineOf`). -/
namespace InlineMarkdown
open Attempt

/-- The tokens are the body of one line, without the end of that line and without opening
brackets. -/
def Bracketless (body : List (Token Kind)) : Prop :=
  ∀ token ∈ body, token.kind ∉ lineStop ∧ token.kind ≠ .leftBracket

/-- The cursor's tokens begin with the body of a line and the end of that line, and no try was
given up. -/
structure Cursor.On (c : Cursor) (body : List (Token Kind)) : Prop where
  tokens : ∃ stop rest, stop.kind ∈ lineStop ∧ c.tokens = (body ++ stop :: rest).toArray
  going : c.abandoned = false

variable {body : List (Token Kind)} {c : Cursor} {p : Nat} {token : Token Kind}

namespace Cursor.On

theorem move (h : c.On body) (q : Nat) : Cursor.On { c with position := q } body :=
  ⟨h.tokens, h.going⟩

theorem getElem?_eq (h : c.On body) (htoken : body[p]? = some token) :
    c.tokens[p]? = some token := by
  obtain ⟨stop, rest, -, htokens⟩ := h.tokens
  have hlt : p < body.length := (List.getElem?_eq_some_iff.1 htoken).1
  rw [htokens, List.getElem?_toArray, List.getElem?_append_left hlt, htoken]

theorem stop (h : c.On body) :
    ∃ stop, c.tokens[body.length]? = some stop ∧ stop.kind ∈ lineStop := by
  obtain ⟨stop, rest, hstop, htokens⟩ := h.tokens
  exact ⟨stop, by simp [htokens], hstop⟩

theorem length_lt (h : c.On body) : body.length < c.tokens.size := by
  obtain ⟨stop, rest, -, htokens⟩ := h.tokens
  simp [htokens]

theorem no_bracket (h : c.On body) (hline : Bracketless body) (hp : p ≤ body.length) :
    ¬ KindAt c.tokens p .leftBracket := by
  rintro ⟨token, htoken, hkind⟩
  rcases Nat.lt_or_eq_of_le hp with hlt | rfl
  · have hget := List.getElem?_eq_getElem hlt
    obtain rfl := Option.some.inj (htoken.symm.trans (h.getElem?_eq hget))
    exact (hline _ (List.mem_of_getElem? hget)).2 hkind
  · obtain ⟨stop, hstop, hend⟩ := h.stop
    obtain rfl := Option.some.inj (htoken.symm.trans hstop)
    exact absurd (hkind ▸ hend) (by decide)

/-- A run of one kind ends on the line. -/
theorem runFrom_eq (h : c.On body) {kind : Kind} (hkind : kind ∉ lineStop) {limit : Nat}
    (hlimit : body.length ≤ p + limit) (hp : p ≤ body.length) :
    runFrom c.tokens kind limit p = (body.drop p).takeWhile (·.kind == kind) := by
  induction limit generalizing p with
  | zero => simp [runFrom, Nat.le_antisymm hp hlimit]
  | succ limit ih =>
    rw [runFrom]
    rcases Nat.lt_or_eq_of_le hp with hlt | rfl
    · have hget := List.getElem?_eq_getElem hlt
      rw [h.getElem?_eq hget, List.drop_eq_getElem_cons hlt, List.takeWhile_cons]
      simp only [beq_iff_eq, ih (p := p + 1) (by omega) hlt]
    · obtain ⟨stop, hstop, hend⟩ := h.stop
      have hne : stop.kind ≠ kind := by
        rintro rfl
        exact hkind hend
      simp [hstop, hne]

/-- The run of a delimiter on the line starts with it. -/
theorem runFrom_marker (h : c.On body) (htoken : body[p]? = some token) {marker : Marker}
    (hkind : token.kind = marker.kind) (hstop : token.kind ∉ lineStop) :
    runFrom c.tokens marker.kind (c.tokens.size - p) p =
      token :: (body.drop (p + 1)).takeWhile (·.kind == marker.kind) := by
  obtain ⟨hlt, rfl⟩ := List.getElem?_eq_some_iff.1 htoken
  have hlimit := h.length_lt
  rw [h.runFrom_eq (hkind ▸ hstop) (by omega) (Nat.le_of_lt hlt), List.drop_eq_getElem_cons hlt,
    List.takeWhile_cons, if_pos (beq_iff_eq.2 hkind)]

end Cursor.On

namespace InlineParser

/-- Without a bracket behind it no exclamation mark opens an image. -/
theorem view_image (h : c.On body) (hline : Bracketless body) (hp : c.position < body.length) :
    ∃ q, image.opening.view c.tokens c.position = (none, q) := by
  rcases hview : image.opening.view c.tokens c.position with ⟨_ | _, q⟩
  · exact ⟨q, rfl⟩
  · have hinside := image_regular.inside hview
    generalize c.position = p at hinside hp
    cases hinside with
    | bracket hbracket | marked hbracket _ _ =>
      exact absurd hbracket (h.no_bracket hline (Nat.le_of_lt hp))
    | image _ hbracket => exact absurd hbracket (h.no_bracket hline hp)

/-- On a line without brackets an attempt fails and leaves the cursor where it was. -/
theorem attemptAt_fails (parser : InlineParser) (parse : ParseContent) (h : c.On body)
    (hline : Bracketless body) (hp : c.position < body.length) {kind : Kind}
    (hkind : kind ≠ .leftBracket) :
    ∃ d, parser.attemptAt (some parse) kind c = (none, d) ∧ d.On body ∧
      d.position = c.position := by
  by_cases hframes : framesAt parser.options kind = []
  · rw [attemptAt_of_framesAt_nil _ hframes]
    exact ⟨c, rfl, h, rfl⟩
  · obtain rfl : kind = .exclamation := by
      cases kind with
      | exclamation => rfl
      | leftBracket => exact absurd rfl hkind
      | _ => exact absurd rfl hframes
    obtain ⟨q, hview⟩ := view_image h hline hp
    have hclosed : bodyAt parser.options parse .exclamation c.descend =
        (none, { c.descend with position := q }) :=
      Frame.attempt_of_closed image_regular hview
    have hposition : min c.position c.tokens.size = c.position :=
      Nat.min_eq_left (Nat.le_of_lt (Nat.lt_trans hp h.length_lt))
    rw [attemptAt_of_framesAt_ne_nil (some parse) hframes]
    unfold bracketed speculate
    dsimp only
    rw [hclosed]
    obtain ⟨tokens, position, failed, depth, abandoned, reports⟩ := c
    obtain rfl : abandoned = false := h.going
    split
    · exact ⟨_, rfl, h, rfl⟩
    · exact ⟨_, rfl, ⟨h.tokens, rfl⟩, hposition⟩

/-! ### Steps -/

/-- What a step makes of a draft on a line without brackets, and where it ends, is decided by
the line: both are found before it is known what else the cursor has. -/
theorem exists_step (parser : InlineParser) (hline : Bracketless body)
    (htoken : body[p]? = some token) (draft : Draft) :
    ∃ draft' q, p < q ∧ q ≤ body.length ∧ ∀ (parse : ParseContent) (c : Cursor), c.On body →
      c.position = p → ∃ d, parser.step (some parse) token draft c = (draft', d) ∧ d.On body ∧
        d.position = q := by
  have hlt : p < body.length := (List.getElem?_eq_some_iff.1 htoken).1
  obtain ⟨hstop, hbracket⟩ := hline token (List.mem_of_getElem? htoken)
  have hplain {f : Draft → Draft} {q : Nat}
      (h : ∀ c : Cursor, c.On body → c.position = p →
        Plain parser.options c.tokens p token f q) (parse : ParseContent) (c : Cursor)
      (hc : c.On body) (hp : c.position = p) :
      ∃ d, parser.step (some parse) token draft c = (f draft, d) ∧ d.On body ∧ d.position = q :=
    ⟨_, (h c hc hp).2.2 parser rfl _ draft c rfl hp, hc.move q, rfl⟩
  by_cases hmarker : ∃ marker : Marker, token.kind = marker.kind
  · obtain ⟨marker, hkind⟩ := hmarker
    have hle : ((body.drop (p + 1)).takeWhile (·.kind == marker.kind)).length ≤ _ :=
      (List.takeWhile_prefix _).length_le
    rw [List.length_drop] at hle
    exact ⟨_, _, by omega, by omega, hplain fun c hc _ =>
      .of_run hkind (hc.runFrom_marker htoken hkind hstop)⟩
  · by_cases hframes : framesAt parser.options token.kind = []
    · exact ⟨_, _, Nat.lt_succ_self p, hlt, hplain fun c hc _ =>
        .of_ne_marker hframes (fun marker hkind => hmarker ⟨marker, hkind⟩)
          (hc.getElem?_eq htoken)⟩
    · refine ⟨draft.pushText token.text token.span, p + 1, Nat.lt_succ_self p, hlt,
        fun parse c hc hp => ?_⟩
      subst hp
      obtain ⟨d, hattempt, hd, hposition⟩ := attemptAt_fails parser parse hc hline hlt hbracket
      rw [parser.step_of_framesAt_ne_nil _ draft c hframes]
      unfold orText
      rw [hattempt]
      exact ⟨d.advance, rfl, hd.move _, congrArg (· + 1) hposition⟩

theorem stopsAt_lineStop (h : c.On body) (token : Token Kind) :
    stopsAt lineStop c token = decide (token.kind ∈ lineStop) := by
  unfold stopsAt Token.isEof
  rw [h.going]
  cases token.kind <;> rfl

/-- What a line without brackets becomes is decided by the line. -/
theorem exists_steps (parser : InlineParser) (hline : Bracketless body) (draft : Draft)
    (hp : p ≤ body.length) :
    ∃ draft', ∀ (parse : ParseContent) (limit : Nat) (c : Cursor), c.On body → c.position = p →
      body.length ≤ p + limit → ∃ d,
        parser.steps (some parse) lineStop limit draft c = (draft', d) ∧
          d.position = body.length := by
  induction hless : body.length - p using Nat.strongRecOn generalizing p draft with
  | _ n ih =>
    rcases Nat.lt_or_eq_of_le hp with hlt | rfl
    · have htoken := List.getElem?_eq_getElem hlt
      obtain ⟨hstop, -⟩ := hline _ (List.mem_of_getElem? htoken)
      obtain ⟨draft₁, q, hq, hle, hstep⟩ := exists_step parser hline htoken draft
      obtain ⟨draft', hrest⟩ := ih (body.length - q) (by omega) draft₁ hle rfl
      refine ⟨draft', fun parse limit c hc hposition hlimit => ?_⟩
      obtain ⟨limit, rfl⟩ : ∃ less, limit = less + 1 := ⟨limit - 1, by omega⟩
      obtain ⟨d, hrun, hd, hend⟩ := hstep parse c hc hposition
      obtain ⟨e, hsteps, hlast⟩ := hrest parse limit d hd hend (by omega)
      have hgoing : stopsAt lineStop c body[p] = false := by
        rw [stopsAt_lineStop hc _, decide_eq_false hstop]
      have hpeek : c.peek = some body[p] := by
        subst hposition
        exact hc.getElem?_eq htoken
      refine ⟨e, ?_, hlast⟩
      simp only [steps, hpeek, hgoing, hrun]
      exact hsteps
    · refine ⟨draft, fun parse limit c hc hposition _ => ⟨c, ?_, hposition⟩⟩
      obtain ⟨stop, hpeek, hstop⟩ := hc.stop
      rw [← hposition] at hpeek
      refine steps_of_stopsAt hpeek ?_ limit draft
      rw [stopsAt_lineStop hc _, decide_eq_true hstop]

end InlineParser

/-- What a line without brackets becomes does not depend on what stands behind it. -/
theorem exists_lineOf (options : InlineOptions) (hline : Bracketless body) :
    ∃ nodes, ∀ (stop : Token Kind) (rest : List (Token Kind)), stop.kind ∈ lineStop →
      (lineOf options (body ++ stop :: rest)).1 = nodes ∧
        (lineOf options (body ++ stop :: rest)).2.position = body.length := by
  obtain ⟨draft, hsteps⟩ := InlineParser.exists_steps { options } hline {} (Nat.zero_le _)
  refine ⟨draft.finish, fun stop rest hstop => ?_⟩
  have hon : Cursor.On { tokens := (body ++ stop :: rest).toArray } body :=
    ⟨⟨stop, rest, hstop, rfl⟩, rfl⟩
  obtain ⟨d, hrun, hd⟩ := hsteps (InlineParser.atRoom { options } 63) (body ++ stop :: rest).length
    _ hon rfl (by simp)
  have hnodes : lineOf options (body ++ stop :: rest) = (draft.finish, d) :=
    congrArg (fun run : Draft × Cursor => (run.1.finish, run.2)) hrun
  rw [hnodes]
  exact ⟨rfl, hd⟩

end InlineMarkdown
