import InlineMarkdown.Proofs.Progress

/-! The inline parser does not pass the end of the input.

A token that ends the input may stand anywhere in a list of tokens. An attempt that
succeeds has not passed one (`Attempt.Stays`): it only passes tokens of kinds that it asks
for, and content up to a token at which content ends. So no step passes one either, and no
level of content does. -/
namespace InlineMarkdown
open Attempt

/-- No token from index `p` up to index `q` ends the input. -/
def EofFree (tokens : Array (Token Kind)) (p q : Nat) : Prop :=
  ∀ i, p ≤ i → i < q → ∀ token, tokens[i]? = some token → token.isEof = false

namespace EofFree
variable {tokens : Array (Token Kind)} {p q r : Nat}

theorem refl (tokens : Array (Token Kind)) (p : Nat) : EofFree tokens p p :=
  fun _ hp hq => absurd hp (Nat.not_le.2 hq)

theorem trans (h : EofFree tokens p q) (h' : EofFree tokens q r) : EofFree tokens p r := by
  intro i hp hr
  by_cases hq : i < q
  · exact h i hp hq
  · exact h' i (Nat.not_lt.1 hq) hr

theorem succ {token : Token Kind} (htoken : tokens[p]? = some token) (heof : token.isEof = false) :
    EofFree tokens p (p + 1) := by
  intro i hp hq other hother
  obtain rfl : i = p := by omega
  obtain rfl := Option.some.inj (htoken.symm.trans hother)
  exact heof

theorem of_kindAt {kind : Kind} (h : KindAt tokens p kind) (hkind : kind ≠ .eof) :
    EofFree tokens p (p + 1) := by
  obtain ⟨token, htoken, rfl⟩ := h
  exact succ htoken (by simpa [Token.isEof, TokenKind.isEof] using hkind)

end EofFree

/-! ### Attempts -/

namespace Attempt
variable {α β : Type}

/-- Where the attempt succeeds, it has not passed the end of the input. -/
structure Stays (a : Attempt α) : Prop where
  eofFree {tokens : Array (Token Kind)} {p q : Nat} {x : α} : a.view tokens p = (some x, q) →
    EofFree tokens p q

namespace Stays

theorem bind {a : Attempt α} {k : α → Attempt β} (hmoves : Moves a) (ha : Stays a)
    (hk : ∀ x, Stays (k x)) : Stays (a >>= k) := by
  refine ⟨fun h => ?_⟩
  obtain ⟨x, r, hfirst, hrest⟩ := view_bind_eq_some hmoves h
  exact (ha.eofFree hfirst).trans ((hk x).eofFree hrest)

theorem ite {a b : Attempt α} {p : Prop} [Decidable p] (ha : Stays a) (hb : Stays b) :
    Stays (if p then a else b) := by
  split
  · exact ha
  · exact hb

/-- What does not move passes nothing. -/
theorem of_still {a : Attempt α} (h : ∀ c, (a c).2 = c) : Stays a := by
  refine ⟨@fun tokens p q x hview => ?_⟩
  obtain rfl : p = q := by
    have hposition := congrArg Prod.snd hview
    rw [view, h] at hposition
    exact hposition
  exact .refl tokens p

theorem pure (a : α) : Stays (pure a : Attempt α) := of_still fun _ => rfl

theorem fail : Stays (fail : Attempt α) := of_still fun _ => rfl

theorem ofOption (value : Option α) : Stays (ofOption value) := of_still fun _ => rfl

theorem look (f : Cursor → α) : Stays (look f) := of_still fun _ => rfl

theorem expect {kind : Kind} (h : kind ≠ .eof) : Stays (expect kind) := by
  refine ⟨fun hview => ?_⟩
  obtain ⟨rfl, hkind⟩ := view_expect_eq_some hview
  exact .of_kindAt hkind h

/-- The text up to a closing token does not go beyond the end of the input. -/
theorem rawUpTo (close : Kind) (limit : Nat) : Stays (rawUpTo close limit) := by
  induction limit with
  | zero => exact fail
  | succ limit ih =>
    refine ⟨@fun tokens p q raw hview => ?_⟩
    rw [funext (rawUpTo_succ close limit)] at hview
    have hround : (rawRound close (Attempt.rawUpTo close limit) tokens[p]?).view tokens p =
        (some raw, q) := hview
    cases htoken : tokens[p]? with
    | none =>
      rw [htoken] at hround
      exact fail.eofFree hround
    | some token =>
      rw [htoken] at hround
      simp only [rawRound] at hround
      split at hround
      · exact (pure _).eofFree hround
      · split at hround
        · exact fail.eofFree hround
        · rename_i hgoing
          rw [Bool.or_eq_true, not_or] at hgoing
          obtain ⟨_, r, hpassed, hrest⟩ := view_bind_eq_some (consume_moves _) hround
          obtain ⟨rfl, -⟩ := view_consume_eq_some hpassed
          exact (EofFree.succ htoken (eq_false_of_ne_true hgoing.1)).trans
            ((bind (rawUpTo_moves close limit) ih fun _ => pure _).eofFree hrest)

theorem rawUntil (close : Kind) : Stays (rawUntil close) :=
  ⟨fun hview => (rawUpTo close _).eofFree hview⟩

end Stays
end Attempt

namespace InlineParser

theorem destination_stays : Stays destination :=
  .bind (expect_moves _) (.expect (by decide)) fun _ =>
    .bind (rawUntil_moves _) (.rawUntil _) fun _ =>
      .bind (expect_moves _) (.expect (by decide)) fun _ => .ofOption _

theorem identifier_stays (content : List Node) : Stays (identifier content) :=
  .bind (expect_moves _) (.expect (by decide)) fun _ => .ite .fail (.pure _)

/-- What closes a construct does not pass the end of the input. -/
theorem closing_stays {options : InlineOptions} {kind : Kind} {frame : Frame}
    (h : frame ∈ framesAt options kind) (start : Nat) (content : List Node) :
    Stays (frame.closing start content) := by
  rcases framesAt_cases h with rfl | rfl | rfl | rfl
  · exact .bind (expect_moves _) (.expect (by decide)) fun _ =>
      .bind destination_moves destination_stays fun _ => .look _
  · exact .bind (identifier_moves _) (identifier_stays _) fun _ => .look _
  · exact .bind (identifier_moves _) (identifier_stays _) fun _ => .look _
  · refine .bind (expect_moves _) (.expect (by decide)) fun _ =>
      .bind (.look fun _ => rfl) (.look _) fun _ => .ite ?_ ?_
    · exact .bind destination_moves destination_stays fun _ => .look _
    · exact .bind (expect_moves _) (.expect (by decide)) fun _ =>
        .bind (rawUntil_moves _) (.rawUntil _) fun _ =>
          .bind (expect_moves _) (.expect (by decide)) fun _ =>
            .bind (.ofOption _) (.ofOption _) fun _ => .look _

end InlineParser

/-- What opens a construct does not pass the end of the input. -/
theorem Inside.eofFree {tokens : Array (Token Kind)} {p q : Nat} (h : Inside tokens p q) :
    EofFree tokens p q := by
  cases h with
  | bracket hbracket => exact .of_kindAt hbracket (by decide)
  | marked hbracket hmark hkind =>
    refine (EofFree.of_kindAt hbracket (by decide)).trans (.of_kindAt hmark ?_)
    rcases hkind with rfl | rfl <;> decide
  | image hmark hbracket =>
    exact (EofFree.of_kindAt hmark (by decide)).trans (.of_kindAt hbracket (by decide))

/-- A parse of content that does not pass the end of the input. -/
def ParseContent.Stays (parse : ParseContent) : Prop :=
  ∀ (stop : List Kind) (c : Cursor), c.position ≤ c.tokens.size →
    EofFree c.tokens c.position (parse stop c).2.position

namespace Frame
variable {options : InlineOptions} {kind : Kind} {frame : Frame} {frames : List Frame}
  {parse : ParseContent} {c d : Cursor} {node : Node}

/-- A construct that matches has not passed the end of the input. -/
theorem attempt_stays (hframe : frame ∈ InlineParser.framesAt options kind) (hparse : parse.Orderly)
    (hstays : parse.Stays) (hc : c.position ≤ c.tokens.size)
    (h : frame.attempt parse c = (some node, d)) : EofFree c.tokens c.position d.position := by
  have hregular := InlineParser.framesAt_regular hframe
  obtain ⟨q, content, middle, hview, hopens, hcontent, hclosing⟩ :=
    exists_content hregular hparse hc h
  have hinside := hstays [.rightBracket] { c with position := q } hopens
  rw [hcontent] at hinside
  have hcloses := (InlineParser.closing_stays hframe c.position content).eofFree hclosing
  exact (hregular.inside hview).eofFree.trans (hinside.trans hcloses)

theorem Tries.stays (h : Tries parse frames c (some node) d)
    (hframes : ∀ frame ∈ frames, frame ∈ InlineParser.framesAt options kind)
    (hparse : parse.Orderly) (hstays : parse.Stays) (hc : c.position ≤ c.tokens.size) :
    EofFree c.tokens c.position d.position := by
  obtain ⟨frame, hmem, c', htokens, hposition, hattempt⟩ :=
    h.exists_hit (fun frame hframe => InlineParser.framesAt_regular (hframes frame hframe)) hparse hc
  rw [← htokens, ← hposition] at hc ⊢
  exact attempt_stays (hframes frame hmem) hparse hstays hc hattempt

end Frame

namespace InlineParser
open InlineMarkdown.Frame
variable {parser : InlineParser} {inner : Option ParseContent} {c d : Cursor}

theorem Outcome.stays {kind : Kind} {abandoned : Bool} {node : Node}
    (h : Outcome parser inner kind c abandoned (some node) d)
    (hinner : ∀ parse ∈ inner, parse.Orderly ∧ parse.Stays) (hc : c.position ≤ c.tokens.size) :
    EofFree c.tokens c.position d.position := by
  cases h with
  | matched _ hparse htries _ =>
    obtain ⟨horderly, hstays⟩ := hinner _ hparse
    exact htries.stays (fun _ => id) horderly hstays hc

/-- A run of delimiters holds nothing but delimiters. -/
theorem runFrom_eofFree (tokens : Array (Token Kind)) {kind : Kind} (hkind : kind ≠ .eof)
    (limit p : Nat) : EofFree tokens p (p + (Cursor.runFrom tokens kind limit p).length) :=
  fun i hp hq =>
    EofFree.of_kindAt (Cursor.kindAt_runFrom hp hq) hkind i (Nat.le_refl i) (Nat.lt_succ_self i)

theorem delimiterRun_stays (parser : InlineParser) (marker : Marker) (draft : Draft) (c : Cursor) :
    EofFree c.tokens c.position (parser.delimiterRun marker draft c).2.position := by
  have hkind : marker.kind ≠ .eof := by cases marker <;> decide
  have hpassed := runFrom_eofFree c.tokens hkind c.remaining c.position
  unfold delimiterRun Cursor.bumpRun
  dsimp only
  split
  · split <;> exact hpassed
  · exact hpassed

/-- A step at a token that does not end the input passes none that does. -/
theorem step_stays (parser : InlineParser) {token : Token Kind}
    (hinner : ∀ parse ∈ inner, parse.Orderly ∧ parse.Stays) (htoken : c.peek = some token)
    (heof : token.isEof = false) (draft : Draft) :
    EofFree c.tokens c.position (parser.step inner token draft c).2.position := by
  have hlt : c.position < c.tokens.size := lt_size_of_peek htoken
  have hone : EofFree c.tokens c.position (c.position + 1) := .succ htoken heof
  have hstepped := parser.stepped inner token draft c
  generalize parser.step inner token draft c = behind at hstepped ⊢
  cases hstepped with
  | run marker => exact parser.delimiterRun_stays marker draft c
  | node hattempt => exact (attemptAt_matched hattempt).stays hinner (Nat.le_of_lt hlt)
  | leaf => exact hone
  | @text d _ hattempt =>
    have horderly := fun parse hparse => (hinner parse hparse).1
    show EofFree c.tokens c.position (d.position + 1)
    rw [(attemptAt_leads horderly (Nat.le_of_lt hlt) hattempt).2 rfl]
    exact hone

theorem steps_stays (parser : InlineParser)
    (hinner : ∀ parse ∈ inner, parse.Orderly ∧ parse.Stays) (stop : List Kind) (limit : Nat)
    (draft : Draft) (hc : c.position ≤ c.tokens.size) :
    EofFree c.tokens c.position (parser.steps inner stop limit draft c).2.position := by
  refine (steps_preserve (fun _ d => c.Leads d ∧ EofFree c.tokens c.position d.position) ?_ limit
    ⟨.refl hc, .refl _ _⟩).2
  intro draft d token hd htoken hstops
  obtain ⟨hleads, hfree⟩ := hd
  have hstep := parser.step_stays hinner htoken (isEof_of_stopsAt hstops) draft
  rw [hleads.tokens] at hstep
  have hnext := (parser.step_leads (fun parse hparse => (hinner parse hparse).1) htoken draft).1
  exact ⟨hleads.trans hnext, hfree.trans hstep⟩

theorem level_stays (parser : InlineParser)
    (hinner : ∀ parse ∈ inner, parse.Orderly ∧ parse.Stays) :
    ParseContent.Stays (parser.level inner) :=
  fun stop c hc => parser.steps_stays hinner stop c.remaining {} hc

/-- No level of content passes the end of the input. -/
theorem atRoom_stays (parser : InlineParser) (room : Nat) :
    ParseContent.Stays (parser.atRoom room) := by
  induction room with
  | zero => exact parser.level_stays fun parse hparse => absurd hparse (by simp)
  | succ room ih =>
    refine parser.level_stays fun parse hparse => ?_
    obtain rfl := Option.some.inj hparse
    exact ⟨parser.atRoom_orderly room, ih⟩

end InlineParser
end InlineMarkdown
