import InlineMarkdown.Proofs.Reports
import InlineMarkdown.Proofs.Memory
import InlineMarkdown.Token.Tokenize

/-! One cursor for many parses.

The failures that a parse remembers are still known to the next one, wherever that begins.
A parse that passes over a known failure needs fewer levels for it, so where levels run out
an earlier parse can be seen in the nodes. Where they do not (`Fits`), every memory is safe,
and a parse in a session comes to what it comes to on a cursor of its own. Whether they do
can be told from the reports of that cursor (`fits_of_shallow`). -/
namespace InlineMarkdown
open Attempt

namespace InlineParser
open InlineMarkdown.Frame
variable {parser : InlineParser} {tokens : Array (Token Kind)} {stop : List Kind} {c : Cursor}
  {token : Token Kind} {p : Nat}

/-- From `p` on, up to where the parse stops, no attempt needs more levels than there are. -/
def Fits (parser : InlineParser) (stop : List Kind) (tokens : Array (Token Kind)) (p : Nat) :
    Prop :=
  ∀ q d, (parser.trail tokens).Visits (parser.wayRound tokens) (Halts tokens stop) p q d →
    d < parser.search.nesting

theorem Fits.safeFrom (h : parser.Fits stop c.tokens c.position) : SafeFrom parser stop c := by
  rintro q d hvisits - ⟨r, e, hattempt, hle⟩
  have := h r (d + e) (hvisits.trans hattempt)
  omega

theorem fits_of_halts (h : Halts tokens stop p) : parser.Fits stop tokens p :=
  fun _ _ hvisits => absurd h hvisits.cases.1

/-- It is enough to look at one attempt and then at the rest of the way. -/
theorem fits_of_next (hfits : ¬ (parser.trail tokens).Deep parser.search.nesting p)
    (hrest : parser.Fits stop tokens (parser.wayRound tokens p)) : parser.Fits stop tokens p := by
  intro q d hvisits
  rcases hvisits.cases.2 with hattempt | honward
  · exact Nat.lt_of_not_le fun hle => hfits ⟨q, d, hattempt, hle⟩
  · exact hrest q d honward

/-- An attempt that needs too many levels is reported. -/
theorem not_deep_of_shallow (hsafe : SafeFrom parser stop c)
    (hstanding : Standing parser c.tokens parser.search.nesting c)
    (hhalts : ¬ Halts c.tokens stop c.position) (htoken : c.peek = some token) {draft : Draft}
    (hshallow : (parser.step (parser.inside parser.search.nesting) token draft c).2.Shallow) :
    ¬ (parser.trail c.tokens).Deep parser.search.nesting c.position := by
  intro hdeep
  obtain ⟨_, _, hattempt, -⟩ := id hdeep
  have hframes := (tried_iff htoken).1 hattempt.tries
  have hattempt :
      (parser.attemptAt (parser.inside parser.search.nesting) token.kind c).2.Shallow := by
    rw [parser.step_of_framesAt_ne_nil _ draft c hframes] at hshallow
    unfold orText at hshallow
    rcases h : parser.attemptAt (parser.inside parser.search.nesting) token.kind c with
      ⟨_ | node, d⟩ <;> rw [h] at hshallow <;> exact hshallow
  have houtcome := attemptAt_givesUp parser (parser.inside parser.search.nesting) c hframes
  rw [givesUp_of_shallow (parser.inside_tells _) hstanding.going hframes hattempt] at houtcome
  obtain ⟨hexplored, -⟩ := houtcome.explored htoken hframes
    (fun less _ => parser.atRoom_explores less) hstanding.going hstanding.sound
    (Descent.safe_attempt hhalts hsafe)
  exact Bool.false_ne_true (hexplored.deep.2 hdeep)

/-- If a run reports no lack of room, there is room from where it began. -/
theorem fits_of_shallow (hnesting : 0 < parser.search.nesting) (limit : Nat) (draft : Draft)
    (hlimit : c.remaining ≤ limit)
    (hstanding : Standing parser c.tokens parser.search.nesting c)
    (hsafe : SafeFrom parser stop c)
    (hshallow :
      (parser.steps (parser.inside parser.search.nesting) stop limit draft c).2.Shallow) :
    parser.Fits stop c.tokens c.position := by
  induction limit generalizing draft c with
  | zero => exact fits_of_halts (halts_of_remaining hlimit)
  | succ limit ih =>
    by_cases hhalts : Halts c.tokens stop c.position
    · exact fits_of_halts hhalts
    · obtain ⟨token, htoken, -, -⟩ := exists_token_of_not_halts hhalts
      have htoken : c.peek = some token := htoken
      have hstops := (stopsAt_of_not_halts htoken hstanding.going).2 hhalts
      have hnext := hstanding.step hnesting htoken hstops draft
      obtain ⟨-, hway, hsafe'⟩ := hsafe.step hstanding hhalts htoken draft
      have hless :=
        parser.remaining_step_lt (parser.inside_orderly parser.search.nesting) htoken draft
      simp only [steps, htoken, hstops, Bool.false_eq_true, if_false] at hshallow
      have hfirst := (steps_tells (parser.inside_tells _) stop limit _ _).shallow hshallow
      refine fits_of_next (not_deep_of_shallow hsafe hstanding hhalts htoken hfirst) ?_
      rw [← hway, ← hnext.tokens]
      exact ih _ (by omega) (by rwa [hnext.tokens]) hsafe' hshallow

/-! ### Sessions -/

/-- A parse in a session is the parse of the same place by a cursor that has parsed nothing
before, provided that the latter reports no lack of room. -/
theorem Session.parse_eq_fresh {options : InlineOptions} (h : Session { options } tokens c)
    (stop : List Kind)
    (hshallow : (({ options } : InlineParser).parse stop
      (Cursor.reset { tokens } c.position)).2.Shallow) :
    (({ options } : InlineParser).parse stop c).1 =
        (({ options } : InlineParser).parse stop (Cursor.reset { tokens } c.position)).1 ∧
      (({ options } : InlineParser).parse stop c).2.position =
        (({ options } : InlineParser).parse stop
          (Cursor.reset { tokens } c.position)).2.position := by
  have hnesting : 0 < ({ options } : InlineParser).search.nesting := Nat.succ_pos 63
  generalize ({ options } : InlineParser) = parser at h hshallow hnesting ⊢
  have hstanding := h.standing hnesting
  have hfresh := standing_fresh parser tokens c.position
  have hsafe := safeFrom_fresh parser stop tokens c.position
  have hposition : (Cursor.reset { tokens } c.position).position = c.position :=
    Nat.min_eq_left hstanding.within
  obtain rfl := hstanding.tokens
  rw [hfresh.parse_eq_level] at hshallow
  have hfits := fits_of_shallow hnesting _ {} (Nat.le_refl _) hfresh hsafe hshallow
  rw [hposition] at hfits
  -- both come to what the naive parser comes to on a cursor of its own
  have hnaive := standing_fresh parser.naive c.tokens c.position
  obtain ⟨hnodes, hend⟩ := (Fits.safeFrom hfits).parse_eq hnesting hposition rfl hstanding hnaive
  obtain ⟨hnodes₀, hend₀⟩ := hsafe.parse_eq hnesting rfl rfl hfresh hnaive
  exact ⟨hnodes.trans hnodes₀.symm, hend.trans hend₀.symm⟩

/-- The bracket inside a footnote is known to fail when the footnote is parsed. -/
theorem Session.parse_eq_fresh_footnote :
    let tokens := (tokenize "[^[a]".toList).toArray
    let c := (({} : InlineParser).parse [.rightBracket] (Cursor.reset { tokens } 2)).2.reset 0
    Session {} tokens c ∧
      (({} : InlineParser).parse [] (Cursor.reset { tokens } 0)).2.Shallow ∧
      (({} : InlineParser).parse [] c).1 =
        (({} : InlineParser).parse [] (Cursor.reset { tokens } 0)).1 ∧
      (({} : InlineParser).parse [] c).2.position =
        (({} : InlineParser).parse [] (Cursor.reset { tokens } 0)).2.position := by
  intro tokens c
  have hsession : Session {} tokens c := ((Session.fresh.reset 2).parse [.rightBracket]).reset 0
  have hshallow : (({} : InlineParser).parse [] (Cursor.reset { tokens } 0)).2.Shallow := by
    decide +kernel
  exact ⟨hsession, hshallow, hsession.parse_eq_fresh [] hshallow⟩

/-! ### Where levels run out -/

/-- Fifty-five footnotes in one another, and ten brackets inside that start nothing. -/
def nestedNotes : Array (Token Kind) :=
  (tokenize ((List.replicate 55 "[^x".toList).flatten ++ List.replicate 10 '[' ++ ['a'] ++
    List.replicate 55 ']')).toArray

/-- Back at the first token after a parse of the innermost content. -/
def backFromInside : Cursor :=
  (({} : InlineParser).parse [.rightBracket] (Cursor.reset { tokens := nestedNotes } 165)).2.reset 0

/-- An earlier parse can be seen: it knows the failures that keep the footnotes within the
levels there are, where a cursor of its own finds one level too few. -/
theorem parse_backFromInside_ne_fresh :
    Session {} nestedNotes backFromInside ∧ backFromInside.position = 0 ∧
      (({} : InlineParser).parse [.caret] backFromInside).1 ≠
        (({} : InlineParser).parse [.caret] (Cursor.reset { tokens := nestedNotes } 0)).1 := by
  have hused : (({} : InlineParser).parse [.caret] backFromInside).1.map (·.kind) =
      [.footnote ['x']] := by decide +kernel
  have hfresh : (({} : InlineParser).parse [.caret]
      (Cursor.reset { tokens := nestedNotes } 0)).1.map (·.kind) = [.text ['[']] := by
    decide +kernel
  refine ⟨((Session.fresh.reset 165).parse [.rightBracket]).reset 0, Nat.zero_min _, fun h => ?_⟩
  rw [h, hfresh] at hused
  cases hused

end InlineParser
end InlineMarkdown
