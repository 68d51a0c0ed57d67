import InlineMarkdown.Proofs.Progress

/-! What a run reports.

Reports are only added to, and a run that gives up for lack of room says so first
(`Cursor.Tells`). So behind a run that has reported no such thing, no attempt of it was given up
(`givesUp_of_shallow`). -/
namespace InlineMarkdown
open Attempt

/-- The report is of a lack of room. -/
def Event.isTooDeep : Event → Bool
  | .tooDeep .. => true
  | _ => false

namespace Cursor
variable {c d e : Cursor}

/-- Nothing was reported to be nested too deeply. -/
def Shallow (c : Cursor) : Prop := ∀ event ∈ c.reports, event.isTooDeep = false

instance (c : Cursor) : Decidable c.Shallow :=
  inferInstanceAs (Decidable (∀ event ∈ c.reports, event.isTooDeep = false))

/-- A run from `c` to `d` adds to the reports, and does not give up without one. -/
structure Tells (c d : Cursor) : Prop where
  reports : c.reports <:+ d.reports
  going : d.Shallow → c.abandoned = false → d.abandoned = false

namespace Tells

theorem refl (c : Cursor) : c.Tells c := ⟨List.suffix_refl _, fun _ h => h⟩

theorem shallow (h : c.Tells d) (hd : d.Shallow) : c.Shallow := fun event hevent =>
  hd event (h.reports.subset hevent)

theorem trans (h : c.Tells d) (h' : d.Tells e) : c.Tells e :=
  ⟨h.reports.trans h'.reports, fun he hc => h'.going he (h.going (h'.shallow he) hc)⟩

theorem move (h : c.Tells d) (position : Nat) : c.Tells { d with position } := ⟨h.reports, h.going⟩

end Tells
end Cursor

/-! ### Attempts -/

namespace Attempt
variable {α β : Type}

/-- Wherever it is made, the attempt tells. -/
def Tells (a : Attempt α) : Prop := ∀ c : Cursor, c.Tells (a c).2

theorem Moves.tells {a : Attempt α} (h : Moves a) : Tells a := by
  intro c
  rw [h.run c]
  exact (Cursor.Tells.refl c).move _

namespace Tells

theorem bind {a : Attempt α} {k : α → Attempt β} (ha : Tells a) (hk : ∀ x, Tells (k x)) :
    Tells (a >>= k) := by
  intro c
  have hrun := ha c
  rcases h : a c with ⟨_ | x, d⟩ <;> rw [h] at hrun
  · rw [bind_none h]
    exact hrun
  · rw [bind_some h]
    exact hrun.trans (hk x d)

theorem speculate {a : Attempt α} (ha : Tells a) (construct : Construct) :
    Tells (speculate construct a) := by
  intro c
  have hrun := ha c
  unfold Attempt.speculate
  rcases h : a c with ⟨_ | x, d⟩ <;> rw [h] at hrun
  · have hreport : d.Tells (d.report (.noMatch construct c.position)) :=
      ⟨List.suffix_cons _ _, fun _ h => h⟩
    exact (hrun.trans hreport).move _
  · exact hrun

theorem orElse {a b : Attempt α} (ha : Tells a) (hb : Tells b) : Tells (a.orElse b) := by
  intro c
  have hrun := ha c
  unfold Attempt.orElse
  rcases h : a c with ⟨_ | x, d⟩ <;> rw [h] at hrun
  · exact hrun.trans (hb d)
  · exact hrun

theorem bracketed {ι : Type} {inner : Option ι} {attempt : ι → Attempt α} (remember : Bool)
    (construct : Construct) (h : ∀ x ∈ inner, Tells (attempt x)) :
    Tells (bracketed remember inner construct attempt) := by
  intro c
  unfold Attempt.bracketed
  dsimp only
  split
  · exact .refl c
  · cases inner with
    | none =>
      refine ⟨List.suffix_cons _ _, fun hshallow => ?_⟩
      exact nomatch hshallow _ (List.mem_cons_self ..)
    | some x =>
      have hrun := (h x rfl).speculate construct c.descend
      have hends (d : Cursor) (hd : c.descend.Tells d) : c.Tells d.ascend.2 :=
        ⟨hd.reports, fun hshallow hc => by
          show (d.abandoned && _) = false
          rw [hd.going hshallow hc, Bool.false_and]⟩
      dsimp only
      rcases h : Attempt.speculate construct (attempt x) c.descend with ⟨_ | a, d⟩ <;>
        rw [h] at hrun
      · have hd := hends d hrun
        dsimp only
        split
        · exact hd
        · exact ⟨hd.reports, hd.going⟩
      · have hd := hends d hrun
        dsimp only
        split
        · exact hd.move _
        · exact hd

end Tells
end Attempt

/-- Wherever it begins, the parse of content tells. -/
def ParseContent.Tells (parse : ParseContent) : Prop :=
  ∀ (stop : List Kind) (c : Cursor), c.Tells (parse stop c).2

namespace InlineParser
open InlineMarkdown.Frame
variable {parser : InlineParser} {inner : Option ParseContent} {parse : ParseContent} {kind : Kind}
  {c : Cursor} {token : Token Kind}

theorem attempt_tells {frame : Frame} (hframe : frame.Regular) (hparse : parse.Tells) :
    Attempt.Tells (frame.attempt parse) := by
  intro c
  have hcontent : Attempt.Tells (ofStep (parse [.rightBracket])) := fun d =>
    hparse [.rightBracket] d
  exact hframe.opens.tells.bind
    (fun _ => hcontent.bind fun content => (hframe.closes c.position content).tells) c

theorem firstOf_tells {frames : List Frame} (hframes : ∀ frame ∈ frames, frame.Regular)
    (hparse : parse.Tells) : Attempt.Tells (firstOf parse frames) := by
  induction frames with
  | nil => exact Moves.fail.tells
  | cons frame rest ih =>
    have hfirst := attempt_tells (hframes frame (List.mem_cons_self ..)) hparse
    exact (hfirst.speculate frame.construct).orElse
      (ih fun f hf => hframes f (List.mem_cons_of_mem frame hf))

theorem bodyAt_tells (options : InlineOptions) (kind : Kind) (hparse : parse.Tells) :
    Attempt.Tells (bodyAt options parse kind) := by
  cases kind with
  | exclamation => exact attempt_tells image_regular hparse
  | leftBracket =>
    have hframes : ∀ frame ∈ framesAt options .leftBracket, frame.Regular :=
      fun _ => framesAt_regular
    exact firstOf_tells hframes hparse
  | _ => exact Moves.fail.tells

theorem attemptAt_tells (kind : Kind) (hinner : ∀ parse ∈ inner, parse.Tells) :
    Attempt.Tells (parser.attemptAt inner kind) := by
  by_cases hframes : framesAt parser.options kind = []
  · rw [attemptAt_of_framesAt_nil inner hframes]
    exact Moves.fail.tells
  · rw [attemptAt_of_framesAt_ne_nil inner hframes]
    exact .bracketed _ _ fun parse hparse => bodyAt_tells parser.options kind (hinner parse hparse)

/-! ### Levels -/

theorem step_tells (hinner : ∀ parse ∈ inner, parse.Tells) (htoken : c.peek = some token)
    (draft : Draft) : c.Tells (parser.step inner token draft c).2 := by
  by_cases hframes : framesAt parser.options token.kind = []
  · obtain ⟨f, q, -, -, hplain⟩ := exists_plain htoken hframes
    rw [hplain parser rfl inner draft c rfl rfl]
    exact (Cursor.Tells.refl c).move q
  · have hattempt := parser.attemptAt_tells token.kind hinner c
    rw [parser.step_of_framesAt_ne_nil inner draft c hframes]
    unfold orText
    rcases h : parser.attemptAt inner token.kind c with ⟨_ | node, d⟩ <;> rw [h] at hattempt
    · exact hattempt.move _
    · exact hattempt

theorem steps_tells (hinner : ∀ parse ∈ inner, parse.Tells) (stop : List Kind) (limit : Nat)
    (draft : Draft) (c : Cursor) : c.Tells (parser.steps inner stop limit draft c).2 := by
  exact steps_preserve (fun _ d => c.Tells d)
    (fun draft _ _ htells htoken _ => htells.trans (step_tells hinner htoken draft)) limit (.refl c)

theorem inside_tells (parser : InlineParser) (room : Nat) :
    ∀ parse ∈ parser.inside room, parse.Tells := by
  induction room with
  | zero => exact nofun
  | succ room ih =>
    intro parse hparse
    obtain rfl := Option.some.inj hparse
    rw [atRoom_eq_level]
    exact fun stop c => steps_tells ih stop c.remaining {} c

/-- An attempt behind which nothing was reported to be nested too deeply was not given up. -/
theorem givesUp_of_shallow (hinner : ∀ parse ∈ inner, parse.Tells) (hgoing : c.abandoned = false)
    (hframes : framesAt parser.options kind ≠ [])
    (hshallow : (parser.attemptAt inner kind c).2.Shallow) :
    parser.givesUp inner kind c = false := by
  rw [attemptAt_of_framesAt_ne_nil inner hframes] at hshallow
  unfold bracketed at hshallow
  unfold givesUp
  dsimp only at hshallow
  split at hshallow
  · rename_i hknown
    rw [hknown]
    rfl
  · cases inner with
    | none => exact nomatch hshallow _ (List.mem_cons_self ..)
    | some parse =>
      have hrun := (bodyAt_tells parser.options kind (hinner parse rfl)).speculate
        (constructAt kind) c.descend
      dsimp only [Option.all_some] at hshallow ⊢
      rcases h : speculate (constructAt kind) (bodyAt parser.options parse kind) c.descend with
        ⟨result, d⟩
      rw [h] at hrun hshallow
      have hd : d.Shallow := by
        cases result <;> dsimp only at hshallow <;> split at hshallow <;> exact hshallow
      rw [hrun.going hd hgoing, Bool.and_false]

end InlineParser
end InlineMarkdown
