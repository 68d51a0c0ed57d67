import InlineMarkdown.Proofs.Outcome

/-! What every piece of a run keeps.

Whatever the parser does, the tokens and the nesting are the ones before, remembered
failures stay, and the cursor does not leave the tokens (`Cursor.Leads`). A step moves
forward, and so does an attempt that succeeds; one that fails ends where it started.
Content at an abandoned cursor is passed over altogether. -/
namespace InlineMarkdown
open Attempt

/-- A run may lead from `c` to `d`. -/
structure Cursor.Leads (c d : Cursor) : Prop where
  tokens : d.tokens = c.tokens
  depth : d.depth = c.depth
  failed (p : Nat) : c.failed.contains p = true → d.failed.contains p = true
  within : d.position ≤ d.tokens.size

namespace Cursor.Leads
variable {c d e : Cursor}

theorem refl (h : c.position ≤ c.tokens.size) : c.Leads c := ⟨rfl, rfl, fun _ hp => hp, h⟩

theorem trans (h : c.Leads d) (h' : d.Leads e) : c.Leads e :=
  ⟨h'.tokens.trans h.tokens, h'.depth.trans h.depth, fun p hp => h'.failed p (h.failed p hp),
    h'.within⟩

/-- Moving the position within the tokens, whatever is reported. -/
theorem move {q : Nat} (h : c.Leads d) (hq : q ≤ d.tokens.size) :
    c.Leads { d with position := q } :=
  ⟨h.tokens, h.depth, h.failed, hq⟩

theorem reset_position (h : c.Leads d) (hc : c.position ≤ c.tokens.size) :
    (d.reset c.position).position = c.position := by
  rw [← h.tokens] at hc
  exact Nat.min_eq_left hc

end Cursor.Leads

/-- A parse of content as every level provides it. -/
structure ParseContent.Orderly (parse : ParseContent) : Prop where
  leads (stop : List Kind) (c : Cursor) : c.position ≤ c.tokens.size →
    c.Leads (parse stop c).2 ∧ c.position ≤ (parse stop c).2.position
  idle (stop : List Kind) (c : Cursor) : c.abandoned = true → parse stop c = ([], c)

namespace Frame
variable {parse : ParseContent}

/-! ### Attempts -/

theorem attempt_leads {frame : Frame} (hframe : frame.Regular) (hparse : parse.Orderly) {c : Cursor}
    (hc : c.position ≤ c.tokens.size) :
    c.Leads (frame.attempt parse c).2 ∧
      ((frame.attempt parse c).1 ≠ none → c.position < (frame.attempt parse c).2.position) := by
  have hopens := hframe.opens.within c.tokens c.position hc
  rcases hview : frame.opening.view c.tokens c.position with ⟨_ | _, q⟩ <;> rw [hview] at hopens
  · rw [attempt_of_closed hframe hview]
    exact ⟨(Cursor.Leads.refl hc).move hopens, fun hne => absurd rfl hne⟩
  · have hlt : c.position < q := (hframe.inside hview).lt
    obtain ⟨hleads, hle⟩ := hparse.leads [.rightBracket] { c with position := q } hopens
    rcases hcontent : parse [.rightBracket] { c with position := q } with ⟨content, d⟩
    rw [hcontent] at hleads hle
    rw [attempt_of_open hframe hview hcontent]
    have hcloses := hframe.closes c.position content
    refine ⟨((Cursor.Leads.refl hc).move hopens).trans hleads |>.move
      (hcloses.within _ _ hleads.within), fun _ => ?_⟩
    exact Nat.lt_of_lt_of_le hlt (Nat.le_trans hle (hcloses.forward _ _))

/-- A construct that matches has opened, and it closes behind the content. -/
theorem exists_content {frame : Frame} (hframe : frame.Regular) (hparse : parse.Orderly)
    {c d : Cursor} {node : Node} (hc : c.position ≤ c.tokens.size)
    (h : frame.attempt parse c = (some node, d)) :
    ∃ q content middle, frame.opening.view c.tokens c.position = (some (), q) ∧
      q ≤ c.tokens.size ∧ parse [.rightBracket] { c with position := q } = (content, middle) ∧
      (frame.closing c.position content).view c.tokens middle.position = (some node, d.position) := by
  have hopens := hframe.opens.within c.tokens c.position hc
  rcases hview : frame.opening.view c.tokens c.position with ⟨_ | _, q⟩ <;> rw [hview] at hopens
  · rw [attempt_of_closed hframe hview] at h
    cases h
  · have hleads := (hparse.leads [.rightBracket] { c with position := q } hopens).1
    rcases hcontent : parse [.rightBracket] { c with position := q } with ⟨content, middle⟩
    rw [attempt_of_open hframe hview hcontent] at h
    obtain ⟨hnode, rfl⟩ := Prod.mk.inj h
    rw [hcontent] at hleads
    have htokens : middle.tokens = c.tokens := hleads.tokens
    rw [htokens] at hnode ⊢
    exact ⟨q, content, middle, rfl, hopens, hcontent, Prod.ext hnode rfl⟩

/-- Behind a construct that does not match, the next one is tried at the same place. -/
theorem miss_leads {frame : Frame} (hframe : frame.Regular) (hparse : parse.Orderly) {c d : Cursor}
    (hc : c.position ≤ c.tokens.size) (h : frame.attempt parse c = (none, d))
    (reports : List Event) :
    c.Leads ((d.reset c.position).reporting reports) ∧
      ((d.reset c.position).reporting reports).position = c.position := by
  have hleads := (attempt_leads hframe hparse hc).1
  rw [h] at hleads
  exact ⟨⟨hleads.tokens, hleads.depth, hleads.failed, Nat.min_le_right ..⟩,
    hleads.reset_position hc⟩

theorem Tries.leads {frames : List Frame} (hframes : ∀ frame ∈ frames, frame.Regular)
    (hparse : parse.Orderly) {c d : Cursor} {result : Option Node}
    (h : Tries parse frames c result d) (hc : c.position ≤ c.tokens.size) :
    c.Leads d ∧ (result = none → d.position = c.position) ∧
      (result ≠ none → c.position < d.position) := by
  induction h with
  | exhausted c => exact ⟨.refl hc, fun _ => rfl, fun hne => absurd rfl hne⟩
  | @hit frame rest c d node hattempt =>
    have hleads := attempt_leads (hframes _ (List.mem_cons_self ..)) hparse hc
    rw [hattempt] at hleads
    exact ⟨hleads.1, nofun, fun _ => hleads.2 nofun⟩
  | @miss frame rest c d e result reports hattempt hrest ih =>
    obtain ⟨hretry, hposition⟩ :=
      miss_leads (hframes _ (List.mem_cons_self ..)) hparse hc hattempt reports
    obtain ⟨hend, hnone, hsome⟩ := ih (fun f hf => hframes f (List.mem_cons_of_mem _ hf)) hretry.within
    exact ⟨hretry.trans hend, fun h => (hnone h).trans hposition,
      fun h => Nat.lt_of_le_of_lt (Nat.le_of_eq hposition.symm) (hsome h)⟩

/-- The node that tries end with is yielded by one of the constructs, tried where all of them are. -/
theorem Tries.exists_hit {frames : List Frame} (hframes : ∀ frame ∈ frames, frame.Regular)
    (hparse : parse.Orderly) {c d : Cursor} {node : Node} (h : Tries parse frames c (some node) d)
    (hc : c.position ≤ c.tokens.size) :
    ∃ frame ∈ frames, ∃ c' : Cursor, c'.tokens = c.tokens ∧ c'.position = c.position ∧
      frame.attempt parse c' = (some node, d) := by
  generalize hresult : some node = result at h
  induction h with
  | exhausted => cases hresult
  | @hit frame rest c d found hattempt =>
    cases hresult
    exact ⟨frame, List.mem_cons_self .., c, rfl, rfl, hattempt⟩
  | @miss frame rest c d e result reports hattempt hrest ih =>
    obtain ⟨hretry, hposition⟩ :=
      miss_leads (hframes _ (List.mem_cons_self ..)) hparse hc hattempt reports
    obtain ⟨hit, hmem, c', htokens', hposition', hattempt'⟩ :=
      ih (fun f hf => hframes f (List.mem_cons_of_mem _ hf)) hretry.within hresult
    exact ⟨hit, List.mem_cons_of_mem _ hmem, c', htokens'.trans hretry.tokens,
      hposition'.trans hposition, hattempt'⟩

end Frame

namespace InlineParser
open InlineMarkdown.Frame
variable {parser : InlineParser} {inner : Option ParseContent} {kind : Kind} {c d : Cursor}

/-- An attempt ends where it started, or further on with a node. -/
theorem Outcome.leads {abandoned : Bool} {result : Option Node}
    (h : Outcome parser inner kind c abandoned result d)
    (hinner : ∀ parse ∈ inner, parse.Orderly) (hc : c.position ≤ c.tokens.size) :
    c.Leads d ∧ (result = none → d.position = c.position) ∧
      (result ≠ none → c.position < d.position) := by
  cases h with
  | known => exact ⟨.refl hc, fun _ => rfl, fun hne => absurd rfl hne⟩
  | full => exact ⟨⟨rfl, rfl, fun _ hp => hp, hc⟩, fun _ => rfl, fun hne => absurd rfl hne⟩
  | @givenUp parse result e _ _ hparse htries _ =>
    obtain ⟨hleads, -, -⟩ := htries.leads (fun _ => framesAt_regular) (hinner _ hparse) hc
    have hdepth : e.depth - 1 = c.depth := by rw [hleads.depth]; rfl
    exact ⟨⟨hleads.tokens, hdepth, hleads.failed, Nat.min_le_right ..⟩,
      fun _ => hleads.reset_position hc, fun hne => absurd rfl hne⟩
  | @matched parse node e _ hparse htries _ =>
    obtain ⟨hleads, -, hsome⟩ := htries.leads (fun _ => framesAt_regular) (hinner _ hparse) hc
    have hdepth : e.depth - 1 = c.depth := by rw [hleads.depth]; rfl
    exact ⟨⟨hleads.tokens, hdepth, hleads.failed, hleads.within⟩, nofun, fun _ => hsome nofun⟩
  | @failed parse e _ _ hparse htries _ =>
    obtain ⟨hleads, -, -⟩ := htries.leads (fun _ => framesAt_regular) (hinner _ hparse) hc
    have hdepth : e.depth - 1 = c.depth := by rw [hleads.depth]; rfl
    refine ⟨⟨hleads.tokens, hdepth, fun p hp => ?_, Nat.min_le_right ..⟩,
      fun _ => hleads.reset_position hc, fun hne => absurd rfl hne⟩
    have hkept : e.failed.contains p = true := hleads.failed p hp
    show (e.failed.insert c.position).contains p = true
    simp [hkept]

/-- So does what is attempted at a token of any kind. -/
theorem attemptAt_leads {result : Option Node} (hinner : ∀ parse ∈ inner, parse.Orderly)
    (hc : c.position ≤ c.tokens.size) (h : parser.attemptAt inner kind c = (result, d)) :
    c.Leads d ∧ (result = none → d.position = c.position) := by
  by_cases hframes : framesAt parser.options kind = []
  · rw [attemptAt_of_framesAt_nil inner hframes] at h
    obtain ⟨-, rfl⟩ := Prod.mk.inj h
    exact ⟨.refl hc, fun _ => rfl⟩
  · obtain ⟨_, houtcome⟩ := attemptAt_outcome parser inner c hframes
    rw [h] at houtcome
    obtain ⟨hleads, hnone, -⟩ := houtcome.leads hinner hc
    exact ⟨hleads, hnone⟩

/-- The mark behind an attempt says whether it was given up, as long as another one is in progress
or there was no room for this one. -/
theorem Outcome.abandoned_eq {abandoned : Bool} {result : Option Node}
    (h : Outcome parser inner kind c abandoned result d)
    (hinner : ∀ parse ∈ inner, parse.Orderly) (hc : c.position ≤ c.tokens.size)
    (hgoing : c.abandoned = false) :
    d.abandoned = (abandoned && (inner.isNone || decide (1 ≤ c.depth))) := by
  cases h with
  | known => exact hgoing
  | full _ hnone =>
    rw [hnone]
    rfl
  | @givenUp parse result e _ _ hparse htries habandoned =>
    obtain ⟨hleads, -, -⟩ := htries.leads (fun _ => framesAt_regular) (hinner _ hparse) hc
    have hdepth : e.depth = c.depth + 1 := hleads.depth
    show (e.abandoned && decide (1 < e.depth)) = _
    rw [habandoned, hparse, hdepth]
    exact congrArg _ (decide_eq_decide.2 Nat.lt_succ_iff)
  | @matched parse node e _ _ _ habandoned =>
    show (e.abandoned && decide (1 < e.depth)) = false
    rw [habandoned, Bool.false_and]
  | @failed parse e _ _ _ _ habandoned =>
    show (e.abandoned && decide (1 < e.depth)) = false
    rw [habandoned, Bool.false_and]

/-! ### Steps and levels -/

theorem step_leads (parser : InlineParser) {token : Token Kind} (hinner : ∀ parse ∈ inner, parse.Orderly)
    (htoken : c.peek = some token) (draft : Draft) :
    c.Leads (parser.step inner token draft c).2 ∧
      c.position < (parser.step inner token draft c).2.position := by
  have hlt : c.position < c.tokens.size := lt_size_of_peek htoken
  by_cases hframes : framesAt parser.options token.kind = []
  · obtain ⟨f, q, hq, hsize, hstep⟩ := exists_plain htoken hframes
    rw [hstep parser rfl inner draft c rfl rfl]
    exact ⟨(Cursor.Leads.refl (Nat.le_of_lt hlt)).move hsize, hq⟩
  · rw [parser.step_of_framesAt_ne_nil inner draft c hframes]
    obtain ⟨_, houtcome⟩ := attemptAt_outcome parser inner c hframes
    have hattempt := houtcome.leads hinner (Nat.le_of_lt hlt)
    unfold orText
    rcases hrun : parser.attemptAt inner token.kind c with ⟨_ | node, d⟩ <;>
      rw [hrun] at hattempt <;> obtain ⟨hleads, hnone, hsome⟩ := hattempt
    · have hposition : d.position = c.position := hnone rfl
      refine ⟨hleads.move ?_, ?_⟩
      · show d.position + 1 ≤ d.tokens.size
        rw [hposition, hleads.tokens]
        exact hlt
      · show c.position < d.position + 1
        omega
    · exact ⟨hleads, hsome nofun⟩

theorem steps_leads (hinner : ∀ parse ∈ inner, parse.Orderly) (stop : List Kind) (limit : Nat)
    (draft : Draft) (hc : c.position ≤ c.tokens.size) :
    c.Leads (parser.steps inner stop limit draft c).2 ∧
      c.position ≤ (parser.steps inner stop limit draft c).2.position := by
  refine steps_preserve (fun _ d => c.Leads d ∧ c.position ≤ d.position) ?_ limit
    ⟨.refl hc, Nat.le_refl _⟩
  intro draft d token hd htoken _
  obtain ⟨hstep, hlt⟩ := parser.step_leads hinner htoken draft
  exact ⟨hd.1.trans hstep, Nat.le_trans hd.2 (Nat.le_of_lt hlt)⟩

theorem peek_of_remaining (h : c.remaining ≤ 0) : c.peek = none := by
  rw [Cursor.peek, Array.getElem?_eq_none_iff]
  exact Nat.sub_eq_zero_iff_le.1 (Nat.le_zero.1 h)

theorem remaining_step_lt (parser : InlineParser) {token : Token Kind}
    (hinner : ∀ parse ∈ inner, parse.Orderly) (htoken : c.peek = some token) (draft : Draft) :
    (parser.step inner token draft c).2.remaining < c.remaining := by
  obtain ⟨hleads, hlt⟩ := parser.step_leads hinner htoken draft
  have hsize := lt_size_of_peek htoken
  unfold Cursor.remaining
  rw [hleads.tokens]
  omega

theorem steps_of_peek_none {stop : List Kind} (h : c.peek = none) (limit : Nat) (draft : Draft) :
    parser.steps inner stop limit draft c = (draft, c) := by
  cases limit with
  | zero => rfl
  | succ limit => simp only [steps, h]

/-- As many steps as there are tokens left are all the steps there are. -/
theorem steps_of_le (hinner : ∀ parse ∈ inner, parse.Orderly) {stop : List Kind}
    {limit limit' : Nat} (hlimit : c.remaining ≤ limit) (hlimit' : c.remaining ≤ limit')
    (draft : Draft) :
    parser.steps inner stop limit draft c = parser.steps inner stop limit' draft c := by
  induction limit generalizing limit' draft c with
  | zero =>
    have hpeek := peek_of_remaining hlimit
    rw [steps_of_peek_none hpeek, steps_of_peek_none hpeek]
  | succ limit ih =>
    rcases htoken : c.peek with _ | token
    · rw [steps_of_peek_none htoken, steps_of_peek_none htoken]
    · have hless := parser.remaining_step_lt hinner htoken draft
      obtain ⟨less, rfl⟩ : ∃ less, limit' = less + 1 := ⟨limit' - 1, by omega⟩
      simp only [steps, htoken]
      split
      · rfl
      · exact ih (by omega) (by omega) _

/-- All steps are the first and those that follow it. -/
theorem steps_step (hinner : ∀ parse ∈ inner, parse.Orderly) {stop : List Kind} {token : Token Kind}
    (htoken : c.peek = some token) (hgo : stopsAt stop c token = false) (draft : Draft) :
    parser.steps inner stop c.remaining draft c =
      parser.steps inner stop (parser.step inner token draft c).2.remaining
        (parser.step inner token draft c).1 (parser.step inner token draft c).2 := by
  have hless := parser.remaining_step_lt hinner htoken draft
  obtain ⟨limit, hlimit⟩ : ∃ limit, c.remaining = limit + 1 := ⟨c.remaining - 1, by omega⟩
  rw [hlimit]
  simp only [steps, htoken, hgo]
  exact steps_of_le hinner (by omega) (Nat.le_refl _) _

/-- With a step for each token left, parsing goes on to where it has to stop. -/
theorem steps_end (hinner : ∀ parse ∈ inner, parse.Orderly) {stop : List Kind} {limit : Nat}
    (hlimit : c.remaining ≤ limit) (draft : Draft) {token : Token Kind}
    (htoken : (parser.steps inner stop limit draft c).2.peek = some token) :
    stopsAt stop (parser.steps inner stop limit draft c).2 token = true := by
  induction limit generalizing draft c with
  | zero => exact nomatch (peek_of_remaining hlimit).symm.trans htoken
  | succ limit ih =>
    unfold steps at htoken ⊢
    cases hfirst : c.peek with
    | none =>
      rw [hfirst] at htoken
      cases hfirst.symm.trans htoken
    | some first =>
      rw [hfirst] at htoken
      dsimp only at htoken ⊢
      by_cases hstop : stopsAt stop c first = true
      · rw [if_pos hstop] at htoken ⊢
        obtain rfl := Option.some.inj (hfirst.symm.trans htoken)
        exact hstop
      · rw [if_neg hstop] at htoken ⊢
        have hless := parser.remaining_step_lt hinner hfirst draft
        exact ih (by omega) _ htoken

/-- Where parsing has to stop there is no step. -/
theorem steps_of_stopsAt {stop : List Kind} {token : Token Kind} (htoken : c.peek = some token)
    (hstop : stopsAt stop c token = true) (limit : Nat) (draft : Draft) :
    parser.steps inner stop limit draft c = (draft, c) := by
  cases limit with
  | zero => rfl
  | succ limit => simp only [steps, htoken, hstop, if_true]

/-- Anywhere else there is one. -/
theorem steps_progress (hinner : ∀ parse ∈ inner, parse.Orderly) {stop : List Kind}
    {token : Token Kind} (htoken : c.peek = some token) (hstop : stopsAt stop c token = false)
    (limit : Nat) (draft : Draft) :
    c.position < (parser.steps inner stop (limit + 1) draft c).2.position := by
  obtain ⟨hstep, hlt⟩ := parser.step_leads hinner htoken draft
  simp only [steps, htoken, hstop]
  exact Nat.lt_of_lt_of_le hlt (steps_leads hinner stop limit _ hstep.within).2

theorem steps_idle (stop : List Kind) (limit : Nat) (draft : Draft) (hc : c.abandoned = true) :
    parser.steps inner stop limit draft c = (draft, c) := by
  cases limit with
  | zero => rfl
  | succ limit =>
    unfold steps
    rcases c.peek with _ | token
    · rfl
    · simp [stopsAt, hc]

theorem level_idle (stop : List Kind) (hc : c.abandoned = true) :
    parser.level inner stop c = ([], c) := by
  unfold level
  rw [steps_idle stop _ _ hc]
  rfl

theorem level_orderly (hinner : ∀ parse ∈ inner, parse.Orderly) :
    ParseContent.Orderly (parser.level inner) :=
  ⟨fun stop c hc => steps_leads hinner stop c.remaining {} hc, fun stop _ hc => level_idle stop hc⟩

/-- What parses the content of a construct where `room` levels may be opened. -/
def inside (parser : InlineParser) : (room : Nat) → Option ParseContent
  | 0 => none
  | room + 1 => some (parser.atRoom room)

theorem atRoom_eq_level (parser : InlineParser) (room : Nat) :
    parser.atRoom room = parser.level (parser.inside room) := by
  cases room <;> rfl

theorem atRoom_orderly (parser : InlineParser) (room : Nat) :
    ParseContent.Orderly (parser.atRoom room) := by
  induction room with
  | zero => exact level_orderly nofun
  | succ room ih =>
    refine level_orderly fun parse hparse => ?_
    obtain rfl := Option.some.inj hparse
    exact ih

theorem inside_orderly (parser : InlineParser) (room : Nat) :
    ∀ parse ∈ parser.inside room, parse.Orderly := by
  cases room with
  | zero => exact nofun
  | succ room =>
    intro parse hparse
    obtain rfl := Option.some.inj hparse
    exact parser.atRoom_orderly room

end InlineParser
end InlineMarkdown
