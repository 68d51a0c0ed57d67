import InlineMarkdown.Proofs.Trail
import InlineMarkdown.Proofs.Session

/-! The memory of failures cannot be seen.

A parser that remembers failures searches the trail of the naive parser, passing over
what it knows. Since it gives up an attempt exactly when the trail needs too many levels
there, and since what it passes over never does, it gives up the same attempts as a
parser that remembers nothing. So from a fresh cursor the two yield the same nodes. -/
namespace InlineMarkdown
open Attempt

namespace InlineParser

/-- The failures that the parser looks up. -/
def Remembers (parser : InlineParser) (c : Cursor) (q : Nat) : Prop :=
  parser.search.remember = true ∧ c.failed.contains q = true

theorem remembers_of_failed_eq {c d : Cursor} (parser : InlineParser) (h : d.failed = c.failed) :
    parser.Remembers d = parser.Remembers c := by
  unfold Remembers
  rw [h]

end InlineParser

/-- A parse of content, inside an attempt, searches the content with this room. -/
def ParseContent.Explores (parser : InlineParser) (room : Nat) (parse : ParseContent) : Prop :=
  ∀ c : Cursor, c.position ≤ c.tokens.size → c.abandoned = false → 1 ≤ c.depth →
    parser.Sound c →
    (parser.trail c.tokens).Safe room ((parser.trail c.tokens).Content c.position)
      (parser.Remembers c) →
    (parser.trail c.tokens).ContentExplored room c.position (parser.Remembers c)
      (parser.Remembers (parse [.rightBracket] c).2) (parse [.rightBracket] c).2.abandoned

namespace Frame
open InlineParser
variable {parser : InlineParser} {parse : ParseContent} {room : Nat} {c d : Cursor}

/-! ### Constructs -/

/-- A construct that opens searches the content. -/
theorem attempt_explored {frame : Frame} (hframe : frame.Regular)
    (hexplores : parse.Explores parser room) (hc : c.position ≤ c.tokens.size)
    (hgoing : c.abandoned = false) (hdepth : 1 ≤ c.depth) (hsound : parser.Sound c) {q : Nat}
    (hopening : frame.opening.view c.tokens c.position = (some (), q))
    (hsafe : (parser.trail c.tokens).Safe room
      ((parser.trail c.tokens).Content (contentStart c.tokens c.position)) (parser.Remembers c)) :
    (parser.trail c.tokens).ContentExplored room (contentStart c.tokens c.position)
      (parser.Remembers c) (parser.Remembers (frame.attempt parse c).2)
      (frame.attempt parse c).2.abandoned := by
  have hq := hframe.opens.within c.tokens c.position hc
  rw [hopening] at hq
  have hcontent (hsafe : (parser.trail c.tokens).Safe room ((parser.trail c.tokens).Content q)
      (parser.Remembers c)) := hexplores { c with position := q } hq hgoing hdepth
    (hsound.of_failed_eq rfl rfl) hsafe
  rw [attempt_of_open hframe hopening rfl]
  rcases eq_contentStart parser (hframe.inside hopening) with hstart | ⟨hstart, hhalts, htried⟩
  · rw [hstart] at hcontent ⊢
    exact hcontent hsafe
  · refine Descent.content_plain hhalts htried ?_
    rw [hstart] at hcontent ⊢
    exact hcontent fun r d hr => hsafe r d (.onward hhalts hr)

theorem opens_cons {frame : Frame} {rest : List Frame} {tokens : Array (Token Kind)} {p : Nat} :
    Opens (frame :: rest) tokens p ↔
      (∃ q, frame.opening.view tokens p = (some (), q)) ∨ Opens rest tokens p := by
  simp [Opens]

/-- Constructs that are tried in turn search the content, if any of them opens. -/
theorem Tries.explored {frames : List Frame} (hframes : ∀ frame ∈ frames, frame.Regular)
    (horderly : parse.Orderly) (hfollows : parse.Follows parser)
    (hexplores : parse.Explores parser room) {result : Option Node}
    (h : Tries parse frames c result d) (hc : c.position ≤ c.tokens.size)
    (hgoing : c.abandoned = false) (hdepth : 1 ≤ c.depth) (hsound : parser.Sound c)
    (hsafe : Opens frames c.tokens c.position → (parser.trail c.tokens).Safe room
      ((parser.trail c.tokens).Content (contentStart c.tokens c.position)) (parser.Remembers c)) :
    (Opens frames c.tokens c.position →
      (parser.trail c.tokens).ContentExplored room (contentStart c.tokens c.position)
        (parser.Remembers c) (parser.Remembers d) d.abandoned) ∧
    (¬ Opens frames c.tokens c.position → d.failed = c.failed ∧ d.abandoned = false) := by
  induction h with
  | exhausted => exact ⟨fun ⟨_, hmem, _⟩ => absurd hmem nofun, fun _ => ⟨rfl, hgoing⟩⟩
  | @hit frame rest c d node hattempt =>
    have hregular := hframes _ (List.mem_cons_self ..)
    rcases hview : frame.opening.view c.tokens c.position with ⟨_ | _, q⟩
    · rw [attempt_of_closed hregular hview] at hattempt
      exact nomatch hattempt
    · have hopens : Opens (frame :: rest) c.tokens c.position := opens_cons.2 (.inl ⟨q, hview⟩)
      have hexplored := attempt_explored hregular hexplores hc hgoing hdepth hsound hview
        (hsafe hopens)
      rw [hattempt] at hexplored
      exact ⟨fun _ => hexplored, fun hclosed => absurd hopens hclosed⟩
  | @miss frame rest c d e result reports hattempt hrest ih =>
    have hregular := hframes _ (List.mem_cons_self ..)
    have hrestframes := fun f hf => hframes f (List.mem_cons_of_mem frame hf)
    have hsoundd := (attempt_agree hregular horderly hfollows ⟨rfl, rfl, hgoing, hgoing⟩ hc
      (Nat.le_succ_of_le (openersFrom_le_size _ _)) hdepth hsound).1
    rw [hattempt] at hsoundd
    obtain ⟨hretry, hposition⟩ := miss_leads hregular horderly hc hattempt reports
    have hnext (hgoingd : d.abandoned = false) := ih hrestframes hretry.within hgoingd
      (Nat.le_trans hdepth (Nat.le_of_eq hretry.depth.symm)) hsoundd
    rw [hretry.tokens, hposition] at hnext
    rcases hview : frame.opening.view c.tokens c.position with ⟨_ | _, q⟩
    · rw [attempt_of_closed hregular hview] at hattempt
      obtain ⟨-, rfl⟩ := Prod.mk.inj hattempt
      have hiff : Opens (frame :: rest) c.tokens c.position ↔ Opens rest c.tokens c.position := by
        rw [opens_cons]
        exact or_iff_right fun ⟨q, hopening⟩ => nomatch hview.symm.trans hopening
      rw [hiff] at hsafe ⊢
      exact hnext hgoing hsafe
    · have hopens : Opens (frame :: rest) c.tokens c.position := opens_cons.2 (.inl ⟨q, hview⟩)
      have hexplored := attempt_explored hregular hexplores hc hgoing hdepth hsound hview
        (hsafe hopens)
      rw [hattempt] at hexplored
      refine ⟨fun _ => ?_, fun hclosed => absurd hopens hclosed⟩
      by_cases hd : d.abandoned = true
      · obtain ⟨hgivenUp, -, hfailed⟩ := hrest.idle hrestframes horderly hd
        have hfailed : e.failed = d.failed := hfailed
        rw [hgivenUp, remembers_of_failed_eq parser hfailed, ← hd]
        exact hexplored
      · have hd := eq_false_of_ne_true hd
        obtain ⟨hopened, hclosed⟩ := hnext hd fun _ => hexplored.safe
        by_cases hopens : Opens rest c.tokens c.position
        · exact hexplored.trans (hopened hopens)
        · obtain ⟨hfailed, hgivenUp⟩ := hclosed hopens
          have hfailed : e.failed = d.failed := hfailed
          rw [hgivenUp, remembers_of_failed_eq parser hfailed, ← hd]
          exact hexplored

end Frame

namespace InlineParser
open InlineMarkdown.Frame
variable {parser : InlineParser} {stop : List Kind} {room : Nat} {c d : Cursor}
  {token : Token Kind}

/-! ### Attempts -/

/-- Each level explores the content with the room it has. -/
def ExploresInside (parser : InlineParser) (room : Nat) : Prop :=
  ∀ less, room = less + 1 → ParseContent.Explores parser less (parser.atRoom less)

/-- What tries inside an attempt go through is a search of what the attempt at its token goes
through. -/
theorem tries_explored {parse : ParseContent} {result : Option Node}
    (hnew : parser.search.remember = true → c.knownFailure c.position = false)
    (hparse : parser.inside room = some parse)
    (htries : Tries parse (framesAt parser.options token.kind) c.descend result d)
    (htoken : c.peek = some token) (hinside : ExploresInside parser room)
    (hgoing : c.abandoned = false) (hsound : Sound parser c)
    (hsafe : (parser.trail c.tokens).Safe room ((parser.trail c.tokens).Attempts c.position)
      (parser.Remembers c)) :
    (parser.trail c.tokens).AttemptExplored room c.position (parser.Remembers c)
      (parser.Remembers d) d.abandoned := by
  have hc : c.position ≤ c.tokens.size := Nat.le_of_lt (lt_size_of_peek htoken)
  obtain ⟨less, rfl, rfl⟩ : ∃ less, room = less + 1 ∧ parse = parser.atRoom less := by
    cases room with
    | zero => exact nomatch hparse
    | succ less => exact ⟨less, rfl, (Option.some.inj hparse).symm⟩
  have hnew : ¬ parser.Remembers c c.position := by
    rintro ⟨hremember, hknown⟩
    exact Bool.false_ne_true ((hnew hremember).symm.trans hknown)
  have hopened (hopens : Opens (framesAt parser.options token.kind) c.tokens c.position) :
      (parser.trail c.tokens).opened c.position := ⟨token, htoken, hopens⟩
  obtain ⟨hopens, hclosed⟩ := htries.explored (fun _ => framesAt_regular)
    (parser.atRoom_orderly less) (parser.atRoom_follows less) (hinside less rfl) hc hgoing
    (Nat.le_add_left ..) hsound fun hopens => Descent.safe_content (hopened hopens) hsafe
  by_cases hsome : Opens (framesAt parser.options token.kind) c.tokens c.position
  · exact Descent.attempt_opened (hopened hsome) hnew (hopens hsome)
  · obtain ⟨hfailed, hgoingd⟩ := hclosed hsome
    have hfailed : d.failed = c.failed := hfailed
    rw [hgoingd, remembers_of_failed_eq parser hfailed]
    exact Descent.attempt_closed (mt (opened_iff htoken).1 hsome) hsafe

/-- An attempt is a search of what the attempt at its token goes through. -/
theorem Outcome.explored {abandoned : Bool} {result : Option Node}
    (h : Outcome parser (parser.inside room) token.kind c abandoned result d)
    (htoken : c.peek = some token) (hframes : framesAt parser.options token.kind ≠ [])
    (hinside : ExploresInside parser room) (hgoing : c.abandoned = false)
    (hsound : Sound parser c)
    (hsafe : (parser.trail c.tokens).Safe room ((parser.trail c.tokens).Attempts c.position)
      (parser.Remembers c)) :
    (parser.trail c.tokens).AttemptExplored room c.position (parser.Remembers c)
      (parser.Remembers d) abandoned ∧ (1 ≤ c.depth → d.abandoned = abandoned) := by
  have hmark := h.abandoned_eq (parser.inside_orderly room) (Nat.le_of_lt (lt_size_of_peek htoken))
    hgoing
  refine ⟨?_, fun hdepth => by rw [hmark, decide_eq_true hdepth, Bool.or_true, Bool.and_true]⟩
  cases h with
  | known hremember hknown =>
    exact Descent.attempt_known ⟨token, htoken, hframes⟩ ⟨hremember, hknown⟩ hsafe
  | full _ hnone =>
    obtain rfl : room = 0 := (parser.inside_roomy room).1 hnone
    exact Descent.attempt_full ⟨token, htoken, hframes⟩ hsafe
  | givenUp hnew hparse htries habandoned | matched hnew hparse htries habandoned =>
    have hattempt := tries_explored hnew hparse htries htoken hinside hgoing hsound hsafe
    rwa [habandoned] at hattempt
  | @failed parse e reports hnew hparse htries habandoned =>
    have hattempt := tries_explored hnew hparse htries htoken hinside hgoing hsound hsafe
    rw [habandoned] at hattempt
    refine Descent.attempt_failed hattempt fun q hq => ?_
    obtain ⟨hremember, hq⟩ := hq
    have hq : (e.failed.insert c.position).contains q = true := hq
    rw [IndexSet.contains_insert, Bool.or_eq_true, decide_eq_true_eq] at hq
    exact hq.imp Eq.symm fun hq => ⟨hremember, hq⟩

/-! ### Content -/

/-- A step at a token that may start a construct is a search of the attempt there. It
ends where the trail goes on unless it is given up. -/
theorem step_explored (htoken : c.peek = some token)
    (hframes : framesAt parser.options token.kind ≠ []) (hinside : ExploresInside parser room)
    (hgoing : c.abandoned = false) (hsound : Sound parser c)
    (hsafe : (parser.trail c.tokens).Safe room ((parser.trail c.tokens).Attempts c.position)
      (parser.Remembers c)) (draft : Draft) :
    ∃ abandoned, (parser.trail c.tokens).AttemptExplored room c.position (parser.Remembers c)
        (parser.Remembers (parser.step (parser.inside room) token draft c).2) abandoned ∧
      (1 ≤ c.depth →
        (parser.step (parser.inside room) token draft c).2.abandoned = abandoned) ∧
      (abandoned = true →
        (parser.step (parser.inside room) token draft c).1 =
            draft.pushText token.text token.span ∧
          (parser.step (parser.inside room) token draft c).2.position = c.position + 1) ∧
      (abandoned = false →
        (parser.step (parser.inside room) token draft c).1 =
            (parser.naive.step (some parser.unbounded) token draft
              { tokens := c.tokens, position := c.position }).1 ∧
          (parser.step (parser.inside room) token draft c).2.position =
            parser.trailNext c.tokens c.position) := by
  have hc : c.position ≤ c.tokens.size := Nat.le_of_lt (lt_size_of_peek htoken)
  have hroom := openersFrom_le_size c.tokens c.position
  obtain ⟨abandoned, houtcome⟩ := attemptAt_outcome parser (parser.inside room) c hframes
  obtain ⟨hexplored, hdepth⟩ := houtcome.explored htoken hframes hinside hgoing hsound hsafe
  obtain ⟨hleads, hnone, -⟩ := houtcome.leads (parser.inside_orderly room) hc
  obtain ⟨-, hagree⟩ := houtcome.agree htoken hframes (parser.inside_follows room)
    ⟨rfl, rfl, hgoing, hgoing⟩ hroom hsound
  obtain ⟨hfreely, hend⟩ := attemptAt_naive htoken hframes hgoing hroom
  rw [hfreely, hend] at hagree
  have htrail : parser.trailNext c.tokens c.position = (parser.naive.step (some parser.unbounded)
      token draft { tokens := c.tokens, position := c.position }).2.position := by
    have hpeek : Cursor.peek { tokens := c.tokens, position := c.position } = some token := htoken
    rw [step_cursor hpeek draft {}]
    unfold trailNext
    rw [show c.tokens[c.position]? = some token from htoken]
  rw [htrail, parser.step_of_framesAt_ne_nil _ draft c hframes,
    parser.naive.step_of_framesAt_ne_nil _ draft _ hframes]
  unfold orText
  unfold view at hagree
  refine ⟨abandoned, ?_⟩
  rcases hrun : parser.attemptAt (parser.inside room) token.kind c with ⟨result, d⟩
  rcases hrun₀ : parser.naive.attemptAt (some parser.unbounded) token.kind
    { tokens := c.tokens, position := c.position } with ⟨result₀, d₀⟩
  rw [hrun] at hexplored hdepth hnone hagree
  rw [hrun₀] at hagree
  dsimp only at hexplored hdepth hnone hagree ⊢
  rcases hagree with ⟨rfl, rfl, hposition⟩ | ⟨rfl, rfl, -⟩
  · cases result₀ with
    | none => exact ⟨hexplored, hdepth, nofun, fun _ => ⟨rfl, congrArg (· + 1) hposition.symm⟩⟩
    | some node => exact ⟨hexplored, hdepth, nofun, fun _ => ⟨rfl, hposition.symm⟩⟩
  · exact ⟨hexplored, hdepth, fun _ => ⟨rfl, congrArg (· + 1) (hnone rfl)⟩, nofun⟩

/-- The steps of a level inside an attempt are a search of its content. -/
theorem steps_explored (hinside : ExploresInside parser room) (limit : Nat) (draft : Draft)
    (hlimit : c.remaining ≤ limit) (hgoing : c.abandoned = false) (hdepth : 1 ≤ c.depth)
    (hsound : Sound parser c)
    (hsafe : (parser.trail c.tokens).Safe room ((parser.trail c.tokens).Content c.position)
      (parser.Remembers c)) :
    (parser.trail c.tokens).ContentExplored room c.position (parser.Remembers c)
      (parser.Remembers (parser.steps (parser.inside room) [.rightBracket] limit draft c).2)
      (parser.steps (parser.inside room) [.rightBracket] limit draft c).2.abandoned := by
  induction limit generalizing draft c with
  | zero =>
    have hhalts : Halts c.tokens [.rightBracket] c.position := halts_of_remaining hlimit
    rw [steps_of_halts hhalts, hgoing]
    exact Descent.content_closed hhalts _
  | succ limit ih =>
    by_cases hhalts : Halts c.tokens [.rightBracket] c.position
    · rw [steps_of_halts hhalts, hgoing]
      exact Descent.content_closed hhalts _
    · obtain ⟨token, htoken, -, -⟩ := exists_token_of_not_halts hhalts
      have htoken : c.peek = some token := htoken
      have hstops := (stopsAt_of_not_halts htoken hgoing).2 hhalts
      obtain ⟨hleads, hlt⟩ := parser.step_leads (parser.inside_orderly room) htoken draft
      have hsoundd := (step_agree htoken (parser.inside_follows room) ⟨rfl, rfl, hgoing, hgoing⟩
        (openersFrom_le_size _ _) hsound draft).1
      have hremaining : (parser.step (parser.inside room) token draft c).2.remaining ≤ limit :=
        Nat.le_of_lt_succ (Nat.lt_of_lt_of_le
          (parser.remaining_step_lt (parser.inside_orderly room) htoken draft) hlimit)
      simp only [steps, htoken, hstops, Bool.false_eq_true, if_false]
      by_cases hframes : framesAt parser.options token.kind = []
      · obtain ⟨f, q, hq, hsize, hplain⟩ := exists_plain htoken hframes
        rw [hplain parser rfl (parser.inside room) draft c rfl rfl] at hremaining hsoundd ⊢
        have htried : ¬ parser.Tried c.tokens c.position :=
          fun h => (tried_iff htoken).1 h hframes
        have hnext : (parser.trail c.tokens).next c.position = q :=
          trailNext_of_plain htoken ⟨hq, hsize, hplain⟩
        refine Descent.content_plain hhalts htried ?_
        rw [hnext]
        refine ih _ hremaining hgoing hdepth hsoundd fun r d hr => hsafe r d ?_
        rw [← hnext] at hr
        exact .onward hhalts hr
      · have hsafeAttempt := Descent.safe_attempt hhalts hsafe
        obtain ⟨abandoned, hexplored, hgivenUp, -, honward⟩ := step_explored htoken hframes hinside
          hgoing hsound hsafeAttempt draft
        have hgivenUp := hgivenUp hdepth
        have hsafed := Descent.safe_onward (Descent.follows_next room) hhalts hsafe hexplored
        have htried : parser.Tried c.tokens c.position := ⟨token, htoken, hframes⟩
        rcases hstep : parser.step (parser.inside room) token draft c with ⟨draft', d⟩
        rw [hstep] at hexplored hgivenUp honward hsafed hleads hsoundd hremaining
        dsimp only at hexplored hgivenUp honward hsafed hleads hsoundd hremaining ⊢
        cases abandoned with
        | true =>
          rw [steps_idle _ _ _ hgivenUp, hgivenUp]
          exact Descent.content_givenUp hhalts htried hsafe hexplored
        | false =>
          have hposition : d.position = (parser.trail c.tokens).next c.position := (honward rfl).2
          have hrest := ih draft' hremaining hgivenUp (hleads.depth ▸ hdepth) hsoundd
          rw [hleads.tokens, hposition] at hrest
          exact Descent.content_onward hhalts htried hexplored (hrest hsafed)

theorem level_explores (hinside : ExploresInside parser room) :
    ParseContent.Explores parser room (parser.level (parser.inside room)) :=
  fun _ _ hgoing hdepth hsound hsafe =>
    steps_explored hinside _ {} (Nat.le_refl _) hgoing hdepth hsound hsafe

theorem atRoom_explores (parser : InlineParser) (room : Nat) :
    ParseContent.Explores parser room (parser.atRoom room) := by
  induction room with
  | zero =>
    rw [atRoom_eq_level]
    exact level_explores nofun
  | succ room ih =>
    rw [atRoom_eq_level]
    refine level_explores fun less hless => ?_
    obtain rfl := Nat.succ.inj hless
    exact ih

/-! ### Parses from outside -/

/-- The way of a parse from outside, which goes past attempts that are given up. -/
noncomputable abbrev wayRound (parser : InlineParser) (tokens : Array (Token Kind)) : Nat → Nat :=
  (parser.trail tokens).around parser.search.nesting

/-- What the parser remembers does not change what it gives up from here on. -/
def SafeFrom (parser : InlineParser) (stop : List Kind) (c : Cursor) : Prop :=
  (parser.trail c.tokens).Safe parser.search.nesting
    ((parser.trail c.tokens).Visits (parser.wayRound c.tokens) (Halts c.tokens stop) c.position)
    (parser.Remembers c)

theorem safeFrom_naive (parser : InlineParser) (stop : List Kind) (c : Cursor) :
    SafeFrom parser.naive stop c :=
  fun _ _ _ hknown => absurd hknown.1 nofun

open Classical in
/-- The nodes behind a step from outside: those of the naive parser, unless its attempt
needs too many levels. -/
noncomputable def draftRound (parser : InlineParser) (tokens : Array (Token Kind)) (p : Nat)
    (token : Token Kind) (draft : Draft) : Draft :=
  if (parser.trail tokens).Deep parser.search.nesting p then draft.pushText token.text token.span
  else (parser.naive.step (some parser.unbounded) token draft { tokens, position := p }).1

/-- What a step from outside comes to does not depend on the memory, which is safe as
before. -/
theorem SafeFrom.step (h : SafeFrom parser stop c)
    (hstanding : Standing parser c.tokens parser.search.nesting c)
    (hhalts : ¬ Halts c.tokens stop c.position) (htoken : c.peek = some token) (draft : Draft) :
    (parser.step (parser.inside parser.search.nesting) token draft c).1 =
        parser.draftRound c.tokens c.position token draft ∧
      (parser.step (parser.inside parser.search.nesting) token draft c).2.position =
        parser.wayRound c.tokens c.position ∧
      SafeFrom parser stop (parser.step (parser.inside parser.search.nesting) token draft c).2 := by
  have hgoing := hstanding.going
  by_cases hframes : framesAt parser.options token.kind = []
  · obtain ⟨f, q, hq, hsize, hplain⟩ := exists_plain htoken hframes
    have hfits : ¬ (parser.trail c.tokens).Deep parser.search.nesting c.position := by
      rintro ⟨_, _, hattempt, -⟩
      exact (tried_iff htoken).1 hattempt.tries hframes
    have hway : parser.wayRound c.tokens c.position = q :=
      (Descent.around_of_not_deep hfits).trans (trailNext_of_plain htoken ⟨hq, hsize, hplain⟩)
    rw [hplain parser rfl (parser.inside _) draft c rfl rfl]
    unfold draftRound
    rw [if_neg hfits, hplain parser.naive rfl (some parser.unbounded) draft
      { tokens := c.tokens, position := c.position } rfl rfl]
    refine ⟨rfl, hway.symm, fun r d hr hknown => h r d ?_ hknown⟩
    rw [← hway] at hr
    exact .onward hhalts hr
  · obtain ⟨abandoned, hexplored, -, hgivenUp, honward⟩ := step_explored htoken hframes
      (fun less _ => parser.atRoom_explores less) hgoing hstanding.sound
      (Descent.safe_attempt hhalts h) draft
    have hsafe := Descent.safe_onward (Descent.follows_around _) hhalts h hexplored
    have htokens := (parser.step_leads (parser.inside_orderly parser.search.nesting)
      htoken draft).1.tokens
    have hposition : (parser.step (parser.inside parser.search.nesting) token draft c).1 =
          parser.draftRound c.tokens c.position token draft ∧
        (parser.step (parser.inside parser.search.nesting) token draft c).2.position =
          parser.wayRound c.tokens c.position := by
      unfold draftRound
      cases abandoned with
      | true =>
        have hdeep : (parser.trail c.tokens).Deep parser.search.nesting c.position :=
          hexplored.deep.1 rfl
        rw [if_pos hdeep, wayRound, Descent.around_of_deep hdeep]
        exact hgivenUp rfl
      | false =>
        have hfits : ¬ (parser.trail c.tokens).Deep parser.search.nesting c.position :=
          fun hdeep => Bool.false_ne_true (hexplored.deep.2 hdeep)
        rw [if_neg hfits, wayRound, Descent.around_of_not_deep hfits]
        exact honward rfl
    refine ⟨hposition.1, hposition.2, ?_⟩
    unfold SafeFrom
    rw [htokens, hposition.2]
    exact hsafe

/-- A step from outside comes to the same with memory and without. -/
theorem step_naive {c₀ : Cursor} (hnesting : 0 < parser.search.nesting) (hbeside : Beside c c₀)
    (hstanding : Standing parser c.tokens parser.search.nesting c)
    (hstanding₀ : Standing parser.naive c₀.tokens parser.search.nesting c₀)
    (hsafe : SafeFrom parser stop c) (htoken : c.peek = some token)
    (hstops : stopsAt stop c token = false) (draft : Draft) :
    let behind := parser.step (parser.inside parser.search.nesting) token draft c
    let behind₀ := parser.naive.step (parser.naive.inside parser.search.nesting) token draft c₀
    behind.1 = behind₀.1 ∧ Beside behind.2 behind₀.2 ∧
      Standing parser behind.2.tokens parser.search.nesting behind.2 ∧
      Standing parser.naive behind₀.2.tokens parser.search.nesting behind₀.2 ∧
      SafeFrom parser stop behind.2 := by
  intro behind behind₀
  have htoken₀ : c₀.peek = some token := hbeside.peek.trans htoken
  have hstops₀ : stopsAt stop c₀ token = false := (hbeside.stopsAt stop token).trans hstops
  have hhalts := (stopsAt_of_not_halts htoken hstanding.going).1 hstops
  have hhalts₀ := (stopsAt_of_not_halts htoken₀ (Standing.going hstanding₀)).1 hstops₀
  have hnext := hstanding.step hnesting htoken hstops draft
  have hnext₀ := hstanding₀.step hnesting htoken₀ hstops₀ draft
  obtain ⟨hdraft, hway, hsafe'⟩ := hsafe.step hstanding hhalts htoken draft
  obtain ⟨hdraft₀, hway₀, -⟩ := (safeFrom_naive parser stop c₀).step hstanding₀ hhalts₀ htoken₀ draft
  have hdraft₀ : behind₀.1 = parser.draftRound c₀.tokens c₀.position token draft := hdraft₀
  have hway₀ : behind₀.2.position = parser.wayRound c₀.tokens c₀.position := hway₀
  rw [hbeside.tokens, hbeside.position] at hdraft₀ hway₀
  refine ⟨hdraft.trans hdraft₀.symm, ⟨?_, hway₀.trans hway.symm, hnext.going,
    Standing.going hnext₀⟩, hnext.tokens ▸ hnext, hnext₀.tokens ▸ hnext₀, hsafe'⟩
  exact hnext₀.tokens.trans (hbeside.tokens.trans hnext.tokens.symm)

/-- So does a parse from outside. -/
theorem steps_naive {c₀ : Cursor} (hnesting : 0 < parser.search.nesting) (limit : Nat)
    (draft : Draft) (hbeside : Beside c c₀)
    (hstanding : Standing parser c.tokens parser.search.nesting c)
    (hstanding₀ : Standing parser.naive c₀.tokens parser.search.nesting c₀)
    (hsafe : SafeFrom parser stop c) :
    (parser.steps (parser.inside parser.search.nesting) stop limit draft c).1 =
        (parser.naive.steps (parser.naive.inside parser.search.nesting) stop limit draft c₀).1 ∧
      (parser.steps (parser.inside parser.search.nesting) stop limit draft c).2.position =
        (parser.naive.steps (parser.naive.inside parser.search.nesting) stop limit draft
          c₀).2.position := by
  induction limit generalizing draft c c₀ with
  | zero => exact ⟨rfl, hbeside.position.symm⟩
  | succ limit ih =>
    unfold steps
    rw [hbeside.peek]
    rcases htoken : c.peek with _ | token
    · exact ⟨rfl, hbeside.position.symm⟩
    · dsimp only
      rw [hbeside.stopsAt]
      by_cases hstops : stopsAt stop c token = true
      · rw [if_pos hstops, if_pos hstops]
        exact ⟨rfl, hbeside.position.symm⟩
      · rw [if_neg hstops, if_neg hstops]
        obtain ⟨hdraft, hbeside', hnext, hnext₀, hsafe'⟩ := step_naive hnesting hbeside hstanding
          hstanding₀ hsafe htoken (eq_false_of_ne_true hstops) draft
        rw [← hdraft]
        exact ih _ hbeside' hnext hnext₀ hsafe'

/-- Where the memory is safe, a call from outside comes to what it comes to without. -/
theorem SafeFrom.parse_eq {c₀ : Cursor} (hsafe : SafeFrom parser stop c)
    (hnesting : 0 < parser.search.nesting) (hposition : c₀.position = c.position)
    (htokens : c₀.tokens = c.tokens)
    (hstanding : Standing parser c.tokens parser.search.nesting c)
    (hstanding₀ : Standing parser.naive c₀.tokens parser.search.nesting c₀) :
    (parser.parse stop c).1 = (parser.naive.parse stop c₀).1 ∧
      (parser.parse stop c).2.position = (parser.naive.parse stop c₀).2.position := by
  have hbeside : Beside c c₀ := ⟨htokens, hposition, hstanding.going, Standing.going hstanding₀⟩
  obtain ⟨hdraft, hend⟩ :=
    steps_naive hnesting c.remaining {} hbeside hstanding hstanding₀ hsafe
  have hparse₀ := Standing.parse_eq_level hstanding₀ stop
  rw [hstanding.parse_eq_level, hparse₀]
  unfold level
  rw [hbeside.remaining]
  exact ⟨congrArg Draft.finish hdraft, hend⟩

/-- A cursor that has parsed nothing remembers nothing. -/
theorem safeFrom_fresh (parser : InlineParser) (stop : List Kind) (tokens : Array (Token Kind))
    (start : Nat) : SafeFrom parser stop (Cursor.reset { tokens } start) := fun q _ _ hknown => by
  have hfresh : IndexSet.contains {} q = true := hknown.2
  simp at hfresh

theorem standing_fresh (parser : InlineParser) (tokens : Array (Token Kind)) (start : Nat) :
    Standing parser tokens parser.search.nesting (Cursor.reset { tokens } start) :=
  (Standing.fresh parser tokens).move (Nat.min_le_right ..)

/-- The memory of failed attempts changes no result: from any token on, a parse yields
the nodes that it yields with the memory off, and ends at the same place. -/
theorem parse_naive (options : InlineOptions) (tokens : Array (Token Kind)) (stop : List Kind)
    (start : Nat) :
    let parser : InlineParser := { options }
    let c := Cursor.reset { tokens } start
    (parser.parse stop c).1 = (parser.naive.parse stop c).1 ∧
      (parser.parse stop c).2.position = (parser.naive.parse stop c).2.position := by
  intro parser c
  exact (safeFrom_fresh parser stop tokens start).parse_eq (Nat.succ_pos 63) rfl rfl
    (standing_fresh parser tokens start) (standing_fresh parser.naive tokens start)

end InlineParser
end InlineMarkdown
