import InlineMarkdown.Proofs.Room

/-! Agreement with the naive parser.

The naive parser is the same parser without memory and with as much room as it needs.
Two runs over the same tokens from the same position, one by any parser and one by the
naive one, go the same way until the first gives up: they yield the same nodes and stop
at the same token. Whatever the first has remembered as a failure is a failure of the
naive parser (`Sound`), so that looking failures up changes nothing. -/
namespace InlineMarkdown
open Attempt

namespace InlineParser

/-- The parser without memory. -/
def naive (parser : InlineParser) : InlineParser :=
  { parser with search := { parser.search with remember := false } }

/-- The naive parser fails at the token at `p`, one that starts an attempt, from
whichever state it gets there. -/
def Fails (parser : InlineParser) (tokens : Array (Token Kind)) (p : Nat) : Prop :=
  ∃ token, tokens[p]? = some token ∧ framesAt parser.options token.kind ≠ [] ∧
    ∀ (room : Nat) (c : Cursor), c.tokens = tokens → c.position = p → c.abandoned = false →
      openersFrom tokens p ≤ room →
      (parser.naive.attemptAt (parser.naive.inside room) token.kind c).1 = none

/-- What is remembered and looked up are failures of the naive parser. -/
def Sound (parser : InlineParser) (c : Cursor) : Prop :=
  parser.search.remember = true →
    ∀ p, c.failed.contains p = true → Fails parser c.tokens p

theorem Sound.of_failed_eq {parser : InlineParser} {c d : Cursor} (h : Sound parser c)
    (htokens : d.tokens = c.tokens) (hfailed : d.failed = c.failed) : Sound parser d := by
  intro hremember p hp
  rw [htokens]
  exact h hremember p (hfailed ▸ hp)

/-- A failure of the naive parser may be remembered. -/
theorem Sound.recordFailure {parser : InlineParser} {c : Cursor} {p : Nat} (h : Sound parser c)
    (hfails : Fails parser c.tokens p) : Sound parser (c.recordFailure p) := by
  intro hremember q hq
  have hq : (c.failed.insert p).contains q = true := hq
  rw [IndexSet.contains_insert, Bool.or_eq_true, decide_eq_true_eq] at hq
  rcases hq with rfl | hq
  · exact hfails
  · exact h hremember q hq

/-- Two cursors at the same token, neither of them given up. -/
structure Beside (c c₀ : Cursor) : Prop where
  tokens : c₀.tokens = c.tokens
  position : c₀.position = c.position
  going : c.abandoned = false
  going₀ : c₀.abandoned = false

namespace Beside
variable {c c₀ : Cursor} (h : Beside c c₀)
include h

theorem peek : c₀.peek = c.peek := by
  unfold Cursor.peek
  rw [h.tokens, h.position]

theorem stopsAt (stop : List Kind) (token : Token Kind) :
    stopsAt stop c₀ token = stopsAt stop c token := by
  unfold InlineParser.stopsAt
  rw [h.going, h.going₀]

theorem remaining : c₀.remaining = c.remaining := by
  unfold Cursor.remaining
  rw [h.tokens, h.position]

theorem within (hc : c.position ≤ c.tokens.size) : c₀.position ≤ c₀.tokens.size := by
  rwa [h.tokens, h.position]

theorem openersFrom : openersFrom c₀.tokens c₀.position = openersFrom c.tokens c.position := by
  rw [h.tokens, h.position]

theorem descend : Beside c.descend c₀.descend := ⟨h.tokens, h.position, h.going, h.going₀⟩

end Beside

/-- A run has kept its memory sound, and unless given up it ended like the other. -/
def Agree {α : Type} (parser : InlineParser) (run run₀ : α × Cursor) : Prop :=
  Sound parser run.2 ∧
    (run.2.abandoned = true ∨ run₀.1 = run.1 ∧ run₀.2.position = run.2.position)

end InlineParser

open InlineParser

/-- A parse of content that, inside an attempt, agrees with the naive parser's. -/
def ParseContent.Follows (parser : InlineParser) (parse : ParseContent) : Prop :=
  ∀ (room : Nat) (stop : List Kind) (c c₀ : Cursor), Beside c c₀ → c.position ≤ c.tokens.size →
    openersFrom c.tokens c.position ≤ room → 1 ≤ c.depth → Sound parser c →
    Agree parser (parse stop c) (parser.naive.atRoom room stop c₀)

namespace Frame
variable {parser : InlineParser} {parse : ParseContent} {room : Nat}

/-! ### Constructs -/

theorem attempt_agree {frame : Frame} (hframe : frame.Regular) (horderly : parse.Orderly)
    (hparse : parse.Follows parser) {c c₀ : Cursor} (hbeside : Beside c c₀)
    (hc : c.position ≤ c.tokens.size) (hroom : openersFrom c.tokens c.position ≤ room + 1)
    (hdepth : 1 ≤ c.depth) (hsound : Sound parser c) :
    Agree parser (frame.attempt parse c) (frame.attempt (parser.naive.atRoom room) c₀) := by
  have hopens := hframe.opens.within c.tokens c.position hc
  have hopening₀ : frame.opening.view c₀.tokens c₀.position =
      frame.opening.view c.tokens c.position := by
    rw [hbeside.tokens, hbeside.position]
  rcases hview : frame.opening.view c.tokens c.position with ⟨_ | _, q⟩ <;>
    rw [hview] at hopens hopening₀
  · rw [attempt_of_closed hframe hview, attempt_of_closed hframe hopening₀]
    exact ⟨hsound, .inr ⟨rfl, rfl⟩⟩
  · have hlt := (hframe.inside hview).openersFrom_lt
    have hcontent := hparse room [.rightBracket] { c with position := q } { c₀ with position := q }
      ⟨hbeside.tokens, rfl, hbeside.going, hbeside.going₀⟩ hopens
      (show openersFrom c.tokens q ≤ room by omega) hdepth hsound
    have hleads := (horderly.leads [.rightBracket] { c with position := q } hopens).1
    have hleads₀ := ((parser.naive.atRoom_orderly room).leads [.rightBracket]
      { c₀ with position := q } (hbeside.tokens ▸ hopens)).1
    rw [attempt_of_open hframe hview rfl, attempt_of_open hframe hopening₀ rfl]
    refine ⟨hcontent.1, ?_⟩
    rcases hcontent.2 with habandoned | ⟨hnodes, hposition⟩
    · exact .inl habandoned
    · rw [hnodes, hposition, hleads₀.tokens.trans (hbeside.tokens.trans hleads.tokens.symm),
        hbeside.position]
      exact .inr ⟨rfl, rfl⟩

/-- Behind a run that was given up, nothing more is learnt. -/
theorem attempt_idle {frame : Frame} (hframe : frame.Regular) (horderly : parse.Orderly)
    {c : Cursor} (hc : c.abandoned = true) :
    ∃ result q, frame.attempt parse c = (result, { c with position := q }) := by
  rcases hview : frame.opening.view c.tokens c.position with ⟨_ | _, q⟩
  · exact ⟨_, _, attempt_of_closed hframe hview⟩
  · have hrun := attempt_of_open hframe hview
      (horderly.idle [.rightBracket] { c with position := q } hc)
    exact ⟨_, _, hrun⟩

theorem Tries.idle {frames : List Frame} (hframes : ∀ frame ∈ frames, frame.Regular)
    (horderly : parse.Orderly) {c d : Cursor} {result : Option Node}
    (h : Tries parse frames c result d) (hc : c.abandoned = true) :
    d.abandoned = true ∧ d.tokens = c.tokens ∧ d.failed = c.failed := by
  induction h with
  | exhausted => exact ⟨hc, rfl, rfl⟩
  | @hit frame rest c d node hattempt =>
    obtain ⟨_, q, hrun⟩ := attempt_idle (hframes _ (List.mem_cons_self ..)) horderly hc
    obtain ⟨-, rfl⟩ := Prod.mk.inj (hattempt.symm.trans hrun)
    exact ⟨hc, rfl, rfl⟩
  | @miss frame rest c d e result reports hattempt hrest ih =>
    obtain ⟨_, q, hrun⟩ := attempt_idle (hframes _ (List.mem_cons_self ..)) horderly hc
    obtain ⟨-, rfl⟩ := Prod.mk.inj (hattempt.symm.trans hrun)
    exact ih (fun f hf => hframes f (List.mem_cons_of_mem _ hf)) hc

theorem Tries.agree {frames : List Frame} (hframes : ∀ frame ∈ frames, frame.Regular)
    (horderly : parse.Orderly) (hparse : parse.Follows parser) {c d c₀ d₀ : Cursor}
    {result result₀ : Option Node} (h : Tries parse frames c result d)
    (h₀ : Tries (parser.naive.atRoom room) frames c₀ result₀ d₀) (hbeside : Beside c c₀)
    (hc : c.position ≤ c.tokens.size) (hroom : openersFrom c.tokens c.position ≤ room + 1)
    (hdepth : 1 ≤ c.depth) (hsound : Sound parser c) :
    Agree parser (result, d) (result₀, d₀) := by
  induction h generalizing c₀ with
  | exhausted c =>
    cases h₀
    exact ⟨hsound, .inr ⟨rfl, hbeside.position⟩⟩
  | @hit frame rest c d node hattempt =>
    have hregular := hframes _ (List.mem_cons_self ..)
    have hfirst := attempt_agree hregular horderly hparse hbeside hc hroom hdepth hsound
    rw [hattempt] at hfirst
    refine ⟨hfirst.1, hfirst.2.imp_right fun ⟨hresult, hposition⟩ => ?_⟩
    cases h₀ with
    | hit hattempt₀ =>
      rw [hattempt₀] at hresult hposition
      exact ⟨hresult, hposition⟩
    | miss hattempt₀ _ =>
      rw [hattempt₀] at hresult
      simp at hresult
  | @miss frame rest c d e result reports hattempt hrest ih =>
    have hregular := hframes _ (List.mem_cons_self ..)
    have hrestframes := fun f hf => hframes f (List.mem_cons_of_mem frame hf)
    have hfirst := attempt_agree hregular horderly hparse hbeside hc hroom hdepth hsound
    rw [hattempt] at hfirst
    obtain ⟨hsoundd, hfirst⟩ := hfirst
    by_cases hd : d.abandoned = true
    · -- What is tried behind a run that was given up adds nothing to the memory.
      obtain ⟨hgivenUp, htokens, hfailed⟩ := hrest.idle hrestframes horderly hd
      exact ⟨Sound.of_failed_eq hsoundd htokens hfailed, .inl hgivenUp⟩
    · have hresult := (hfirst.resolve_left hd).1
      cases h₀ with
      | hit hattempt₀ =>
        rw [hattempt₀] at hresult
        simp at hresult
      | @miss _ _ _ _ _ _ reports₀ hattempt₀ hrest₀ =>
        have hc₀ := hbeside.within hc
        have hgoing₀ := attempt_roomy hregular (parser.naive.atRoom_roomy room) hc₀
          hbeside.going₀ (hbeside.openersFrom ▸ hroom)
        rw [hattempt₀] at hgoing₀
        obtain ⟨hretry, hposition⟩ := miss_leads hregular horderly hc hattempt reports
        obtain ⟨hretry₀, hposition₀⟩ :=
          miss_leads hregular (parser.naive.atRoom_orderly room) hc₀ hattempt₀ reports₀
        refine ih hrestframes hrest₀ ⟨?_, ?_, eq_false_of_ne_true hd, hgoing₀⟩ hretry.within ?_
          (Nat.le_trans hdepth (Nat.le_of_eq hretry.depth.symm)) hsoundd
        · exact hretry₀.tokens.trans (hbeside.tokens.trans hretry.tokens.symm)
        · exact hposition₀.trans (hbeside.position.trans hposition.symm)
        · rwa [hretry.tokens, hposition]

end Frame

namespace InlineParser
open InlineMarkdown.Frame
variable {parser : InlineParser} {inner : Option ParseContent} {kind : Kind} {room : Nat}

/-! ### Attempts -/

/-- The naive parser always gets to try the constructs, and never gives up. -/
theorem Outcome.of_naive {c₀ d₀ : Cursor} {result₀ : Option Node}
    {abandoned : Bool}
    (h : Outcome parser.naive (parser.naive.inside room) kind c₀ abandoned result₀ d₀)
    (hc : c₀.position ≤ c₀.tokens.size) (hgoing : c₀.abandoned = false)
    (hroom : openersFrom c₀.tokens c₀.position ≤ room)
    (hopener : 0 < openersFrom c₀.tokens c₀.position) :
    ∃ less e, room = less + 1 ∧
      Tries (parser.naive.atRoom less) (framesAt parser.options kind) c₀.descend result₀ e ∧
      (result₀ = none ∨ d₀.position = e.position) := by
  cases h with
  | known hremember => exact absurd hremember nofun
  | full _ hnone =>
    have := (parser.naive.inside_roomy room).1 hnone
    omega
  | @givenUp parse result e _ _ hparse htries habandoned =>
    obtain ⟨horderly, less, rfl, hroomy⟩ := (parser.naive.inside_roomy room).2 _ hparse
    have := htries.roomy (fun _ => framesAt_regular) horderly hroomy hc hgoing hroom
    rw [this] at habandoned
    simp at habandoned
  | @matched parse node e _ hparse htries =>
    obtain ⟨less, rfl⟩ : ∃ less, room = less + 1 := ⟨room - 1, by omega⟩
    obtain rfl := Option.some.inj hparse
    exact ⟨less, e, rfl, htries, .inr rfl⟩
  | @failed parse e _ _ hparse htries =>
    obtain ⟨less, rfl⟩ : ∃ less, room = less + 1 := ⟨room - 1, by omega⟩
    obtain rfl := Option.some.inj hparse
    exact ⟨less, e, rfl, htries, .inl rfl⟩

theorem openersFrom_pos {c : Cursor} {token : Token Kind} (htoken : c.peek = some token)
    (hframes : framesAt parser.options token.kind ≠ []) :
    0 < openersFrom c.tokens c.position :=
  Nat.zero_lt_of_lt (openersFrom_lt htoken (isOpener_of_framesAt hframes) (Nat.lt_succ_self _))

/-- What tries inside an attempt come to is, unless they were given up, what the naive
parser's attempt comes to from any state at this token. -/
theorem tries_naive {parse : ParseContent} {c e c₀ : Cursor} {result : Option Node}
    {token : Token Kind} (htries : Tries parse (framesAt parser.options token.kind) c.descend result e)
    (horderly : parse.Orderly) (hparse : parse.Follows parser) (htoken : c.peek = some token)
    (hframes : framesAt parser.options token.kind ≠ []) (hbeside : Beside c c₀)
    (hroom : openersFrom c.tokens c.position ≤ room) (hsound : Sound parser c) :
    Sound parser e ∧ (e.abandoned = false →
      (parser.naive.attemptAt (parser.naive.inside room) token.kind c₀).1 = result ∧
      (result ≠ none →
        (parser.naive.attemptAt (parser.naive.inside room) token.kind c₀).2.position =
          e.position)) := by
  have hc : c.position ≤ c.tokens.size := Nat.le_of_lt (lt_size_of_peek htoken)
  obtain ⟨_, houtcome⟩ := attemptAt_outcome parser.naive (parser.naive.inside room) c₀ hframes
  obtain ⟨less, e₀, rfl, htries₀, hend⟩ := houtcome.of_naive (hbeside.within hc) hbeside.going₀
    (hbeside.openersFrom ▸ hroom) (hbeside.openersFrom ▸ openersFrom_pos htoken hframes)
  obtain ⟨hsounde, hrun⟩ := htries.agree (fun _ => framesAt_regular) horderly hparse htries₀
    hbeside.descend hc hroom (Nat.le_add_left ..) hsound
  refine ⟨hsounde, fun hgoinge => ?_⟩
  rcases hrun with habandoned | ⟨hresult, hpos⟩
  · rw [hgoinge] at habandoned
    simp at habandoned
  · refine ⟨hresult, fun hne => ?_⟩
    rcases hend with hnone | hend
    · exact absurd (hresult.symm.trans hnone) hne
    · exact hend.trans hpos

/-- Where all constructs have been tried in vain, the naive parser fails. -/
theorem fails_of_tries {parse : ParseContent} {c e : Cursor} {token : Token Kind}
    (htries : Tries parse (framesAt parser.options token.kind) c.descend none e)
    (horderly : parse.Orderly) (hparse : parse.Follows parser) (htoken : c.peek = some token)
    (hframes : framesAt parser.options token.kind ≠ []) (hgoing : c.abandoned = false)
    (hsound : Sound parser c) (hend : e.abandoned = false) : Fails parser c.tokens c.position := by
  refine ⟨token, htoken, hframes, fun room c₀ htokens hposition hgoing₀ hroom => ?_⟩
  have hbeside : Beside c c₀ := ⟨htokens, hposition, hgoing, hgoing₀⟩
  exact ((tries_naive htries horderly hparse htoken hframes hbeside hroom hsound).2 hend).1

/-- An attempt agrees with the naive parser's, or it was given up for lack of room. -/
theorem Outcome.agree {c d c₀ : Cursor} {abandoned : Bool} {result : Option Node}
    {token : Token Kind} (h : Outcome parser inner token.kind c abandoned result d) (htoken : c.peek = some token)
    (hframes : framesAt parser.options token.kind ≠ [])
    (hinner : ∀ parse ∈ inner, parse.Orderly ∧ parse.Follows parser) (hbeside : Beside c c₀)
    (hroom : openersFrom c.tokens c.position ≤ room) (hsound : Sound parser c) :
    Sound parser d ∧
      (abandoned = false ∧
          (parser.naive.attemptAt (parser.naive.inside room) token.kind c₀).1 = result ∧
          (parser.naive.attemptAt (parser.naive.inside room) token.kind c₀).2.position =
            d.position ∨
        abandoned = true ∧ result = none ∧ (1 ≤ c.depth → d.abandoned = true) ∧
          ∀ less, RoomyInside inner less → less < openersFrom c.tokens c.position) := by
  have hc : c.position ≤ c.tokens.size := Nat.le_of_lt (lt_size_of_peek htoken)
  obtain ⟨_, houtcome₀⟩ := attemptAt_outcome parser.naive (parser.naive.inside room) c₀ hframes
  have hleads₀ := houtcome₀.leads
    (parser.naive.inside_orderly room) (hbeside.within hc)
  have hleads := h.leads (fun parse hparse => (hinner parse hparse).1) hc
  have hstay (hresult : (parser.naive.attemptAt (parser.naive.inside room) token.kind c₀).1 = none)
      (hnone : result = none) :
      (parser.naive.attemptAt (parser.naive.inside room) token.kind c₀).2.position = d.position :=
    (hleads₀.2.1 hresult).trans (hbeside.position.trans (hleads.2.1 hnone).symm)
  have hmark := h.abandoned_eq (fun parse hparse => (hinner parse hparse).1) hc hbeside.going
  cases h with
  | known hremember hknown =>
    obtain ⟨token', htoken', -, hfails⟩ := hsound hremember _ hknown
    obtain rfl := Option.some.inj (htoken.symm.trans htoken')
    have hnone := hfails room c₀ hbeside.tokens hbeside.position hbeside.going₀ hroom
    exact ⟨hsound, .inl ⟨rfl, hnone, hstay hnone rfl⟩⟩
  | full _ hnone =>
    refine ⟨hsound.of_failed_eq rfl rfl, .inr ⟨rfl, rfl, fun _ => rfl, fun less hless => ?_⟩⟩
    rw [hless.1 hnone]
    exact openersFrom_pos htoken hframes
  | @givenUp parse result e reports _ hparse htries habandoned =>
    obtain ⟨horderly, hfollows⟩ := hinner _ hparse
    have hsounde := (tries_naive htries horderly hfollows htoken hframes hbeside hroom hsound).1
    refine ⟨hsounde.of_failed_eq rfl rfl, .inr ⟨rfl, rfl, fun hdepth => ?_, fun less hless => ?_⟩⟩
    · rw [hmark, decide_eq_true hdepth, Bool.or_true]
      rfl
    · obtain ⟨-, lesser, rfl, hroomy⟩ := hless.2 _ hparse
      refine Nat.lt_of_not_le fun hle => ?_
      have := htries.roomy (fun _ => framesAt_regular) horderly hroomy hc hbeside.going hle
      rw [this] at habandoned
      simp at habandoned
  | @matched parse node e _ hparse htries hgoing =>
    obtain ⟨horderly, hfollows⟩ := hinner _ hparse
    obtain ⟨hsounde, hrun⟩ :=
      tries_naive htries horderly hfollows htoken hframes hbeside hroom hsound
    obtain ⟨hresult, hposition⟩ := hrun hgoing
    exact ⟨hsounde.of_failed_eq rfl rfl, .inl ⟨rfl, hresult, hposition nofun⟩⟩
  | @failed parse e reports _ hparse htries hgoing =>
    obtain ⟨horderly, hfollows⟩ := hinner _ hparse
    obtain ⟨hsounde, hrun⟩ :=
      tries_naive htries horderly hfollows htoken hframes hbeside hroom hsound
    have hnone := (hrun hgoing).1
    have htokens : e.tokens = c.tokens :=
      (htries.leads (fun _ => framesAt_regular) horderly hc).1.tokens
    have hfails : Fails parser e.tokens c.position := by
      rw [htokens]
      exact fails_of_tries htries horderly hfollows htoken hframes hbeside.going hsound hgoing
    exact ⟨(hsounde.recordFailure hfails).of_failed_eq rfl rfl,
      .inl ⟨rfl, hnone, hstay hnone rfl⟩⟩

/-! ### Steps and levels -/

/-- One step of a parser agrees with the naive parser's, or it was given up for lack of
room. -/
theorem step_agree {c c₀ : Cursor} {token : Token Kind} (htoken : c.peek = some token)
    (hinner : ∀ parse ∈ inner, parse.Orderly ∧ parse.Follows parser) (hbeside : Beside c c₀)
    (hroom : openersFrom c.tokens c.position ≤ room) (hsound : Sound parser c) (draft : Draft) :
    Sound parser (parser.step inner token draft c).2 ∧
      ((parser.naive.step (parser.naive.inside room) token draft c₀).1 =
            (parser.step inner token draft c).1 ∧
          (parser.naive.step (parser.naive.inside room) token draft c₀).2.position =
            (parser.step inner token draft c).2.position ∨
        (1 ≤ c.depth → (parser.step inner token draft c).2.abandoned = true) ∧
          ∀ less, RoomyInside inner less → less < openersFrom c.tokens c.position) := by
  by_cases hframes : framesAt parser.options token.kind = []
  · obtain ⟨f, q, -, -, hstep⟩ := exists_plain htoken hframes
    rw [hstep parser rfl inner draft c rfl rfl,
      hstep parser.naive rfl _ draft c₀ hbeside.tokens hbeside.position]
    exact ⟨hsound.of_failed_eq rfl rfl, .inl ⟨rfl, rfl⟩⟩
  · obtain ⟨_, houtcome⟩ := attemptAt_outcome parser inner c hframes
    have hagree := houtcome.agree htoken hframes hinner hbeside
      hroom hsound
    rw [parser.step_of_framesAt_ne_nil inner draft c hframes,
      parser.naive.step_of_framesAt_ne_nil _ draft c₀ hframes]
    unfold orText
    rcases hrun : parser.attemptAt inner token.kind c with ⟨result, d⟩
    rcases hrun₀ : parser.naive.attemptAt (parser.naive.inside room) token.kind c₀ with
      ⟨result₀, d₀⟩
    rw [hrun, hrun₀] at hagree
    obtain ⟨hsoundd, ⟨-, hresult, hposition⟩ | ⟨-, hnone, habandoned, hlack⟩⟩ := hagree
    · have hresult : result₀ = result := hresult
      have hposition : d₀.position = d.position := hposition
      subst hresult
      cases result₀ with
      | none => exact ⟨hsoundd.of_failed_eq rfl rfl, .inl ⟨rfl, congrArg (· + 1) hposition⟩⟩
      | some node => exact ⟨hsoundd, .inl ⟨rfl, hposition⟩⟩
    · have hnone : result = none := hnone
      subst hnone
      exact ⟨hsoundd.of_failed_eq rfl rfl, .inr ⟨habandoned, hlack⟩⟩

/-- Inside an attempt, or where there is enough room, the steps of a level are the naive
parser's until they are given up. -/
theorem steps_agree {c c₀ : Cursor} (stop : List Kind) (hc : c.position ≤ c.tokens.size)
    (hinner : ∀ parse ∈ inner, parse.Orderly ∧ parse.Follows parser) (hbeside : Beside c c₀)
    (hroom : openersFrom c.tokens c.position ≤ room) (hsound : Sound parser c)
    (hdeep : 1 ≤ c.depth ∨ ∃ less, RoomyInside inner less ∧ openersFrom c.tokens c.position ≤ less)
    (limit : Nat) (draft : Draft) :
    Agree parser (parser.steps inner stop limit draft c)
      (parser.naive.steps (parser.naive.inside room) stop limit draft c₀) := by
  induction limit generalizing draft c c₀ with
  | zero => exact ⟨hsound, .inr ⟨rfl, hbeside.position⟩⟩
  | succ limit ih =>
    unfold steps
    rw [hbeside.peek]
    rcases htoken : c.peek with _ | token
    · exact ⟨hsound, .inr ⟨rfl, hbeside.position⟩⟩
    · dsimp only
      rw [hbeside.stopsAt]
      split
      · exact ⟨hsound, .inr ⟨rfl, hbeside.position⟩⟩
      · have htoken₀ : c₀.peek = some token := hbeside.peek.trans htoken
        obtain ⟨hleads, hlt⟩ :=
          parser.step_leads (fun parse hparse => (hinner parse hparse).1) htoken draft
        obtain ⟨hleads₀, -⟩ :=
          parser.naive.step_leads (parser.naive.inside_orderly room) htoken₀ draft
        have hgoing₀ := parser.naive.step_roomy (parser.naive.inside_roomy room) htoken₀
          hbeside.going₀ (hbeside.openersFrom ▸ hroom) draft
        obtain ⟨hsoundd, hrun⟩ := step_agree htoken hinner hbeside hroom hsound draft
        rcases hstep : parser.step inner token draft c with ⟨draft', d⟩
        rcases hstep₀ : parser.naive.step (parser.naive.inside room) token draft c₀ with
          ⟨draft₀', d₀⟩
        rw [hstep] at hleads hlt hsoundd
        rw [hstep₀] at hleads₀ hgoing₀
        rw [hstep, hstep₀] at hrun
        dsimp only at hleads hlt hsoundd hleads₀ hgoing₀ hrun ⊢
        by_cases hd : d.abandoned = true
        · -- Once it is given up, the level makes no further step.
          rw [steps_idle stop limit draft' hd]
          exact ⟨hsoundd, .inl hd⟩
        · rcases hrun with ⟨rfl, hposition⟩ | ⟨habandoned, hlack⟩
          · have hless := @openersFrom_le c.tokens _ _ (Nat.le_of_lt hlt)
            refine ih hleads.within ⟨?_, hposition, eq_false_of_ne_true hd, hgoing₀⟩ ?_ hsoundd ?_ _
            · exact hleads₀.tokens.trans (hbeside.tokens.trans hleads.tokens.symm)
            · rw [hleads.tokens]
              exact Nat.le_trans hless hroom
            · rw [hleads.tokens, hleads.depth]
              refine hdeep.imp_right fun hdeeper => ?_
              obtain ⟨less, hinside, hle⟩ := hdeeper
              exact ⟨less, hinside, Nat.le_trans hless hle⟩
          · -- Giving up leaves a mark inside an attempt, and does not happen where there is room.
            rcases hdeep with hdepth | ⟨less, hinside, hle⟩
            · exact absurd (habandoned hdepth) hd
            · exact absurd (hlack less hinside) (Nat.not_lt.2 hle)

/-- So a level agrees with the naive parser's. -/
theorem level_agree {c c₀ : Cursor} (stop : List Kind) (hc : c.position ≤ c.tokens.size)
    (hinner : ∀ parse ∈ inner, parse.Orderly ∧ parse.Follows parser) (hbeside : Beside c c₀)
    (hroom : openersFrom c.tokens c.position ≤ room) (hsound : Sound parser c)
    (hdeep : 1 ≤ c.depth ∨ ∃ less, RoomyInside inner less ∧ openersFrom c.tokens c.position ≤ less) :
    Agree parser (parser.level inner stop c) (parser.naive.atRoom room stop c₀) := by
  obtain ⟨hsoundd, hrun⟩ :=
    steps_agree stop hc hinner hbeside hroom hsound hdeep c.remaining {}
  rw [atRoom_eq_level]
  unfold level
  rw [hbeside.remaining]
  exact ⟨hsoundd, hrun.imp_right fun hfinished =>
    ⟨congrArg Draft.finish hfinished.1, hfinished.2⟩⟩

theorem atRoom_follows (parser : InlineParser) (less : Nat) :
    ParseContent.Follows parser (parser.atRoom less) := by
  induction less with
  | zero =>
    intro room stop c c₀ hbeside hc hroom hdepth hsound
    exact level_agree stop hc nofun hbeside hroom hsound (.inl hdepth)
  | succ less ih =>
    intro room stop c c₀ hbeside hc hroom hdepth hsound
    refine level_agree stop hc (fun parse hparse => ?_) hbeside hroom hsound (.inl hdepth)
    obtain rfl := Option.some.inj hparse
    exact ⟨parser.atRoom_orderly less, ih⟩

theorem inside_follows (parser : InlineParser) (less : Nat) :
    ∀ parse ∈ parser.inside less, parse.Orderly ∧ parse.Follows parser := by
  cases less with
  | zero => exact nofun
  | succ less =>
    intro parse hparse
    obtain rfl := Option.some.inj hparse
    exact ⟨parser.atRoom_orderly less, parser.atRoom_follows less⟩

end InlineParser
end InlineMarkdown
