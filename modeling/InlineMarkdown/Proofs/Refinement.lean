import InlineMarkdown.Proofs.Session

/-! The parser refines the naive one.

In the midst of any session, an attempt that yields a node is the naive parser's attempt
at that token, and a failure that is remembered is a failure of the naive parser
(`session_refines_naive`). Where no more tokens may start a construct than attempts may be
nested, the two parsers are the same from the start (`parse_eq_unbounded`). -/
namespace InlineMarkdown
open Attempt

namespace InlineParser
variable {parser : InlineParser} {tokens : Array (Token Kind)} {stop : List Kind} {room p : Nat}
  {draft : Draft} {c d : Cursor} {token : Token Kind} {node : Node}

/-- An attempt that yields a node is the naive one, node and end alike. -/
theorem Standing.attempt (h : Standing parser tokens room c) (htoken : c.peek = some token)
    (hstops : stopsAt stop c token = false)
    (hrun : parser.attemptAt (parser.inside room) token.kind c = (some node, d)) :
    freely (attemptAt · · token.kind) parser tokens c.position = (some node, d.position) := by
  have hframes : framesAt parser.options token.kind ≠ [] := by
    intro hnil
    rw [attemptAt_of_framesAt_nil _ hnil] at hrun
    exact nomatch hrun
  have hgoing := going_of_stopsAt hstops
  have hroom := openersFrom_le_size c.tokens c.position
  obtain ⟨_, houtcome⟩ := attemptAt_outcome parser (parser.inside room) c hframes
  have hagree := (houtcome.agree htoken hframes
    (parser.inside_follows room) ⟨rfl, rfl, hgoing, hgoing⟩ hroom h.sound).2
  obtain ⟨hresult, hposition⟩ := attemptAt_naive htoken hframes hgoing hroom
  rw [hrun] at hagree
  rcases hagree with ⟨-, hnode, hend⟩ | ⟨-, hnone, -⟩
  · rw [hresult] at hnode
    rw [hposition] at hend
    unfold freely
    rw [← h.tokens]
    exact Prod.ext hnode hend
  · exact nomatch hnone

/-- A remembered failure is at a token whose attempt fails in the naive parser. -/
theorem Fails.freely (h : Fails parser tokens p) : ∃ token, tokens[p]? = some token ∧
    framesAt parser.options token.kind ≠ [] ∧
    (freely (attemptAt · · token.kind) parser tokens p).1 = none := by
  obtain ⟨token, htoken, hframes, hfails⟩ := h
  have hroom := openersFrom_le_size tokens p
  have hnaive := attemptAt_naive (c := { tokens, position := p }) htoken hframes rfl hroom
  exact ⟨token, htoken, hframes,
    hnaive.1.symm.trans (hfails tokens.size { tokens, position := p } rfl rfl rfl hroom)⟩

/-- A parse with enough room is the naive parse. -/
theorem parse_eq_unbounded (h : Standing parser tokens parser.search.nesting c)
    (hgoing : c.abandoned = false) (hroom : openersFrom tokens c.position ≤ parser.search.nesting)
    (stop : List Kind) :
    (parser.parse stop c).1 = (parser.unbounded stop c).1 ∧
      (parser.parse stop c).2.position = (parser.unbounded stop c).2.position := by
  have hc : c.position ≤ c.tokens.size := by
    rw [h.tokens]
    exact h.within
  have hdepth : parser.search.nesting - c.depth = parser.search.nesting := by
    have := h.nesting
    omega
  rw [← h.tokens] at hroom
  have hroomy := parser.inside_roomy parser.search.nesting
  obtain ⟨-, hagree⟩ := level_agree stop hc (parser.inside_follows _) ⟨rfl, rfl, hgoing, hgoing⟩
    (openersFrom_le_size c.tokens c.position) h.sound (.inr ⟨_, hroomy, hroom⟩)
  unfold parse unbounded
  rw [hdepth, atRoom_eq_level parser]
  rcases hagree with habandoned | ⟨hnodes, hposition⟩
  · rw [level_roomy hroomy stop c hc hgoing hroom] at habandoned
    exact nomatch habandoned
  · exact ⟨hnodes.symm, hposition.symm⟩

/-- The parser refines the naive one, throughout every session. -/
theorem session_refines_naive (options : InlineOptions) (tokens : Array (Token Kind)) :
    let parser : InlineParser := { options }
    -- an attempt that yields a node yields what the naive one yields there
    (∀ stop room draft c token node d, Underway parser tokens stop room draft c →
      c.peek = some token → stopsAt stop c token = false →
      (token.kind = .exclamation → parser.tryImage (parser.inside room) c = (some node, d) →
        freely tryImage parser tokens c.position = (some node, d.position)) ∧
      (token.kind = .leftBracket → parser.tryBracket (parser.inside room) c = (some node, d) →
        freely tryBracket parser tokens c.position = (some node, d.position))) ∧
    -- what is remembered as a failure fails
    (∀ stop room draft c p, Underway parser tokens stop room draft c → c.knownFailure p = true →
      KindAt tokens p .exclamation ∧ (freely tryImage parser tokens p).1 = none ∨
      KindAt tokens p .leftBracket ∧ (freely tryBracket parser tokens p).1 = none) ∧
    -- with few enough tokens that may start a construct, there is no difference
    (tokens.toList.countP (·.kind.isOpener) ≤ 64 → ∀ stop start,
      let c := Cursor.reset { tokens } start
      (parser.parse stop c).1 = (parser.unbounded stop c).1 ∧
        (parser.parse stop c).2.position = (parser.unbounded stop c).2.position) := by
  intro parser
  have hnesting : 0 < parser.search.nesting := Nat.succ_pos 63
  refine ⟨?_, ?_, ?_⟩
  · intro stop room draft c token node d hunderway htoken hstops
    have hstanding := hunderway.standing hnesting
    refine ⟨fun hkind hrun => ?_, fun hkind hrun => ?_⟩
    · have hrun : parser.attemptAt (parser.inside room) token.kind c = (some node, d) := by
        rw [hkind]
        exact hrun
      have hfreely := hstanding.attempt htoken hstops hrun
      rw [hkind] at hfreely
      exact hfreely
    · have hrun : parser.attemptAt (parser.inside room) token.kind c = (some node, d) := by
        rw [hkind]
        exact hrun
      have hfreely := hstanding.attempt htoken hstops hrun
      rw [hkind] at hfreely
      exact hfreely
  · intro stop room draft c p hunderway hknown
    have hstanding := hunderway.standing hnesting
    have hfails := hstanding.sound rfl p hknown
    rw [hstanding.tokens] at hfails
    obtain ⟨token, htoken, hframes, hnone⟩ := hfails.freely
    have hopener := isOpener_of_framesAt hframes
    cases hkind : token.kind <;> rw [hkind] at hopener hnone
    case exclamation => exact .inl ⟨⟨token, htoken, hkind⟩, hnone⟩
    case leftBracket => exact .inr ⟨⟨token, htoken, hkind⟩, hnone⟩
    all_goals exact nomatch hopener
  · intro hfew stop start c
    have hstanding : Standing parser tokens parser.search.nesting c :=
      (Standing.fresh parser tokens).move (Nat.min_le_right ..)
    exact parse_eq_unbounded hstanding rfl
      (Nat.le_trans (openersFrom_le (Nat.zero_le _)) hfew) stop

end InlineParser
end InlineMarkdown
