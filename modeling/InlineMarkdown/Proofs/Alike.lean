import InlineMarkdown.Proofs.Frame
import Mathlib.Data.Option.Basic

/-! Attempts at two lists of tokens.

`Alike` relates what two attempts make of two lists of tokens, from the same position: they end
at the same position, both with a result or both without one, and the results are related. It
is closed under sequencing, so that it holds of all that opens and closes a construct once it
holds of the tokens. -/
namespace InlineMarkdown
namespace Attempt
variable {α α' β β' : Type} {R : α → α' → Prop} {S : β → β' → Prop}
  {tokens tokens' : Array (Token Kind)} {p : Nat}

/-- From position `p` the two attempts end alike. -/
def Alike (R : α → α' → Prop) (tokens tokens' : Array (Token Kind)) (a : Attempt α)
    (a' : Attempt α') (p : Nat) : Prop :=
  Option.Rel R (a.view tokens p).1 (a'.view tokens' p).1 ∧
    (a'.view tokens' p).2 = (a.view tokens p).2

theorem rel_map {f : α → β} {f' : α' → β'} (hf : ∀ x x', R x x' → S (f x) (f' x'))
    {x : Option α} {x' : Option α'} (h : Option.Rel R x x') :
    Option.Rel S (x.map f) (x'.map f') := by
  cases h with
  | some h => exact .some (hf _ _ h)
  | none => exact .none

namespace Alike

theorem refl {R : α → α → Prop} (hR : ∀ x, R x x) {a : Attempt α} :
    Alike R tokens tokens a a p := by
  refine ⟨?_, rfl⟩
  cases (a.view tokens p).1 with
  | none => exact .none
  | some x => exact .some (hR x)

theorem fail : Alike R tokens tokens' fail fail p := ⟨.none, rfl⟩

theorem pure {x : α} {x' : α'} (h : R x x') : Alike R tokens tokens' (pure x) (pure x') p :=
  ⟨.some h, rfl⟩

theorem ofOption {x : Option α} {x' : Option α'} (h : Option.Rel R x x') :
    Alike R tokens tokens' (ofOption x) (ofOption x') p :=
  ⟨h, rfl⟩

theorem ite {a b : Attempt α} {a' b' : Attempt α'} {c c' : Prop} [Decidable c] [Decidable c']
    (hc : c' ↔ c) (ha : Alike R tokens tokens' a a' p) (hb : Alike R tokens tokens' b b' p) :
    Alike R tokens tokens' (if c then a else b) (if c' then a' else b') p := by
  by_cases h : c
  · rwa [if_pos h, if_pos (hc.2 h)]
  · rwa [if_neg h, if_neg (mt hc.1 h)]

theorem bind {a : Attempt α} {a' : Attempt α'} {k : α → Attempt β} {k' : α' → Attempt β'}
    (ha : Moves a) (ha' : Moves a') (h : Alike R tokens tokens' a a' p)
    (hk : ∀ x x' q, a.view tokens p = (some x, q) → R x x' →
      Alike S tokens tokens' (k x) (k' x') q) :
    Alike S tokens tokens' (a >>= k) (a' >>= k') p := by
  obtain ⟨hresult, hend⟩ := h
  unfold Alike
  rcases hview : a.view tokens p with ⟨result, q⟩
  rcases hview' : a'.view tokens' p with ⟨result', q'⟩
  rw [hview, hview'] at hresult hend
  obtain rfl : q' = q := hend
  cases hresult with
  | none =>
    rw [view_bind_none ha hview, view_bind_none ha' hview']
    exact ⟨.none, rfl⟩
  | @some x x' hx =>
    rw [view_bind_some ha hview, view_bind_some ha' hview']
    exact hk x x' q' hview hx

/-- With equal results they are the same. -/
theorem view_eq {a a' : Attempt α} (h : Alike Eq tokens tokens' a a' p) :
    a'.view tokens' p = a.view tokens p := by
  have hequal {x y : Option α} (h : Option.Rel Eq x y) : y = x := by
    cases h with
    | some h => rw [h]
    | none => rfl
  exact Prod.ext (hequal h.1) h.2

end Alike

/-! ### Passing tokens -/

theorem consume_alike {accept : Token Kind → Bool}
    (haccept : tokens'[p]?.any accept = tokens[p]?.any accept) :
    Alike Eq tokens tokens' (consume accept) (consume accept) p := by
  have hpeek (tokens : Array (Token Kind)) :
      Cursor.peek { tokens, position := p } = tokens[p]? := rfl
  unfold Alike view consume
  rw [hpeek, hpeek, haccept]
  split
  · exact ⟨.some rfl, rfl⟩
  · exact ⟨.none, rfl⟩

/-- Tokens of the same kinds. -/
def SameKinds (tokens tokens' : Array (Token Kind)) : Prop :=
  ∀ p : Nat, tokens'[p]?.map (·.kind) = tokens[p]?.map (·.kind)

namespace SameKinds
variable (h : SameKinds tokens tokens')
include h

theorem size_eq : tokens'.size = tokens.size := by
  have hle {a b : Array (Token Kind)} (h : SameKinds a b) : a.size ≤ b.size := by
    have hnone := h b.size
    simpa using hnone
  exact Nat.le_antisymm (hle fun p => (h p).symm) (hle h)

theorem exists_token {token : Token Kind} (htoken : tokens[p]? = some token) :
    ∃ token', tokens'[p]? = some token' ∧ token'.kind = token.kind := by
  have hkind := h p
  rw [htoken] at hkind
  exact Option.map_eq_some_iff.1 hkind

theorem getElem?_eq_none (htoken : tokens[p]? = none) : tokens'[p]? = none := by
  have hkind := h p
  rw [htoken] at hkind
  exact Option.map_eq_none_iff.1 hkind

theorem isAt_alike (kind : Kind) (p : Nat) :
    Alike Eq tokens tokens' (look (·.isAt kind)) (look (·.isAt kind)) p := by
  have hsame : Cursor.isAt { tokens := tokens', position := p } kind =
      Cursor.isAt { tokens, position := p } kind := congrArg (· == some kind) (h p)
  exact ⟨.some hsame.symm, rfl⟩

theorem expect_alike (kind : Kind) (p : Nat) :
    Alike Eq tokens tokens' (expect kind) (expect kind) p := by
  rw [expect_eq_consume]
  refine consume_alike ?_
  have hany (tokens : Array (Token Kind)) : tokens[p]?.any (·.kind == kind) =
      (tokens[p]?.map (·.kind)).any (· == kind) := by rw [Option.any_map]
  rw [hany, hany, h p]

end SameKinds

/-! ### Passing the rest of a line -/

theorem view_rawUpTo_succ (close : Kind) (limit : Nat) (tokens : Array (Token Kind)) (p : Nat) :
    (rawUpTo close (limit + 1)).view tokens p =
      (rawRound close (rawUpTo close limit) tokens[p]?).view tokens p := by
  unfold view
  rw [rawUpTo_succ]
  rfl

/-- Where text goes on, the token adds its own. -/
theorem view_rawRound {close : Kind} {token : Token Kind} (htoken : tokens[p]? = some token)
    (hclose : token.kind ≠ close) (hstop : (token.isEof || token.kind == .newline) = false)
    {next : Attempt (List Char)} (hnext : Moves next) :
    (rawRound close next (some token)).view tokens p =
      ((next.view tokens (p + 1)).1.map (token.text ++ ·), (next.view tokens (p + 1)).2) := by
  have hpass : (consume fun _ => true).view tokens p = (some (), p + 1) := by
    simp [view, consume, Cursor.peek, Cursor.advance, htoken]
  unfold rawRound
  dsimp only
  rw [if_neg hclose, hstop, if_neg Bool.false_ne_true, view_bind_some (consume_moves _) hpass]
  rcases hview : next.view tokens (p + 1) with ⟨_ | raw, e⟩
  · rw [view_bind_none hnext hview]
    rfl
  · rw [view_bind_some hnext hview]
    rfl

/-- What is passed up to some kind is neither of that kind nor the end of a line. -/
theorem rawUpTo_passes {close : Kind} {limit q : Nat} {token : Token Kind} (hp : p ≤ q)
    (hq : q < ((rawUpTo close limit).view tokens p).2) (htoken : tokens[q]? = some token) :
    token.kind ≠ close ∧ (token.isEof || token.kind == .newline) = false := by
  induction limit generalizing p with
  | zero => exact absurd hq (Nat.not_lt.2 hp)
  | succ limit ih =>
    rw [view_rawUpTo_succ] at hq
    cases hfirst : tokens[p]? with
    | none =>
      rw [hfirst] at hq
      exact absurd hq (Nat.not_lt.2 hp)
    | some first =>
      rw [hfirst] at hq
      by_cases hclose : first.kind = close
      · simp only [rawRound, if_pos hclose] at hq
        exact absurd hq (Nat.not_lt.2 hp)
      · by_cases hstop : (first.isEof || first.kind == .newline) = true
        · simp only [rawRound, if_neg hclose, if_pos hstop] at hq
          exact absurd hq (Nat.not_lt.2 hp)
        · have hgo := eq_false_of_ne_true hstop
          rw [view_rawRound hfirst hclose hgo (rawUpTo_moves close limit)] at hq
          rcases Nat.eq_or_lt_of_le hp with rfl | hlt
          · obtain rfl := Option.some.inj (hfirst.symm.trans htoken)
            exact ⟨hclose, hgo⟩
          · exact ih hlt hq

/-- The texts of tokens up to some kind are alike if the texts of all tokens passed are. -/
theorem SameKinds.rawUpTo_alike (h : SameKinds tokens tokens') {f f' : Char → Char} (close : Kind)
    (limit p : Nat) (htext : ∀ q token token', p ≤ q →
      q < ((rawUpTo close limit).view tokens p).2 → tokens[q]? = some token →
      tokens'[q]? = some token' → token'.text.map f' = token.text.map f) :
    Alike (fun raw raw' => raw'.map f' = raw.map f) tokens tokens' (rawUpTo close limit)
      (rawUpTo close limit) p := by
  induction limit generalizing p with
  | zero => exact .fail
  | succ limit ih =>
    unfold Alike
    rw [view_rawUpTo_succ] at htext ⊢
    rw [view_rawUpTo_succ]
    cases htoken : tokens[p]? with
    | none =>
      rw [h.getElem?_eq_none htoken]
      exact Alike.fail
    | some token =>
      obtain ⟨token', htoken', hkind⟩ := h.exists_token htoken
      rw [htoken] at htext
      rw [htoken']
      have heof : token'.isEof = token.isEof := congrArg TokenKind.isEof hkind
      by_cases hclose : token.kind = close
      · simp only [rawRound, hkind, hclose, if_true]
        exact Alike.pure rfl
      · by_cases hstop : (token.isEof || token.kind == .newline) = true
        · simp only [rawRound, hkind, heof, hclose, hstop, if_true, if_false]
          exact Alike.fail
        · have hgo := eq_false_of_ne_true hstop
          have hgo' : (token'.isEof || token'.kind == .newline) = false := by rw [hkind, heof, hgo]
          have hmoves := rawUpTo_moves close limit
          rw [view_rawRound htoken hclose hgo hmoves] at htext ⊢
          rw [view_rawRound htoken' (hkind ▸ hclose) hgo' hmoves]
          obtain ⟨hraw, hend⟩ := ih (p + 1) fun q t t' hq => htext q t t' (Nat.le_of_succ_le hq)
          have hown := htext p token token' (Nat.le_refl p) (hmoves.forward tokens (p + 1)) htoken
            htoken'
          refine ⟨rel_map (fun raw raw' hraw => ?_) hraw, hend⟩
          rw [List.map_append, List.map_append, hown, hraw]

theorem SameKinds.rawUntil_alike (h : SameKinds tokens tokens') (f f' : Char → Char) {close : Kind}
    {p : Nat} (htext : ∀ q token token', p ≤ q →
      q < ((rawUntil close).view tokens p).2 → tokens[q]? = some token →
      tokens'[q]? = some token' → token'.text.map f' = token.text.map f) :
    Alike (fun raw raw' => raw'.map f' = raw.map f) tokens tokens' (rawUntil close)
      (rawUntil close) p := by
  have hrun (tokens : Array (Token Kind)) : (rawUntil close).view tokens p =
      (rawUpTo close (tokens.size - p)).view tokens p := rfl
  unfold Alike
  rw [hrun] at htext ⊢
  rw [hrun, h.size_eq]
  exact h.rawUpTo_alike close _ p htext

/-- Destinations are alike if what stands between the parentheses is, and is split alike. -/
theorem SameKinds.destination_alike (h : SameKinds tokens tokens')
    {S : List Char → List Char → Prop} {R : List Char × List Char → List Char × List Char → Prop}
    (hraw : KindAt tokens p .leftParen →
      Alike S tokens tokens' (rawUntil .rightParen) (rawUntil .rightParen) (p + 1))
    (hsplit : ∀ raw raw', S raw raw' →
      Option.Rel R (splitDestination? raw) (splitDestination? raw')) :
    Alike R tokens tokens' InlineParser.destination InlineParser.destination p := by
  refine .bind (expect_moves _) (expect_moves _) (h.expect_alike _ p) fun _ _ q hq _ => ?_
  obtain ⟨rfl, hparen⟩ := view_expect_eq_some hq
  refine .bind (rawUntil_moves _) (rawUntil_moves _) (hraw hparen) fun raw raw' q _ hS => ?_
  exact .bind (expect_moves _) (expect_moves _) (h.expect_alike _ q) fun _ _ _ _ _ =>
    .ofOption (hsplit raw raw' hS)

end Attempt
end InlineMarkdown
