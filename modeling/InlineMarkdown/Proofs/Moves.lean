import InlineMarkdown.Inline.Parser

/-! Attempts that only move the cursor.

Most steps of an attempt read tokens and pass them, and know nothing of failures,
nesting or reports. `Moves` says so: what such an attempt yields and where it ends
depends on the tokens and the position alone (its `view`), it never goes back, and it
never goes beyond the last token. `Moves` is closed under sequencing, so that it holds
of everything that opens or closes a construct at a bracket. -/
namespace InlineMarkdown
namespace Attempt
variable {α β : Type}

/-! ### Sequencing -/

theorem bind_some {a : Attempt α} {k : α → Attempt β} {c d : Cursor} {x : α}
    (h : a c = (some x, d)) : (a >>= k) c = k x d := by
  show andThen a k c = k x d
  simp only [andThen, h]

theorem bind_none {a : Attempt α} {k : α → Attempt β} {c d : Cursor} (h : a c = (none, d)) :
    (a >>= k) c = (none, d) := by
  show andThen a k c = (none, d)
  simp only [andThen, h]

/-! ### Moving -/

/-- What the attempt yields at a position of these tokens, and where it ends. -/
def view (a : Attempt α) (tokens : Array (Token Kind)) (position : Nat) : Option α × Nat :=
  ((a { tokens, position }).1, (a { tokens, position }).2.position)

/-- The attempt reads nothing but tokens and position, and changes nothing but the
position, which it only increases. -/
structure Moves (a : Attempt α) : Prop where
  run (c : Cursor) : a c = ((a.view c.tokens c.position).1,
    { c with position := (a.view c.tokens c.position).2 })
  forward (tokens : Array (Token Kind)) (p : Nat) : p ≤ (a.view tokens p).2
  within (tokens : Array (Token Kind)) (p : Nat) :
    p ≤ tokens.size → (a.view tokens p).2 ≤ tokens.size

theorem view_bind_some {a : Attempt α} {k : α → Attempt β} {tokens : Array (Token Kind)}
    {p q : Nat} {x : α} (ha : Moves a) (h : a.view tokens p = (some x, q)) :
    (a >>= k).view tokens p = (k x).view tokens q := by
  have hrun := ha.run { tokens, position := p }
  rw [h] at hrun
  unfold view
  rw [bind_some hrun]

theorem view_bind_none {a : Attempt α} {k : α → Attempt β} {tokens : Array (Token Kind)}
    {p q : Nat} (ha : Moves a) (h : a.view tokens p = (none, q)) :
    (a >>= k).view tokens p = (none, q) := by
  have hrun := ha.run { tokens, position := p }
  rw [h] at hrun
  unfold view
  rw [bind_none hrun]

/-- If a sequence succeeds, so do its parts. -/
theorem view_bind_eq_some {a : Attempt α} {k : α → Attempt β} {tokens : Array (Token Kind)}
    {p e : Nat} {y : β} (ha : Moves a) (h : (a >>= k).view tokens p = (some y, e)) :
    ∃ x q, a.view tokens p = (some x, q) ∧ (k x).view tokens q = (some y, e) := by
  rcases hview : a.view tokens p with ⟨_ | x, q⟩
  · rw [view_bind_none ha hview] at h
    simp at h
  · rw [view_bind_some ha hview] at h
    exact ⟨x, q, rfl, h⟩

namespace Moves

theorem pure (a : α) : Moves (pure a : Attempt α) :=
  ⟨fun _ => rfl, fun _ _ => Nat.le_refl _, fun _ _ h => h⟩

theorem fail : Moves (fail : Attempt α) :=
  ⟨fun _ => rfl, fun _ _ => Nat.le_refl _, fun _ _ h => h⟩

theorem ofOption (value : Option α) : Moves (ofOption value) :=
  ⟨fun _ => rfl, fun _ _ => Nat.le_refl _, fun _ _ h => h⟩

theorem look {f : Cursor → α}
    (hf : ∀ c : Cursor, f c = f { tokens := c.tokens, position := c.position }) :
    Moves (look f) :=
  ⟨fun c => by unfold Attempt.look view; rw [hf c], fun _ _ => Nat.le_refl _, fun _ _ h => h⟩

theorem bind {a : Attempt α} {k : α → Attempt β} (ha : Moves a) (hk : ∀ x, Moves (k x)) :
    Moves (a >>= k) := by
  refine ⟨fun c => ?_, fun tokens p => ?_, fun tokens p hp => ?_⟩
  · have hrun := ha.run c
    rcases h : a.view c.tokens c.position with ⟨_ | x, q⟩ <;> rw [h] at hrun
    · rw [bind_none hrun, view_bind_none ha h]
    · rw [bind_some hrun, (hk x).run, view_bind_some ha h]
  · have hforward := ha.forward tokens p
    rcases h : a.view tokens p with ⟨_ | x, q⟩ <;> rw [h] at hforward
    · rw [view_bind_none ha h]
      exact hforward
    · rw [view_bind_some ha h]
      exact Nat.le_trans hforward ((hk x).forward tokens q)
  · have hwithin := ha.within tokens p hp
    rcases h : a.view tokens p with ⟨_ | x, q⟩ <;> rw [h] at hwithin
    · rw [view_bind_none ha h]
      exact hwithin
    · rw [view_bind_some ha h]
      exact (hk x).within tokens q hwithin

theorem ite {a b : Attempt α} {p : Prop} [Decidable p] (ha : Moves a) (hb : Moves b) :
    Moves (if p then a else b) := by
  split
  · exact ha
  · exact hb

end Moves

/-- A choice by the current token. -/
theorem Moves.peek {f : Option (Token Kind) → Attempt α} (hf : ∀ token, Moves (f token)) :
    Moves fun c => f c.peek c :=
  ⟨fun c => (hf c.peek).run c,
    fun tokens p => (hf _).forward tokens p, fun tokens p => (hf _).within tokens p⟩

/-! ### Passing tokens -/

/-- Passes the current token if `accept` holds of it. -/
def consume (accept : Token Kind → Bool) : Attempt Unit := fun c =>
  if c.peek.any accept then (some (), c.advance) else (none, c)

theorem lt_size_of_peek {c : Cursor} {token : Token Kind} (h : c.peek = some token) :
    c.position < c.tokens.size := by
  obtain ⟨hlt, _⟩ := Array.getElem?_eq_some_iff.1 h
  exact hlt

theorem consume_of_peek {accept : Token Kind → Bool} {c : Cursor} {token : Token Kind}
    (h : c.peek = some token) (ha : accept token = true) : consume accept c = (some (), c.advance) := by
  simp [consume, h, ha]

theorem consume_moves (accept : Token Kind → Bool) : Moves (consume accept) := by
  refine ⟨fun c => ?_, fun tokens p => ?_, fun tokens p hp => ?_⟩
  · have hpeek : Cursor.peek { tokens := c.tokens, position := c.position } = c.peek := rfl
    simp only [view, consume, hpeek]
    split <;> rfl
  · simp only [view, consume]
    split
    · exact Nat.le_succ p
    · exact Nat.le_refl p
  · rcases h : Cursor.peek { tokens, position := p } with _ | token
    · simpa [view, consume, h] using hp
    · have hlt : p < tokens.size := lt_size_of_peek h
      simp only [view, consume, h]
      split
      · exact hlt
      · exact hp

theorem view_consume_eq_some {accept : Token Kind → Bool} {tokens : Array (Token Kind)} {p q : Nat}
    (h : (consume accept).view tokens p = (some (), q)) :
    q = p + 1 ∧ ∃ token, tokens[p]? = some token ∧ accept token = true := by
  rcases hpeek : Cursor.peek { tokens, position := p } with _ | token
  · simp [view, consume, hpeek] at h
  · by_cases ha : accept token = true
    · simp [view, consume, hpeek, ha, Cursor.advance] at h
      exact ⟨h.symm, token, hpeek, ha⟩
    · simp [view, consume, hpeek, ha] at h

theorem expect_eq_consume (kind : Kind) : expect kind = consume (·.kind == kind) := by
  funext c
  rcases h : c.peek with _ | token <;>
    simp [expect, consume, Cursor.isAt, Cursor.peekKind, h]

theorem view_expect_eq_some {kind : Kind} {tokens : Array (Token Kind)} {p q : Nat}
    (h : (expect kind).view tokens p = (some (), q)) :
    q = p + 1 ∧ ∃ token, tokens[p]? = some token ∧ token.kind = kind := by
  rw [expect_eq_consume] at h
  obtain ⟨hq, token, htoken, hkind⟩ := view_consume_eq_some h
  exact ⟨hq, token, htoken, eq_of_beq hkind⟩

theorem expect_moves (kind : Kind) : Moves (expect kind) :=
  expect_eq_consume kind ▸ consume_moves _

/-- One token's part of `rawUpTo`; `next` does the rest. -/
def rawRound (close : Kind) (next : Attempt (List Char)) :
    Option (Token Kind) → Attempt (List Char)
  | none => fail
  | some token =>
    if token.kind = close then pure []
    else if token.isEof || token.kind == .newline then fail
    else do
      consume fun _ => true
      let raw ← next
      return token.text ++ raw

theorem rawUpTo_succ (close : Kind) (limit : Nat) (c : Cursor) :
    rawUpTo close (limit + 1) c = rawRound close (rawUpTo close limit) c.peek c := by
  conv => lhs; unfold rawUpTo
  rcases h : c.peek with _ | token
  · rfl
  · dsimp only [rawRound]
    split
    · rfl
    · split
      · rfl
      · rw [bind_some (consume_of_peek h rfl)]
        show _ = andThen (rawUpTo close limit) _ c.advance
        unfold andThen
        rcases rawUpTo close limit c.advance with ⟨_ | raw, d⟩ <;> rfl

theorem rawUpTo_moves (close : Kind) (limit : Nat) : Moves (rawUpTo close limit) := by
  induction limit with
  | zero => exact Moves.fail
  | succ limit ih =>
    rw [funext (rawUpTo_succ close limit)]
    refine Moves.peek fun token => ?_
    rcases token with _ | token
    · exact Moves.fail
    · refine Moves.ite (Moves.pure _) (Moves.ite Moves.fail ?_)
      exact (consume_moves _).bind fun _ => ih.bind fun _ => Moves.pure _

theorem rawUntil_moves (close : Kind) : Moves (rawUntil close) :=
  ⟨fun c => (rawUpTo_moves close c.remaining).run c,
    fun tokens p => (rawUpTo_moves close _).forward tokens p,
    fun tokens p => (rawUpTo_moves close _).within tokens p⟩

end Attempt
end InlineMarkdown
