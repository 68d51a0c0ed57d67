import InlineMarkdown.Proofs.Legible
import InlineMarkdown.Proofs.Step

/-! A cursor in front of written text.

`Cursor.Faces` says which text the tokens from the current one on are read from. A piece that
is read as one lexeme is the current token, and behind it the cursor faces what is left
(`peek`, `advance`); so a run of markers, a single character and a raw slice each come to a
statement about the text in front of the cursor. -/
namespace InlineMarkdown
open Attempt

/-- The tokens from the current one on are those of the text behind `before`, and nothing that
was tried so far has failed. -/
structure Cursor.Faces (c : Cursor) (start : Position) (before : Option Char) (text : List Char) :
    Prop where
  tokens : c.tokens.toList.drop c.position = place start (lexemesBehind before text)
  failed (p : Nat) : c.failed.contains p = false
  abandoned : c.abandoned = false

namespace Cursor.Faces
variable {c : Cursor} {start : Position} {before : Option Char} {kind : Kind} {text raw tail : List Char}

/-! ### One lexeme -/

theorem of_drop {token : Token Kind} {rest : List (Token Kind)}
    (h : c.tokens.toList.drop c.position = token :: rest) :
    c.peek = some token ∧ c.advance.tokens.toList.drop c.advance.position = rest := by
  constructor
  · have hfirst := congrArg (·[0]?) h
    simpa [Cursor.peek] using hfirst
  · show c.tokens.toList.drop (c.position + 1) = rest
    rw [← List.tail_drop, h]
    rfl

theorem peek (h : c.Faces start before (raw ++ tail)) (hread : ReadAs before kind raw tail) :
    c.peek = some ⟨kind, Lexeme.text ⟨kind, raw⟩, ⟨start, start.advance raw⟩⟩ := by
  have htokens := h.tokens
  rw [hread.lexemes] at htokens
  exact (of_drop htokens).1

theorem advance (h : c.Faces start before (raw ++ tail)) (hread : ReadAs before kind raw tail) :
    c.advance.Faces (start.advance raw) raw.getLast? tail := by
  have htokens := h.tokens
  rw [hread.lexemes] at htokens
  exact ⟨(of_drop htokens).2, h.failed, h.abandoned⟩

theorem descend (h : c.Faces start before text) : c.descend.Faces start before text :=
  ⟨h.tokens, h.failed, h.abandoned⟩

theorem peek_nil (h : c.Faces start before []) : c.peek = some ⟨.eof, [], Span.point start⟩ :=
  (of_drop h.tokens).1

theorem lt_size (h : c.Faces start before text) : c.position < c.tokens.size := by
  have hlength := congrArg List.length h.tokens
  have hplace : ∀ lexemes, 0 < (place start lexemes).length := by
    intro lexemes
    cases lexemes <;> exact Nat.zero_lt_succ _
  have := hplace (lexemesBehind before text)
  rw [← hlength, List.length_drop, Array.length_toList] at this
  omega

theorem remaining_eq (h : c.Faces start before text) : c.remaining = c.advance.remaining + 1 := by
  have := h.lt_size
  simp only [Cursor.remaining, Cursor.advance]
  omega

/-- The current token is not the character that the text does not start with. -/
theorem peek_ne (h : c.Faces start before text) {ch : Char} (hch : Kind.ofChar? ch = some kind)
    (hne : text.head? ≠ some ch) : ∃ token, c.peek = some token ∧ token.kind ≠ kind := by
  cases text with
  | nil =>
    refine ⟨_, h.peek_nil, ?_⟩
    rintro rfl
    exact ofChar?_ne_eof ch hch
  | cons d rest =>
    obtain ⟨raw, tail, htext, hread, -, -⟩ := exists_readAs before d rest
    rw [htext] at h
    refine ⟨_, h.peek hread, ?_⟩
    rintro rfl
    obtain ⟨hd, -⟩ := (scan_spec before d rest).2 (isFixed_of_ofChar? hch)
    exact hne (congrArg some (ofChar?_inj hd hch))

/-! ### Runs of markers -/

/-- Behind the markers of a run the cursor faces what is left. -/
theorem pass_run {marker : Marker} (n : Nat) :
    ∀ {c : Cursor} {start : Position} {before : Option Char},
      c.Faces start before (marker.run n ++ tail) →
        Faces { c with position := c.position + n } (start.advance (marker.run n))
          (if n = 0 then before else some marker.char) tail := by
  induction n with
  | zero => exact fun h => h
  | succ n ih =>
    intro c start before h
    have hfirst : ReadAs before marker.kind [marker.char] (marker.run n ++ tail) :=
      readAs_single _ (by cases marker <;> rfl)
    have h' : c.Faces start before ([marker.char] ++ (marker.run n ++ tail)) := h
    have hfaces := ih (h'.advance hfirst)
    have hposition : c.advance.position + n = c.position + (n + 1) := by
      simp only [Cursor.advance]
      omega
    have hlast : (if n = 0 then [marker.char].getLast? else some marker.char) =
        if n + 1 = 0 then before else some marker.char := by
      split <;> rfl
    rw [hposition, hlast] at hfaces
    exact hfaces

/-- The run that the cursor stands at is as long as it is written. -/
theorem run_eq {marker : Marker} (n : Nat) :
    ∀ {c : Cursor} {start : Position} {before : Option Char},
      c.Faces start before (marker.run n ++ tail) → tail.head? ≠ some marker.char →
        (runFrom c.tokens marker.kind c.remaining c.position).length = n ∧
          ∀ first ∈ (runFrom c.tokens marker.kind c.remaining c.position).head?,
            first.span.start = start := by
  have hch : Kind.ofChar? marker.char = some marker.kind := by cases marker <;> rfl
  induction n with
  | zero =>
    intro c start before h htail
    obtain ⟨token, htoken, hkind⟩ := h.peek_ne hch htail
    have hrun : runFrom c.tokens marker.kind c.remaining c.position = [] := by
      rw [h.remaining_eq]
      have htoken : c.tokens[c.position]? = some token := htoken
      simp [runFrom, htoken, hkind]
    rw [hrun]
    exact ⟨rfl, fun first hfirst => by cases hfirst⟩
  | succ n ih =>
    intro c start before h htail
    have hfirst : ReadAs before marker.kind [marker.char] (marker.run n ++ tail) :=
      readAs_single _ hch
    have h' : c.Faces start before ([marker.char] ++ (marker.run n ++ tail)) := h
    obtain ⟨hlength, -⟩ := ih (h'.advance hfirst) htail
    have hrun := @runFrom_of_kindAt _ _ c.advance.remaining _ _ (h'.peek hfirst) rfl
    rw [← h.remaining_eq] at hrun
    rw [hrun]
    refine ⟨by rw [List.length_cons]; exact congrArg (· + 1) hlength, fun first hfirst => ?_⟩
    obtain rfl := Option.some.inj hfirst
    rfl

/-! ### Single characters and raw slices -/

theorem isAt {ch : Char} (h : c.Faces start before (ch :: tail)) (hch : Kind.ofChar? ch = some kind) :
    c.isAt kind = true := by
  have hread : ReadAs before kind [ch] tail := readAs_single _ hch
  have h' : c.Faces start before ([ch] ++ tail) := h
  simp [Cursor.isAt, Cursor.peekKind, h'.peek hread]

theorem isAt_ne {ch : Char} (h : c.Faces start before text) (hch : Kind.ofChar? ch = some kind)
    (hne : text.head? ≠ some ch) : c.isAt kind = false := by
  obtain ⟨token, htoken, hkind⟩ := h.peek_ne hch hne
  simp [Cursor.isAt, Cursor.peekKind, htoken, hkind]

theorem expect {ch : Char} (h : c.Faces start before (ch :: tail))
    (hch : Kind.ofChar? ch = some kind) :
    Attempt.expect kind c = (some (), c.advance) ∧
      c.advance.Faces (start.advance [ch]) (some ch) tail := by
  have hread : ReadAs before kind [ch] tail := readAs_single _ hch
  have h' : c.Faces start before ([ch] ++ tail) := h
  refine ⟨?_, h'.advance hread⟩
  rw [expect_eq_consume]
  exact consume_of_peek (h'.peek hread) (by simp)

theorem expect_ne {ch : Char} (h : c.Faces start before text) (hch : Kind.ofChar? ch = some kind)
    (hne : text.head? ≠ some ch) : Attempt.expect kind c = (none, c) := by
  simp [Attempt.expect, h.isAt_ne hch hne]

/-- A raw slice is read up to what closes it. -/
theorem rawUntil (closing : Char) (hclosing : Kind.ofChar? closing = some kind) (limit : Nat) :
    ∀ {c : Cursor} {start : Position} {before : Option Char} {raw : List Char},
      isRawUpTo kind (closing :: tail) limit before raw = true →
      c.Faces start before (raw ++ closing :: tail) →
        ∃ c' start' before', Attempt.rawUntil kind c = (some raw, c') ∧
          c'.Faces start' before' (closing :: tail) := by
  have hstop {c : Cursor} {start : Position} {before : Option Char}
      (h : c.Faces start before (closing :: tail)) : Attempt.rawUntil kind c = (some [], c) := by
    have hread : ReadAs before kind [closing] tail := readAs_single _ hclosing
    have h' : c.Faces start before ([closing] ++ tail) := h
    unfold Attempt.rawUntil
    rw [h.remaining_eq, rawUpTo, h'.peek hread]
    simp
  induction limit with
  | zero =>
    intro c start before raw hraw h
    cases raw with
    | nil => exact ⟨c, start, before, hstop h, h⟩
    | cons ch rest => exact nomatch hraw
  | succ limit ih =>
    intro c start before raw hraw h
    cases raw with
    | nil => exact ⟨c, start, before, hstop h, h⟩
    | cons ch rest =>
      simp only [isRawUpTo, Bool.and_eq_true, decide_eq_true_eq, bne_iff_ne, beq_iff_eq] at hraw
      obtain ⟨⟨⟨⟨hlength, hclose⟩, hnewline⟩, hspelt⟩, hrest⟩ := hraw
      obtain ⟨part, behind, htext, hread, hpart, hbehind⟩ :=
        exists_readAs before ch (rest ++ closing :: tail)
      rw [← List.cons_append, List.take_append_of_le_length hlength] at hpart
      rw [← List.cons_append, List.drop_append_of_le_length hlength] at hbehind
      rw [List.cons_append, htext] at h
      have hadvance := h.advance hread
      rw [← hpart] at hspelt hrest
      rw [hbehind] at hadvance
      obtain ⟨c', start', before', hraw, hfaces⟩ := ih hrest hadvance
      refine ⟨c', start', before', ?_, hfaces⟩
      have heof := scan_ne_eof before ch (rest ++ closing :: tail)
      unfold Attempt.rawUntil at hraw ⊢
      rw [h.remaining_eq, rawUpTo, h.peek hread]
      dsimp only
      rw [if_neg hclose, if_neg (by simpa [Token.isEof, TokenKind.isEof] using ⟨heof, hnewline⟩), hraw]
      dsimp only
      rw [hspelt, hpart, List.take_append_drop]

end Cursor.Faces
end InlineMarkdown
