import InlineMarkdown.Proofs.Tiling
import InlineMarkdown.Proofs.Scan
import InlineMarkdown.Proofs.Frame

/-! Tokens over a source text.

`Laid` is what the parser needs to know of its tokens: that the span of every token is a
slice between two marks, and what that slice reads if the token is a bracket or a
delimiter. It holds of the tokens of a source from any of them on (`laid_tokenize`). -/
namespace InlineMarkdown

/-! ### Marks -/

/-- The position behind the first `n` lexemes of the source. -/
def markAt (source : List Char) (n : Nat) : Position :=
  Position.advance {} (((lexemes source).take n).flatMap (·.raw))

theorem markAt_zero (source : List Char) : markAt source 0 = {} := rfl

theorem markAt_of_le {source : List Char} {n : Nat} (h : (lexemes source).length ≤ n) :
    markAt source n = Position.advance {} source := by
  unfold markAt
  rw [List.take_of_length_le h, lexemes_raw]

/-- Between two marks stands what the lexemes between them read. -/
theorem slice_markAt (source : List Char) {m n : Nat} (h : m ≤ n) :
    Slice source (markAt source m) (markAt source n)
      ((((lexemes source).take n).drop m).flatMap (·.raw)) := by
  have hcut : (lexemes source).take n =
      (lexemes source).take m ++ ((lexemes source).take n).drop m := by
    have := List.take_append_drop m ((lexemes source).take n)
    rw [List.take_take, Nat.min_eq_left h] at this
    exact this.symm
  refine ⟨((lexemes source).take m).flatMap (·.raw), ((lexemes source).drop n).flatMap (·.raw),
    ?_, rfl, ?_⟩
  · calc source = (lexemes source).flatMap (·.raw) := (lexemes_raw source).symm
      _ = ((lexemes source).take n ++ (lexemes source).drop n).flatMap (·.raw) := by
        rw [List.take_append_drop]
      _ = _ := by
        conv => lhs; rw [hcut]
        simp
  · show Position.advance {} _ = Position.advance (Position.advance {} _) _
    rw [← Position.advance_append, ← List.flatMap_append, ← hcut]

/-! ### Placed lexemes -/

theorem place_getElem? {start : Position} {pieces : List Lexeme} {n : Nat} {token : Token Kind}
    (h : (place start pieces)[n]? = some token) :
    token.span = ⟨start.advance ((pieces.take n).flatMap (·.raw)),
        start.advance ((pieces.take (n + 1)).flatMap (·.raw))⟩ ∧
      (pieces.length = n ∧ token.kind = .eof ∨
        ∃ lexeme, pieces[n]? = some lexeme ∧ token.kind = lexeme.kind) := by
  induction pieces generalizing start n with
  | nil =>
    cases n with
    | zero =>
      obtain rfl := Option.some.inj h
      exact ⟨rfl, .inl ⟨rfl, rfl⟩⟩
    | succ n => exact nomatch h
  | cons lexeme rest ih =>
    cases n with
    | zero =>
      obtain rfl := Option.some.inj h
      exact ⟨by simp, .inr ⟨lexeme, rfl, rfl⟩⟩
    | succ n =>
      obtain ⟨hspan, hkind⟩ := ih h
      exact ⟨by simp [hspan, Position.advance_append], hkind.imp_left fun h => ⟨by simp [h.1], h.2⟩⟩

theorem length_place (start : Position) (pieces : List Lexeme) :
    (place start pieces).length = pieces.length + 1 := by
  induction pieces generalizing start with
  | nil => rfl
  | cons lexeme rest ih => simp [place, ih]

theorem length_tokenize (source : List Char) :
    (tokenize source).length = (lexemes source).length + 1 :=
  length_place {} (lexemes source)

/-! ### Laid tokens -/

/-- Only the last token ends the input. -/
theorem eq_of_kind_eq_eof {source : List Char} {n : Nat} {token : Token Kind}
    (h : (tokenize source)[n]? = some token) (heof : token.kind = .eof) :
    n = (lexemes source).length := by
  obtain ⟨-, ⟨hlength, -⟩ | ⟨lexeme, hlexeme, hkind⟩⟩ := place_getElem? h
  · exact hlength.symm
  · exact absurd (hkind.symm.trans heof) (kind_ne_eof (List.mem_of_getElem? hlexeme))

/-- Tokens over a source, with a mark in front of each and one behind them. -/
structure Laid (source : List Char) (tokens : Array (Token Kind)) (mark : Nat → Position) :
    Prop where
  mem {p : Nat} {token : Token Kind} : tokens[p]? = some token → token ∈ tokenize source
  span {p : Nat} {token : Token Kind} : tokens[p]? = some token →
    token.span = ⟨mark p, mark (p + 1)⟩
  slice {p q : Nat} : p ≤ q → ∃ text, Slice source (mark p) (mark q) text
  char {p : Nat} {kind : Kind} {c : Char} : KindAt tokens p kind → Kind.ofChar? c = some kind →
    Slice source (mark p) (mark (p + 1)) [c]

/-- The span of a token is a slice. -/
theorem Laid.covers {source : List Char} {tokens : Array (Token Kind)} {mark : Nat → Position}
    (h : Laid source tokens mark) {p : Nat} {token : Token Kind} (htoken : tokens[p]? = some token) :
    ∃ text, Slice source token.span.start token.span.stop text := by
  rw [h.span htoken]
  exact h.slice (Nat.le_succ p)

theorem tokenize_getElem? {source : List Char} {n : Nat} {token : Token Kind}
    (h : (tokenize source)[n]? = some token) :
    token.span = ⟨markAt source n, markAt source (n + 1)⟩ ∧
      ∀ c, Kind.ofChar? c = some token.kind →
        Slice source (markAt source n) (markAt source (n + 1)) [c] := by
  obtain ⟨hspan, hkind⟩ := place_getElem? h
  refine ⟨hspan, fun c hc => ?_⟩
  rcases hkind with ⟨-, heof⟩ | ⟨lexeme, hlexeme, hkind⟩
  · exact absurd (heof ▸ hc) (ofChar?_ne_eof c)
  · have hslice := slice_markAt source (Nat.le_succ n)
    have hpiece : ((lexemes source).take (n + 1)).drop n = [lexeme] := by
      have hlt : n < (lexemes source).length := (List.getElem?_eq_some_iff.1 hlexeme).1
      rw [List.take_add_one, hlexeme]
      exact List.drop_left' (List.length_take_of_le (Nat.le_of_lt hlt))
    rw [hkind] at hc
    rw [hpiece] at hslice
    simpa [raw_of_ofChar? (List.mem_of_getElem? hlexeme) hc] using hslice

/-- The tokens of a source are laid, from any of them on. -/
theorem laid_tokenize (source : List Char) (n : Nat) :
    Laid source ((tokenize source).drop n).toArray fun p => markAt source (n + p) := by
  have hget {p : Nat} {token : Token Kind}
      (h : ((tokenize source).drop n).toArray[p]? = some token) :
      (tokenize source)[n + p]? = some token := by
    simpa using h
  refine ⟨fun h => List.mem_of_getElem? (hget h), fun h => (tokenize_getElem? (hget h)).1,
    fun h => ⟨_, slice_markAt source (Nat.add_le_add_left h n)⟩, ?_⟩
  rintro p kind c ⟨token, htoken, rfl⟩ hc
  exact (tokenize_getElem? (hget htoken)).2 c hc

end InlineMarkdown
