import InlineMarkdown.Proofs.Lossless
import InlineMarkdown.Proofs.Pieces
import InlineMarkdown.Proofs.Scan
import Mathlib.Data.List.Basic
import Mathlib.Data.List.Induction

/-! Where the tokenizer cuts a source.

The source is cut behind `before` when lexemes read `before` and what is left is still to be read
(`IsCut`). What is read next depends on what is left and on the last character of `before` alone,
and ends at the next cut (`IsCut.next`). So a lexeme of a source is known by the cuts at its ends
(`Between`): every token has one, and every character lies in one. -/
namespace InlineMarkdown

variable {source before rest tail : List Char} {lexeme : Lexeme}

/-! ### Cuts -/

/-- Lexemes read `before`, and those of `rest` come behind them. -/
def IsCut (source before rest : List Char) : Prop :=
  ∃ front, lexemes source = front ++ lexemesBehind before.getLast? rest ∧
    front.flatMap (·.raw) = before

/-- The range of a text behind `before`. -/
def placeBehind (before text : List Char) : Span := Span.covering (Position.advance {} before) text

/-- The token of a lexeme behind `before`. -/
def Lexeme.tokenBehind (lexeme : Lexeme) (before : List Char) : Token Kind :=
  ⟨lexeme.kind, lexeme.text, placeBehind before lexeme.raw⟩

theorem Lexeme.start_tokenBehind (lexeme : Lexeme) (before : List Char) :
    (lexeme.tokenBehind before).span.start.offset = byteLength before := by
  rw [tokenBehind, placeBehind, Span.covering, Position.advance_offset, Nat.zero_add]

theorem Lexeme.stop_tokenBehind (lexeme : Lexeme) (before : List Char) :
    (lexeme.tokenBehind before).span.stop.offset = byteLength (before ++ lexeme.raw) := by
  rw [tokenBehind, placeBehind, Span.covering, ← Position.advance_append, Position.advance_offset,
    Nat.zero_add]

/-- The tokenizer reads the lexeme between two cuts. -/
structure Between (source before : List Char) (lexeme : Lexeme) (tail : List Char) : Prop where
  starts : IsCut source before (lexeme.raw ++ tail)
  readAs : ReadAs before.getLast? lexeme.kind lexeme.raw tail
  ends : IsCut source (before ++ lexeme.raw) tail

theorem IsCut.start (source : List Char) : IsCut source [] source := ⟨[], rfl, rfl⟩

theorem IsCut.source_eq (h : IsCut source before rest) : source = before ++ rest := by
  obtain ⟨front, hlexemes, rfl⟩ := h
  have hrest : (lexemesBehind (front.flatMap (·.raw)).getLast? rest).flatMap (·.raw) = rest :=
    lexemesFrom_raw (Nat.le_refl _)
  rw [← lexemes_raw source, hlexemes, List.flatMap_append, hrest]

theorem ReadAs.ne_nil {last : Option Char} {kind : Kind} {raw : List Char}
    (h : ReadAs last kind raw tail) : raw ≠ [] := by
  obtain ⟨c, rest, rfl, -⟩ := h
  exact List.cons_ne_nil c rest

/-- Every text but the empty one starts with a lexeme. -/
theorem lexemesBehind_eq_cons {last : Option Char} {behind : List Lexeme}
    (h : lexemesBehind last rest = lexeme :: behind) :
    ∃ tail, rest = lexeme.raw ++ tail ∧ ReadAs last lexeme.kind lexeme.raw tail ∧
      behind = lexemesBehind lexeme.raw.getLast? tail := by
  cases rest with
  | nil => cases h
  | cons c rest =>
    obtain ⟨raw, tail, hsplit, hread, -, -⟩ := exists_readAs last c rest
    rw [hsplit, hread.lexemes] at h
    obtain ⟨rfl, rfl⟩ := List.cons.inj h
    exact ⟨tail, hsplit, hread, rfl⟩

/-- What is read at a cut ends at the next. -/
theorem IsCut.between {kind : Kind} {raw : List Char} (h : IsCut source before (raw ++ tail))
    (hread : ReadAs before.getLast? kind raw tail) : Between source before ⟨kind, raw⟩ tail := by
  refine ⟨h, hread, ?_⟩
  obtain ⟨front, hlexemes, hfront⟩ := h
  refine ⟨front ++ [⟨kind, raw⟩], ?_, by simp [hfront]⟩
  rw [hlexemes, hread.lexemes, List.getLast?_append_of_ne_nil before hread.ne_nil,
    List.append_assoc]
  rfl

/-- At a cut a lexeme is scanned, if anything is left. -/
theorem IsCut.next {c : Char} (h : IsCut source before (c :: rest)) :
    ∃ raw tail, c :: rest = raw ++ tail ∧
      Between source before ⟨(scan before.getLast? c rest).1, raw⟩ tail := by
  obtain ⟨raw, tail, hsplit, hread, -, -⟩ := exists_readAs before.getLast? c rest
  rw [hsplit] at h
  exact ⟨raw, tail, hsplit, h.between hread⟩

/-! ### Lexemes between cuts -/

/-- Behind any of its lexemes the source is cut. -/
theorem exists_isCut {front others : List Lexeme} (h : lexemes source = front ++ others) :
    ∃ rest, IsCut source (front.flatMap (·.raw)) rest ∧
      others = lexemesBehind (front.flatMap (·.raw)).getLast? rest := by
  induction front using List.reverseRecOn generalizing others with
  | nil => exact ⟨source, .start source, h.symm⟩
  | append_singleton front last ih =>
    obtain ⟨rest, hcut, hlast⟩ := ih (h.trans (List.append_assoc ..))
    obtain ⟨tail, rfl, hread, rfl⟩ := lexemesBehind_eq_cons hlast.symm
    rw [List.flatMap_append, List.flatMap_singleton]
    refine ⟨tail, (hcut.between hread).ends, ?_⟩
    rw [List.getLast?_append_of_ne_nil _ hread.ne_nil]

/-- Every lexeme of the source is read between two cuts. -/
theorem exists_between {front behind : List Lexeme}
    (h : lexemes source = front ++ lexeme :: behind) :
    ∃ tail, Between source (front.flatMap (·.raw)) lexeme tail := by
  obtain ⟨rest, hcut, hlexeme⟩ := exists_isCut h
  obtain ⟨tail, rfl, hread, -⟩ := lexemesBehind_eq_cons hlexeme.symm
  exact ⟨tail, hcut.between hread⟩

theorem tokenBehind_mem_place (start : Position) (front behind : List Lexeme) (lexeme : Lexeme) :
    ⟨lexeme.kind, lexeme.text,
      Span.covering (start.advance (front.flatMap (·.raw))) lexeme.raw⟩ ∈
        place start (front ++ lexeme :: behind) := by
  induction front generalizing start with
  | nil => exact List.mem_cons_self
  | cons first front ih =>
    refine List.mem_cons_of_mem _ ?_
    rw [List.flatMap_cons, Position.advance_append]
    exact ih _

namespace Between

/-- The lexeme has a token. -/
theorem mem_tokenize (h : Between source before lexeme tail) :
    lexeme.tokenBehind before ∈ tokenize source := by
  obtain ⟨front, hlexemes, rfl⟩ := h.starts
  rw [h.readAs.lexemes] at hlexemes
  unfold tokenize
  rw [hlexemes]
  exact tokenBehind_mem_place {} front _ lexeme

theorem source_eq (h : Between source before lexeme tail) :
    source = before ++ (lexeme.raw ++ tail) :=
  h.starts.source_eq

/-- How the lexeme came about. -/
theorem scanned (h : Between source before lexeme tail) :
    ∃ c rest length, lexeme.raw ++ tail = c :: rest ∧ (c :: rest).take length = lexeme.raw ∧
      (c :: rest).drop length = tail ∧ Scanned before.getLast? c rest lexeme.kind length := by
  obtain ⟨c, rest, hraw, hscan⟩ := h.readAs
  have hscanned := InlineMarkdown.scanned before.getLast? c (rest ++ tail)
  have htext : lexeme.raw ++ tail = c :: (rest ++ tail) := by rw [hraw, List.cons_append]
  rw [hscan] at hscanned
  exact ⟨c, rest ++ tail, lexeme.raw.length, htext, by rw [← htext, List.take_left],
    by rw [← htext, List.drop_left], hscanned⟩

end Between

/-- Every token but the last is that of a lexeme between two cuts. -/
theorem exists_between_of_mem {token : Token Kind} (h : token ∈ tokenize source)
    (heof : token.isEof = false) :
    ∃ before lexeme tail, Between source before lexeme tail ∧ token = lexeme.tokenBehind before := by
  obtain ⟨body, hplace, hbody⟩ := place_eq {} (lexemes source)
  unfold tokenize at h
  rw [hplace] at h
  rcases List.mem_append.1 h with h | h
  · obtain ⟨front, lexeme, behind, hsplit, rfl⟩ := hbody token h
    obtain ⟨tail, hbetween⟩ := exists_between hsplit
    exact ⟨_, lexeme, tail, hbetween, rfl⟩
  · obtain rfl := List.mem_singleton.1 h
    cases heof

/-- Every character that slices read lies in one of them. -/
theorem exists_slice_at {c : Char} {after : List Char} {pieces : List Lexeme}
    (h : pieces.flatMap (·.raw) = before ++ c :: after) :
    ∃ front lexeme behind left right, pieces = front ++ lexeme :: behind ∧
      before = front.flatMap (·.raw) ++ left ∧ lexeme.raw = left ++ c :: right := by
  induction pieces generalizing before with
  | nil => simp at h
  | cons first pieces ih =>
    have hlater (left : List Char) (hbefore : before = first.raw ++ left)
        (h : pieces.flatMap (·.raw) = left ++ c :: after) :
        ∃ front lexeme behind left right, first :: pieces = front ++ lexeme :: behind ∧
          before = front.flatMap (·.raw) ++ left ∧ lexeme.raw = left ++ c :: right := by
      obtain ⟨front, lexeme, behind, left, right, rfl, rfl, hraw⟩ := ih h
      exact ⟨first :: front, lexeme, behind, left, right, rfl, by simp [hbefore], hraw⟩
    rw [List.flatMap_cons, List.append_eq_append_iff] at h
    rcases h with ⟨left, hbefore, h⟩ | ⟨_ | ⟨d, right⟩, hraw, h⟩
    · exact hlater left hbefore h
    · exact hlater [] (by simpa using hraw.symm) h.symm
    · obtain ⟨rfl, -⟩ := List.cons.inj h
      exact ⟨[], first, pieces, before, right, rfl, rfl, hraw⟩

/-- Every character lies in a lexeme between two cuts. -/
theorem exists_between_at {c : Char} {after : List Char} (h : source = before ++ c :: after) :
    ∃ front lexeme tail left right, Between source front lexeme tail ∧ before = front ++ left ∧
      lexeme.raw = left ++ c :: right ∧ after = right ++ tail := by
  obtain ⟨front, lexeme, behind, left, right, hlexemes, hbefore, hraw⟩ :=
    exists_slice_at ((lexemes_raw source).trans h)
  obtain ⟨tail, hbetween⟩ := exists_between hlexemes
  refine ⟨_, lexeme, tail, left, right, hbetween, hbefore, hraw, ?_⟩
  have hsource := h.symm.trans hbetween.source_eq
  rw [hbefore, hraw] at hsource
  simpa using hsource

end InlineMarkdown
