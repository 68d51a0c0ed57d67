/-! Places in a source text.

A position counts line feeds, the characters since the last one, and the UTF-8
bytes since the start. `Position.advance` walks a position over a text one
character at a time, so walking over a concatenation is walking over its parts
(`advance_append`): every span of the program is made of such walks from the
start of the input. -/
namespace InlineMarkdown

/-- The UTF-8 bytes that a text takes. -/
def byteLength (text : List Char) : Nat :=
  text.foldr (·.utf8Size + ·) 0

@[simp] theorem byteLength_nil : byteLength [] = 0 := rfl

@[simp] theorem byteLength_cons (c : Char) (text : List Char) :
    byteLength (c :: text) = c.utf8Size + byteLength text := rfl

@[simp] theorem byteLength_append (a b : List Char) :
    byteLength (a ++ b) = byteLength a + byteLength b := by
  induction a with
  | nil => simp
  | cons c a ih => simp [ih, Nat.add_assoc]

theorem byteLength_le_of_sublist {part text : List Char} (h : part.Sublist text) :
    byteLength part ≤ byteLength text := by
  induction h with
  | slnil => exact Nat.le_refl 0
  | cons c _ ih => exact Nat.le_trans ih (Nat.le_add_left ..)
  | cons_cons c _ ih => exact Nat.add_le_add_left ih _

theorem length_le_byteLength (text : List Char) : text.length ≤ byteLength text := by
  induction text with
  | nil => exact Nat.le_refl 0
  | cons c text ih =>
    have hpos := c.utf8Size_pos
    rw [byteLength_cons, List.length_cons]
    omega

/-! ### Positions -/

/-- A place in the source. All three counts start from zero. -/
structure Position where
  line : Nat := 0
  /-- Characters since the last line feed. -/
  column : Nat := 0
  /-- Bytes since the start of the source. -/
  offset : Nat := 0
deriving DecidableEq, Repr, Inhabited

namespace Position

/-- One character further. -/
def next (p : Position) (c : Char) : Position :=
  if c = '\n' then ⟨p.line + 1, 0, p.offset + c.utf8Size⟩
  else ⟨p.line, p.column + 1, p.offset + c.utf8Size⟩

/-- The position behind `text` when `text` starts at `p`. -/
def advance (p : Position) (text : List Char) : Position :=
  text.foldl next p

@[simp] theorem advance_nil (p : Position) : p.advance [] = p := rfl

@[simp] theorem advance_cons (p : Position) (c : Char) (text : List Char) :
    p.advance (c :: text) = (p.next c).advance text := rfl

theorem advance_append (p : Position) (a b : List Char) :
    p.advance (a ++ b) = (p.advance a).advance b := by
  simp [advance]

@[simp] theorem next_offset (p : Position) (c : Char) :
    (p.next c).offset = p.offset + c.utf8Size := by
  unfold next
  split <;> rfl

@[simp] theorem advance_offset (p : Position) (text : List Char) :
    (p.advance text).offset = p.offset + byteLength text := by
  induction text generalizing p with
  | nil => rfl
  | cons c text ih => simp [ih, Nat.add_assoc]

/-- The place as editors report it, with lines and columns counted from one. -/
def display (p : Position) : String :=
  toString (p.line + 1) ++ ":" ++ toString (p.column + 1)

end Position

/-! ### Spans -/

/-- A range of the source: from `start` up to, not including, `stop`. -/
structure Span where
  start : Position := {}
  stop : Position := {}
deriving DecidableEq, Repr, Inhabited

namespace Span

/-- The empty range at one place. -/
def point (p : Position) : Span := ⟨p, p⟩

/-- Bytes covered; a range that ends before it starts covers none. -/
def byteLength (s : Span) : Nat := s.stop.offset - s.start.offset

def isEmpty (s : Span) : Bool := s.byteLength == 0

@[simp] theorem byteLength_point (p : Position) : (point p).byteLength = 0 := by
  simp [point, byteLength]

/-- The range that `text` covers when it starts at `p`. -/
def covering (p : Position) (text : List Char) : Span := ⟨p, p.advance text⟩

@[simp] theorem byteLength_covering (p : Position) (text : List Char) :
    (covering p text).byteLength = InlineMarkdown.byteLength text := by
  simp [covering, byteLength]

end Span
end InlineMarkdown
