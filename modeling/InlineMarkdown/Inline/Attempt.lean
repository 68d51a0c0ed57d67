import InlineMarkdown.Inline.Cursor

/-! Attempts: steps over a cursor that may fail.

A failed attempt yields nothing but still hands on the cursor, with all that it
has learnt. `speculate` takes the position back after a failure, and `bracketed`
adds the rules for constructs at brackets: a start that has failed before fails at
once, and where nesting has no room left, all tries in progress are given up. -/
namespace InlineMarkdown

/-- A step that yields a result or fails, and the cursor behind it. -/
def Attempt (α : Type) : Type := Cursor → Option α × Cursor

namespace Attempt

/-- Does nothing and yields `a`. -/
def succeed {α : Type} (a : α) : Attempt α := fun c => (some a, c)

/-- Fails where it stands. -/
def fail {α : Type} : Attempt α := fun c => (none, c)

/-- One attempt and, if it succeeds, the next. -/
def andThen {α β : Type} (first : Attempt α) (next : α → Attempt β) : Attempt β := fun c =>
  match first c with
  | (some a, c) => next a c
  | (none, c) => (none, c)

instance : Monad Attempt where
  pure := succeed
  bind := andThen

/-- What the cursor shows, without moving it. -/
def look {α : Type} (f : Cursor → α) : Attempt α := fun c => (some (f c), c)

/-- Yields the value, or fails if there is none. -/
def ofOption {α : Type} (value : Option α) : Attempt α := fun c => (value, c)

/-- A step that cannot fail. -/
def ofStep {α : Type} (step : Cursor → α × Cursor) : Attempt α := fun c =>
  let (a, c) := step c
  (some a, c)

/-- Passes a token of this kind. -/
def expect (kind : Kind) : Attempt Unit := fun c =>
  if c.isAt kind then (some (), c.advance) else (none, c)

/-- The text of the tokens before the next one of kind `close`, at most `limit` of
them. Fails at the end of a line or of the input. -/
def rawUpTo (close : Kind) : (limit : Nat) → Attempt (List Char)
  | 0, c => (none, c)
  | limit + 1, c =>
    match c.peek with
    | none => (none, c)
    | some token =>
      if token.kind = close then (some [], c)
      else if token.isEof || token.kind == .newline then (none, c)
      else match rawUpTo close limit c.advance with
        | (some raw, c) => (some (token.text ++ raw), c)
        | (none, c) => (none, c)

/-- The text of the tokens before the next one of kind `close` on this line. -/
def rawUntil (close : Kind) : Attempt (List Char) := fun c => rawUpTo close c.remaining c

/-- An attempt that, when it fails, goes back to where it started. -/
def speculate {α : Type} (construct : Construct) (attempt : Attempt α) : Attempt α := fun c =>
  match attempt c with
  | (some a, after) => (some a, after)
  | (none, after) => (none, (after.report (.noMatch construct c.position)).reset c.position)

/-- The first attempt or, if it fails, the second. -/
def orElse {α : Type} (first second : Attempt α) : Attempt α := fun c =>
  match first c with
  | (some a, c) => (some a, c)
  | (none, c) => second c

/-- A try at a construct that starts here and may hold others. `inner` is what it
needs to parse them, or none if there is no room for another level. Known failures
are looked up only if `remember` is set. -/
def bracketed {ι α : Type} (remember : Bool) (inner : Option ι) (construct : Construct)
    (attempt : ι → Attempt α) : Attempt α := fun c =>
  let start := c.position
  if remember && c.knownFailure start then (none, c)
  else match inner with
    | none => (none, (c.report (.tooDeep construct start)).abandon)
    | some inner =>
      let (result, after) := speculate construct (attempt inner) c.descend
      let (abandoned, after) := after.ascend
      match result with
      | some a => if abandoned then (none, after.reset start) else (some a, after)
      | none => (none, if abandoned then after else after.recordFailure start)

end Attempt
end InlineMarkdown
