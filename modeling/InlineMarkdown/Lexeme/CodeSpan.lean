import InlineMarkdown.Text.Basic
import InlineMarkdown.Text.Whitespace

/-! Fences: the runs that open and close code spans and formulas.

A code span opens with a run of backticks and closes with the next run of the
same length on the same line. Its content is what stands between the runs, less
one space on each side if there is a space on both sides and not only white
space between them. -/
namespace InlineMarkdown

/-- The character that fences a code span. -/
abbrev backtick : Char := '\x60'

/-- The number of copies of `c` that the text starts with. -/
def runLength (c : Char) (text : List Char) : Nat :=
  (text.takeWhile (· == c)).length

/-- Looks for a run of exactly `fence` backticks before the end of the line. `run`
backticks have been read just before; the answer counts the characters up to the
end of the run. -/
def fenceEnd? (fence run : Nat) : List Char → Option Nat
  | [] => if run = fence then some 0 else none
  | c :: rest =>
    if c = backtick then (fenceEnd? fence (run + 1) rest).map (· + 1)
    else if run = fence then some 0
    else if c = '\n' then none
    else (fenceEnd? fence 0 rest).map (· + 1)

/-- The length of the code span that the text starts with. -/
def codeSpan? (text : List Char) : Option Nat :=
  let fence := runLength backtick text
  if fence = 0 then none
  else (fenceEnd? fence 0 (text.drop fence)).map (fence + ·)

/-- A text that loses one space on each side as a code span's content does. -/
def isPadded (text : List Char) : Bool :=
  2 ≤ text.length && text.head? == some ' ' && text.getLast? == some ' ' && !(trim text).isEmpty

/-- The content of a code span or formula: the text behind its opening run, less as
many bytes at the end as that run has. Nothing is left when the two overlap or the
end would cut a character. -/
def stripFences (raw : List Char) (fence : Char) : List Char :=
  let width := runLength fence raw
  let inner := match dropBytes? width raw.reverse with
    | some kept => kept.reverse.drop width
    | none => []
  if fence = backtick && isPadded inner then (inner.drop 1).dropLast else inner

end InlineMarkdown
