import InlineMarkdown.Text.Basic
import InlineMarkdown.Text.Whitespace

/-! Formulas: text between dollar signs on one line.

A display formula stands between two pairs of dollar signs and may hold anything
but dollar signs. An inline formula stands between single ones and neither starts
nor ends with white space. -/
namespace InlineMarkdown

/-- The characters up to the next dollar sign or line feed. -/
def formulaBody (text : List Char) : List Char :=
  text.takeWhile fun c => c != '$' && c != '\n'

/-- The length of the display formula that the text starts with. -/
def displayFormula? (text : List Char) : Option Nat := do
  let rest ← after? ['$', '$'] text
  let body := formulaBody rest
  if body.isEmpty then none
  else
    let _ ← after? ['$', '$'] (rest.drop body.length)
    some (body.length + 4)

/-- The length of the inline formula that the text starts with. -/
def inlineFormula? (text : List Char) : Option Nat := do
  let rest ← after? ['$'] text
  let body := formulaBody rest
  let first ← body.head?
  let last ← body.getLast?
  if isSpace first || isSpace last then none
  else
    let _ ← after? ['$'] (rest.drop body.length)
    some (body.length + 2)

/-- The length of the formula that the text starts with; a display formula wins. -/
def formula? (text : List Char) : Option Nat :=
  displayFormula? text <|> inlineFormula? text

end InlineMarkdown
