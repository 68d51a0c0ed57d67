import InlineMarkdown.Entity
import InlineMarkdown.Tree.Node

/-! Plain text: a tree without its markup.

Texts, code and formulas stand as they are, an image as its alternative text, a
footnote or citation as its mark. Of raw HTML only character references are left,
decoded. -/
namespace InlineMarkdown

mutual

/-- The readable text of a tree. -/
def Node.plainText : Node → List Char
  | ⟨kind, _, children⟩ =>
    match kind with
    | .text s | .inlineCode s | .formula s => s
    | .html html => if html.head? == some '&' then decodeReferences html else []
    | .softBreak => ['\n']
    | .image _ alt _ => alt
    | .footnote identifier => ['[', '^'] ++ identifier ++ [']']
    | .citation identifier => ['[', '@'] ++ identifier ++ [']']
    | .document | .emphasis | .strong | .strike | .link .. | .reference .. => plainText children

/-- The readable text of trees. -/
def plainText : List Node → List Char
  | [] => []
  | node :: rest => node.plainText ++ plainText rest

end

theorem plainText_append (a b : List Node) : plainText (a ++ b) = plainText a ++ plainText b := by
  induction a with
  | nil => rfl
  | cons node rest ih => rw [List.cons_append, plainText, ih, plainText, List.append_assoc]

end InlineMarkdown
