/-! Which constructs the parser recognises. A construct that is switched off is
literal text. -/
namespace InlineMarkdown

structure InlineOptions where
  strikethrough : Bool := true
  footnotes : Bool := true
  citations : Bool := true
  formulas : Bool := true
  autolinks : Bool := true
  html : Bool := true
  images : Bool := true
  links : Bool := true
deriving DecidableEq, Repr, Inhabited

/-- All constructs on, or all off. -/
def InlineOptions.uniform (enabled : Bool) : InlineOptions :=
  ⟨enabled, enabled, enabled, enabled, enabled, enabled, enabled, enabled⟩

end InlineMarkdown
