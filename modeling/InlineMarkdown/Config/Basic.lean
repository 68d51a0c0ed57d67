import InlineMarkdown.Error
import InlineMarkdown.Inline.Options

/-! Settings: which constructs are recognised and how results are printed. -/
namespace InlineMarkdown

/-- How a parsed document is printed. -/
inductive Format where
  /-- An indented tree. -/
  | tree
  | markdown
  /-- Plain text. -/
  | text
deriving DecidableEq, Repr, Inhabited

namespace Format

def name : Format → String
  | tree => "tree"
  | markdown => "markdown"
  | text => "text"

/-- The name as a settings report shows it. -/
def title : Format → String
  | tree => "Tree"
  | markdown => "Markdown"
  | text => "Text"

def all : List Format := [tree, markdown, text]

/-- The format with exactly this name. -/
def ofName? (name : List Char) : Option Format :=
  all.find? fun format => format.name.toList == name

/-- The format that a user asks for, in letters of either case and with two short
names besides the full ones. -/
def ofRequest (request : List Char) : Except Failure Format :=
  let name := request.map Char.toLower
  if name = "md".toList then .ok markdown
  else if name = "plain".toList then .ok text
  else match ofName? name with
    | some format => .ok format
    | none => .error (.config (.unknownFormat (String.ofList name)))

end Format

/-- How results are printed. -/
structure Output where
  format : Format := .tree
  /-- Diagnostics are printed. -/
  diagnostics : Bool := true
  /-- The tree is printed with the range of each node. -/
  spans : Bool := false
deriving DecidableEq, Repr, Inhabited

structure Config where
  features : InlineOptions := {}
  output : Output := {}
deriving DecidableEq, Repr, Inhabited

namespace Config

/-- Takes over both sections of `other`. A section says nothing about which of its
settings were left out, so the whole section counts. -/
def merge (_config other : Config) : Config := ⟨other.features, other.output⟩

/-- Takes over the features of `other`. -/
def mergeFeatures (config other : Config) : Config := { config with features := other.features }

/-- Takes over the output settings of `other`. -/
def mergeOutput (config other : Config) : Config := { config with output := other.output }

end Config

/-! ### Reports -/

/-- The flags with their names, in the order of a settings file. -/
def InlineOptions.flags (options : InlineOptions) : List (String × Bool) :=
  [("Strikethrough", options.strikethrough), ("Footnotes", options.footnotes),
    ("Citations", options.citations), ("Formulas", options.formulas),
    ("Autolinks", options.autolinks), ("Html", options.html), ("Images", options.images),
    ("Links", options.links)]

/-- The names of the flags. -/
def flagNames : List String := (InlineOptions.flags {}).map Prod.fst

/-- The options with these flags, in the order of `flags`. -/
def InlineOptions.ofFlags? : List Bool → Option InlineOptions
  | [a, b, c, d, e, f, g, h] => some ⟨a, b, c, d, e, f, g, h⟩
  | _ => none

/-- All settings on one line. -/
def Config.describe (config : Config) : String :=
  let field (name : String) (value : Bool) : String := name ++ ": " ++ toString value
  let flags := config.features.flags.map fun (name, value) =>
    field (String.ofList (name.toList.map Char.toLower)) value
  "Config \x7b features: FeaturesConfig \x7b " ++ String.intercalate ", " flags ++
    " \x7d, output: OutputConfig \x7b format: " ++ config.output.format.title ++ ", " ++
    field "diagnostics" config.output.diagnostics ++ ", " ++ field "spans" config.output.spans ++
    " \x7d \x7d"

end InlineMarkdown
