import InlineMarkdown.Config.Basic
import InlineMarkdown.Toml.Document

/-! Settings as documents.

A settings document has two tables, `features` and `output`. What it leaves out has
its default, what it has besides is ignored, and a value of the wrong type is an
error. In place of a table there may be an array of the settings in their order. -/
namespace InlineMarkdown
open Toml (Value Entries)

/-! ### Reading -/

/-- The named settings of a section, each if it is there: by name from a table, by
position from an array. A date has no settings of these names. -/
def sectionFields? (names : List String) : Value → Option (List (Option Value))
  | .table _ entries => some (names.map fun name => entries.lookup name.toList)
  | .array items => some (names.zipIdx.map fun (_, i) => items[i]?)
  | .tables elements => some (names.zipIdx.map fun (_, i) => elements[i]?.map (.table .header ·))
  | .datetime _ => some (names.map fun _ => none)
  | _ => none

/-- A setting that is read with `read?` if it is there and has a default if not. -/
def settingOr {α : Type} (default : α) (read? : Value → Option α) : Option Value → Option α
  | none => some default
  | some value => read? value

def flag? : Value → Option Bool
  | .boolean b => some b
  | _ => none

/-- A format by name, or as a table with the name as its one key and an empty table or
array as the value. -/
def format? : Value → Option Format
  | .string name => Format.ofName? name
  | .table _ [(name, .table _ [])] | .table _ [(name, .array [])] => Format.ofName? name
  | _ => none

def features? (value : Value) : Option InlineOptions := do
  let fields ← sectionFields? flagNames value
  InlineOptions.ofFlags? (← fields.mapM (settingOr true flag?))

def output? (value : Value) : Option Output := do
  match ← sectionFields? ["Format", "Diagnostics", "Spans"] value with
  | [format, diagnostics, spans] =>
    some ⟨← settingOr .tree format? format, ← settingOr true flag? diagnostics,
      ← settingOr false flag? spans⟩
  | _ => none

namespace Config

/-- The settings in a table. -/
def ofEntries? (entries : Entries) : Option Config := do
  let features ← settingOr {} features? (entries.find? "features".toList)
  let output ← settingOr {} output? (entries.find? "output".toList)
  some ⟨features, output⟩

/-- The settings in a document. -/
def ofDocument? (text : List Char) : Option Config := Toml.parse? text >>= ofEntries?

/-- The settings in a document; `place` is where an error is reported. -/
def ofDocument (place : String) (text : List Char) : Except Failure Config :=
  match ofDocument? text with
  | some config => .ok config
  | none => .error (.config (.malformed place))

/-! ### Writing -/

/-- The document that new users start with. It has all settings at their defaults. -/
def defaultDocument : String :=
  String.join <| List.map (· ++ "\n") [
    "[features]",
    "Strikethrough = true",
    "Footnotes     = true",
    "Citations     = true",
    "Formulas      = true",
    "Autolinks     = true",
    "Html          = true",
    "Images        = true",
    "Links         = true",
    "",
    "[output]",
    "Format      = \"tree\"",
    "Diagnostics = true",
    "Spans       = false"]

/-- The document that holds these settings. -/
def toDocument (config : Config) : String :=
  let line (name value : String) : String := name ++ " = " ++ value ++ "\n"
  "[features]\n" ++
    String.join (config.features.flags.map fun (name, value) => line name (toString value)) ++
    "\n[output]\n" ++ line "Format" ("\"" ++ config.output.format.name ++ "\"") ++
    line "Diagnostics" (toString config.output.diagnostics) ++
    line "Spans" (toString config.output.spans)

end Config
end InlineMarkdown
