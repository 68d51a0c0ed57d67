/-! Values of a settings document.

A document is a table of values by key. How a table came about matters while the
document is read, because not every table may be extended or opened again. -/
namespace InlineMarkdown.Toml

abbrev Key : Type := List Char

/-- How a table came about. -/
inductive Origin where
  /-- Written as a value, between braces; complete. -/
  | inline
  /-- Opened by a header of its own. -/
  | header
  /-- Named on the way in the header of a table inside it. -/
  | implied
  /-- Named on the way in a dotted key. -/
  | dotted
deriving DecidableEq, Repr

inductive Value where
  | string (text : List Char)
  | integer (n : Int)
  /-- A number with a fraction or exponent, as written. -/
  | float (text : List Char)
  | boolean (b : Bool)
  /-- A date, a time or both, as written. -/
  | datetime (text : List Char)
  | array (items : List Value)
  | table (origin : Origin) (entries : List (Key × Value))
  /-- Tables opened one after the other by headers in double brackets. -/
  | tables (elements : List (List (Key × Value)))
deriving Repr

/-- The entries of a table, in the order in which they were first named. -/
abbrev Entries : Type := List (Key × Value)

namespace Entries

/-- The value of a key. -/
def find? (entries : Entries) (key : Key) : Option Value := entries.lookup key

/-- Gives a key a value, in its place if it has one already. -/
def put (key : Key) (value : Value) : Entries → Entries
  | [] => [(key, value)]
  | (other, old) :: rest =>
    if other = key then (key, value) :: rest else (other, old) :: put key value rest

end Entries
end InlineMarkdown.Toml
