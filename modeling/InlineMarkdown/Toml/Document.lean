import InlineMarkdown.Toml.Number
import InlineMarkdown.Toml.Text

/-! Settings documents in TOML 1.0.

A document is read in two steps. Lines become sections: a header and the pairs
below it. Then the sections are put together; that refuses keys that are given
twice and tables that are opened twice or extended from outside. Values may be
nested to a fixed depth, which also bounds the reader's recursion. -/
namespace InlineMarkdown.Toml

/-- Values and dotted keys have to be nested less deeply than this. -/
def nestingLimit : Nat := 80

/-! ### Keys -/

def isBareKeyChar (c : Char) : Bool := c.isAlphanum || c == '_' || c == '-'

/-- One part of a key: bare, or a string on one line. -/
def simpleKey? (text : List Char) : Option (Key × List Char) :=
  let bare := text.takeWhile isBareKeyChar
  if bare.isEmpty then lineString? text else some (bare, text.drop bare.length)

/-- The parts of a key, with dots between them; at most `limit`. -/
def keyParts? : (limit : Nat) → List Char → Option (List Key × List Char)
  | 0, _ => none
  | limit + 1, text => do
    let (part, rest) ← simpleKey? (skipBlanks text)
    match skipBlanks rest with
    | '.' :: rest =>
      let (parts, rest) ← keyParts? limit rest
      some (part :: parts, rest)
    | rest => some ([part], rest)

def key? (text : List Char) : Option (List Key × List Char) := keyParts? (nestingLimit - 1) text

/-! ### Tables -/

/-- Adds a pair to a table. The parts of a dotted key before the last name tables that
dotted keys have made; `extensible` says whether this table may get the pair itself. -/
def addPair (extensible : Bool) : List Key → Value → Entries → Option Entries
  | [], _, _ => none
  | [key], value, entries =>
    if extensible && (entries.find? key).isNone then some (entries ++ [(key, value)]) else none
  | key :: path, value, entries =>
    match entries.find? key with
    | none => do
      let inner ← addPair true path value []
      some (entries ++ [(key, .table .dotted inner)])
    | some (.table .dotted inner) => do
      let inner ← addPair true path value inner
      some (entries.put key (.table .dotted inner))
    | some (.table .implied inner) => do
      let inner ← addPair false path value inner
      some (entries.put key (.table .implied inner))
    | some (.tables elements) => do
      let last ← elements.getLast?
      let inner ← addPair false path value last
      some (entries.put key (.tables (elements.dropLast ++ [inner])))
    | some _ => none

/-- Adds pairs to a table that may get them. -/
def addPairs (pairs : List (List Key × Value)) (entries : Entries) : Option Entries :=
  pairs.foldlM (fun entries (path, value) => addPair true path value entries) entries

/-- Changes the table at the end of a header's path; tables on the way are made if
there are none. -/
def changeAt (change : Entries → Option Entries) : List Key → Entries → Option Entries
  | [], entries => change entries
  | key :: path, entries =>
    match entries.find? key with
    | none => do
      let inner ← changeAt change path []
      some (entries ++ [(key, .table .implied inner)])
    | some (.table .inline _) => none
    | some (.table origin inner) => do
      let inner ← changeAt change path inner
      some (entries.put key (.table origin inner))
    | some (.tables elements) => do
      let last ← elements.getLast?
      let inner ← changeAt change path last
      some (entries.put key (.tables (elements.dropLast ++ [inner])))
    | some _ => none

/-! ### Values -/

/-- Reads one value. -/
abbrev ReadValue : Type := List Char → Option (Value × List Char)

/-- A pair: a key, an equals sign and a value. -/
def pair? (value? : ReadValue) (text : List Char) : Option ((List Key × Value) × List Char) := do
  let (path, rest) ← key? text
  let rest ← after? ['='] rest
  let (value, rest) ← value? (skipBlanks rest)
  some ((path, value), rest)

/-- The items of an array behind its opening bracket, and the closing one. A comma may
stand behind the last item. -/
def arrayItems? (value? : ReadValue) : (limit : Nat) → List Char → Option (List Value × List Char)
  | 0, _ => none
  | limit + 1, text =>
    match skipLines text.length text with
    | ']' :: rest => some ([], rest)
    | text => do
      let (item, rest) ← value? text
      match skipLines rest.length rest with
      | ',' :: rest =>
        let (items, rest) ← arrayItems? value? limit rest
        some (item :: items, rest)
      | ']' :: rest => some ([item], rest)
      | _ => none

/-- The pairs of a table between braces behind the first, if a comma follows, and the
closing brace. -/
def bracePairs? (value? : ReadValue) :
    (limit : Nat) → List Char → Option (List (List Key × Value) × List Char)
  | 0, _ => none
  | limit + 1, text => do
    let (pair, rest) ← pair? value? text
    match skipBlanks rest with
    | ',' :: rest =>
      let (pairs, rest) ← bracePairs? value? limit rest
      some (pair :: pairs, rest)
    | '\x7d' :: rest => some ([pair], rest)
    | _ => none

/-- The table between braces behind the opening one. -/
def braceTable? (value? : ReadValue) (text : List Char) : Option (Value × List Char) :=
  match skipBlanks text with
  | '\x7d' :: rest => some (.table .inline [], rest)
  | text => do
    let (pairs, rest) ← bracePairs? value? (text.length + 1) text
    let entries ← addPairs pairs []
    some (.table .inline entries, rest)

/-- A value that holds no others. -/
def scalar? (text : List Char) : Option (Value × List Char) :=
  match text with
  | '"' :: _ | '\'' :: _ => (string? text).map fun (s, rest) => (.string s, rest)
  | _ =>
    (after? "true".toList text).map (.boolean true, ·) <|>
      (after? "false".toList text).map (.boolean false, ·) <|>
      number? text

/-- A value inside which `room` levels of arrays and tables may be opened. -/
def value? : (room : Nat) → ReadValue
  | 0, text => scalar? text
  | room + 1, text =>
    match text with
    | '[' :: rest =>
      (arrayItems? (value? room) (rest.length + 1) rest).map fun (items, rest) =>
        (.array items, rest)
    | '\x7b' :: rest => braceTable? (value? room) rest
    | text => scalar? text

/-! ### Sections -/

/-- Where the pairs of a section go. -/
inductive Header where
  /-- The table of the whole document. -/
  | root
  | table (path : List Key)
  /-- A further element of an array of tables. -/
  | element (path : List Key)
deriving Repr

structure Section where
  header : Header
  pairs : List (List Key × Value)
deriving Repr

/-- A header between single or double brackets. -/
def header? (text : List Char) : Option (Header × List Char) :=
  match text with
  | '[' :: '[' :: rest => do
    let (path, rest) ← key? rest
    let rest ← after? [']', ']'] rest
    some (.element path, rest)
  | '[' :: rest => do
    let (path, rest) ← key? rest
    let rest ← after? [']'] rest
    some (.table path, rest)
  | _ => none

/-- Reads the sections of a document, at most `limit` lines, behind the header of the
current one and its pairs, the latest first. -/
def sectionsFrom? : (limit : Nat) → Header → List (List Key × Value) → List Char →
    Option (List Section)
  | 0, _, _, _ => none
  | limit + 1, header, pairs, text =>
    match skipLines text.length text with
    | [] => some [⟨header, pairs.reverse⟩]
    | '#' :: _ => do
      let rest ← lineEnd? (skipLines text.length text)
      sectionsFrom? limit header pairs rest
    | '[' :: rest => do
      let (next, rest) ← header? ('[' :: rest)
      let rest ← lineEnd? rest
      let sections ← sectionsFrom? limit next [] rest
      some (⟨header, pairs.reverse⟩ :: sections)
    | text => do
      let (pair, rest) ← pair? (value? (nestingLimit - 1)) text
      let rest ← lineEnd? rest
      sectionsFrom? limit header (pair :: pairs) rest

/-- The sections of a document; a byte order mark may stand before them. -/
def sections? (text : List Char) : Option (List Section) :=
  let text := (after? ['\ufeff'] text).getD text
  sectionsFrom? (text.length + 1) .root [] text

/-! ### Documents -/

/-- Adds a section to what was read before it. A table that a header opens must be new
or known only from the headers of tables inside it. -/
def addSection (document : Entries) (part : Section) : Option Entries :=
  let openLast (path : List Key) (opened : Key → Entries → Option Entries) : Option Entries := do
    let key ← path.getLast?
    changeAt (opened key) path.dropLast document
  match part.header with
  | .root => addPairs part.pairs document
  | .table path => openLast path fun key entries => do
    let known ← match entries.find? key with
      | none => some []
      | some (.table .implied known) => some known
      | some _ => none
    let filled ← addPairs part.pairs known
    some (entries.put key (.table .header filled))
  | .element path => openLast path fun key entries => do
    let elements ← match entries.find? key with
      | none => some []
      | some (.tables elements) => some elements
      | some _ => none
    let filled ← addPairs part.pairs []
    some (entries.put key (.tables (elements ++ [filled])))

/-- The table that a document is; none if the document is not well formed. -/
def parse? (text : List Char) : Option Entries := do
  let sections ← sections? text
  sections.foldlM addSection []

end InlineMarkdown.Toml
