import InlineMarkdown.Config.Basic
import InlineMarkdown.Event
import InlineMarkdown.Storage

/-! The arguments of the command.

Arguments are read from left to right. An option takes its value from the same
argument or from the next one; every option and flag may be given once; what is
neither is a file, and behind two hyphens everything is. The first argument that
makes no sense ends the reading, and so does a request for help or the version. -/
namespace InlineMarkdown.CommandLine

structure Arguments where
  /-- The files to process; none for standard input. -/
  files : List Path := []
  level : Option (List Char) := none
  /-- The path of settings or their text. -/
  override : Option (List Char) := none
  format : Option Format := none
  spans : Bool := false
  noDiagnostics : Bool := false
  showPaths : Bool := false
deriving DecidableEq, Repr

/-- The pages of help. -/
inductive Page where
  | summary
  | full
deriving DecidableEq, Repr

/-- Why the reading of arguments ended early. -/
inductive Stop where
  | usageError
  | version
  | help (page : Page)
deriving DecidableEq, Repr

/-- The options that take a value. -/
inductive Setting where
  | level
  | override
  | format
deriving DecidableEq, Repr

namespace Setting

def ofLong? (name : List Char) : Option Setting :=
  if name = "loglevel".toList then some level
  else if name = "config".toList then some override
  else if name = "format".toList then some format
  else none

def ofShort? : Char → Option Setting
  | 'l' => some level
  | 'c' => some override
  | 'f' => some format
  | _ => none

end Setting

namespace Arguments

/-- Sets an option that has not been set. -/
def set (arguments : Arguments) (setting : Setting) (value : List Char) :
    Except Stop Arguments :=
  match setting with
  | .level =>
    if arguments.level.isSome then .error .usageError
    else .ok { arguments with level := some value }
  | .override =>
    if arguments.override.isSome then .error .usageError
    else .ok { arguments with override := some value }
  | .format =>
    match Format.ofName? value with
    | none => .error .usageError
    | some format =>
      if arguments.format.isSome then .error .usageError
      else .ok { arguments with format := some format }

/-- Sets a flag that has not been set, or stops as the flag asks. -/
def setFlag (arguments : Arguments) (name : List Char) : Except Stop Arguments :=
  if name = "spans".toList && !arguments.spans then .ok { arguments with spans := true }
  else if name = "no-diagnostics".toList && !arguments.noDiagnostics then
    .ok { arguments with noDiagnostics := true }
  else if name = "paths".toList && !arguments.showPaths then
    .ok { arguments with showPaths := true }
  else if name = "version".toList then .error .version
  else if name = "help".toList then .error (.help .full)
  else .error .usageError

/-- Adds a file. -/
def addFile (arguments : Arguments) (path : Path) : Except Stop Arguments :=
  if path = [] then .error .usageError
  else .ok { arguments with files := arguments.files ++ [path] }

/-- An argument that cannot be the value of an option. -/
def isFlagLike : List Char → Bool
  | '-' :: _ :: _ => true
  | _ => false

/-- Reads an argument behind two hyphens; yields the option that waits for a value, if
there is one. -/
def readLong (arguments : Arguments) (long : List Char) :
    Except Stop (Option Setting × Arguments) := do
  let name := long.takeWhile (· != '=')
  match Setting.ofLong? name, after? ['='] (long.drop name.length) with
  | some setting, some value => return (none, ← arguments.set setting value)
  | some setting, none => return (some setting, arguments)
  | none, some _ => .error .usageError
  | none, none => return (none, ← arguments.setFlag name)

/-- Reads an argument behind one hyphen; yields the option that waits for a value, if
there is one. -/
def readShort (arguments : Arguments) (letter : Char) (more : List Char) :
    Except Stop (Option Setting × Arguments) :=
  match Setting.ofShort? letter with
  | some setting =>
    if more = [] then .ok (some setting, arguments)
    else (arguments.set setting ((after? ['='] more).getD more)).map (none, ·)
  | none =>
    .error <|
      if letter = 'V' then .version else if letter = 'h' then .help .summary else .usageError

/-- Reads the rest of the arguments. `waiting` is the option whose value comes next. -/
def readFrom (arguments : Arguments) : (waiting : Option Setting) → List (List Char) →
    Except Stop Arguments
  | none, [] => .ok arguments
  | some _, [] => .error .usageError
  | some setting, value :: rest => do
    if isFlagLike value then .error .usageError
    else readFrom (← arguments.set setting value) none rest
  | none, argument :: rest =>
    match argument with
    | ['-', '-'] => rest.foldlM addFile arguments
    | '-' :: '-' :: long => do
      let (waiting, arguments) ← arguments.readLong long
      readFrom arguments waiting rest
    | '-' :: letter :: more => do
      let (waiting, arguments) ← arguments.readShort letter more
      readFrom arguments waiting rest
    | path => do readFrom (← arguments.addFile path) none rest

/-- Reads the arguments. -/
def read (arguments : List (List Char)) : Except Stop Arguments :=
  readFrom {} none arguments

/-! ### What the arguments ask for -/

/-- The least important reports that are logged. -/
def logLevel (arguments : Arguments) : Level :=
  match arguments.level with
  | none => .warn
  | some request =>
    let name := request.map Char.toUpper
    ([Level.trace, .debug, .info, .warn, .error].find? (·.name.toList == name)).getD .warn

/-- The settings with those of the arguments over them. -/
def applyTo (arguments : Arguments) (config : Config) : Config :=
  { config with
    output :=
      { format := arguments.format.getD config.output.format
        diagnostics := config.output.diagnostics && !arguments.noDiagnostics
        spans := config.output.spans || arguments.spans } }

end Arguments
end InlineMarkdown.CommandLine
