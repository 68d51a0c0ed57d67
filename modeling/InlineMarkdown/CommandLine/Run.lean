import InlineMarkdown.CommandLine.Help
import InlineMarkdown.Config.Files
import InlineMarkdown.Markdown
import InlineMarkdown.Render.Dump
import InlineMarkdown.Render.Markdown
import InlineMarkdown.Render.Plain

/-! The command: parsing files and printing what they hold.

A run is a function of its arguments and its surroundings: the files it can read
and the bytes on standard input. It yields the exit code and what is printed. Each
file is parsed and printed on its own; one that cannot be read is reported, and the
others are printed all the same. -/
namespace InlineMarkdown.CommandLine

/-- What a run finds around it. -/
structure Surroundings where
  /-- Where the user's settings are, if that is known. -/
  configPath : Option Path
  files : Files
  input : ByteArray

/-- What a run leaves behind. -/
structure Outcome where
  code : Nat
  out : String
  err : String
deriving DecidableEq, Repr

/-! ### Printing -/

/-- What has been printed, with the level from which on reports are logged. -/
structure Printer where
  level : Level
  out : String := ""
  err : String := ""
deriving Repr

namespace Printer

def log (printer : Printer) (line : LogLine) : Printer :=
  if printer.level.rank ≤ line.level.rank then
    { printer with err := printer.err ++ line.display ++ "\n" }
  else printer

/-- Logs a report of the command itself. -/
def say (printer : Printer) (level : Level) (message : String) : Printer :=
  printer.log ⟨level, "spanmark", message⟩

/-- Ends the run. -/
def exit (printer : Printer) (code : Nat) : Outcome := ⟨code, printer.out, printer.err⟩

/-- Ends the run with a failure. -/
def fail (printer : Printer) (failure : Failure) : Outcome :=
  (printer.say .error ("Error: " ++ failure.message)).exit 1

end Printer

/-! ### One text -/

/-- A document in the format that is asked for. -/
def render (output : Output) (root : Node) : List Char :=
  match output.format with
  | .tree => if output.spans then root.dumpWithSpans else root.dump
  | .markdown => root.toMarkdown
  | .text => root.plainText

/-- The text with a line end behind it, unless it ends with one. -/
def endLine (text : List Char) : List Char :=
  if text.getLast? = some '\n' then text else text ++ ['\n']

/-- Parses a text and prints the document, then what went wrong. Yields whether the
parse came to its end. -/
def process (config : Config) (name : String) (text : List Char) (printer : Printer) :
    Bool × Printer :=
  let parsed := parseMarkdown text config.features
  let printer := parsed.events.foldl (fun printer event => printer.log event.line) printer
  let problems :=
    if config.output.diagnostics then
      String.join (parsed.diagnostics.map fun d => name ++ ":" ++ d.display ++ "\n")
    else ""
  (!parsed.isFatal,
    { printer with
      out := printer.out ++ String.ofList (endLine (render config.output parsed.root))
      err := printer.err ++ problems })

/-- Reads and processes the files one after the other. Yields whether each was read and
parsed to its end. -/
def processFiles (files : Files) (config : Config) : List Path → Printer → Bool × Printer
  | [], printer => (true, printer)
  | path :: rest, printer =>
    let name := String.ofList path
    let printer := printer.say .info ("Processing file: " ++ name)
    let (done, printer) := match files.readText path with
      | .ok text => process config name text printer
      | .error cause =>
        (false, printer.say .error ("Failed to read " ++ name ++ ": " ++ cause.message))
    let (allDone, printer) := processFiles files config rest printer
    (done && allDone, printer)

/-! ### The whole run -/

/-- Processes what the arguments name with these settings. -/
def processAll (around : Surroundings) (arguments : Arguments) (config : Config)
    (printer : Printer) : Outcome :=
  if arguments.files.isEmpty then
    match String.fromUTF8? around.input with
    | none => printer.fail (.io .invalidUtf8)
    | some text =>
      let (done, printer) := process config "<stdin>" text.toList printer
      printer.exit (if done then 0 else 1)
  else
    let (done, printer) := processFiles around.files config arguments.files printer
    printer.exit (if done then 0 else 1)

/-- Runs the command with arguments that make sense. User settings that cannot be read
do not count. -/
def runWith (around : Surroundings) (arguments : Arguments) : Outcome :=
  if arguments.showPaths then
    let path := (around.configPath.map String.ofList).getD "(not found)"
    ⟨0, "paths:\n  config                " ++ path ++ "\n", ""⟩
  else
    let printer := ({ level := arguments.logLevel } : Printer).say .info ("Spanmark v" ++ version)
    let user := (Config.load around.files around.configPath).toOption.getD {}
    let settings : Except Failure (Config × Printer) :=
      match arguments.override with
      | none => .ok (user, printer)
      | some request =>
        (user.applyOverride around.files request).map
          (·, printer.say .debug "Merged config override")
    match settings with
    | .error failure => printer.fail failure
    | .ok (config, printer) =>
      let config := arguments.applyTo config
      let printer := printer.say .debug ("Effective config: " ++ config.describe)
      processAll around arguments config printer

/-- Runs the command. -/
def run (around : Surroundings) (arguments : List (List Char)) : Outcome :=
  match Arguments.read arguments with
  | .ok arguments => runWith around arguments
  | .error .version => ⟨0, "spanmark " ++ version ++ "\n", ""⟩
  | .error (.help page) => ⟨0, help page, ""⟩
  | .error .usageError => ⟨2, "", usage⟩

end InlineMarkdown.CommandLine
