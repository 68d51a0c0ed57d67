import InlineMarkdown.CommandLine.Arguments

/-! What the command says about itself.

Help has two pages. On the summary an argument takes one line; on the full page what
it is for stands below it, and the command is described at greater length. Both pages
end with a few sample runs. -/
namespace InlineMarkdown.CommandLine

def version : String := "0.1.0"

/-- The text of lines, each of which ends with a line feed. -/
def unlines (lines : List String) : String := String.join (lines.map (· ++ "\n"))

/-- What a page of help says about an argument. -/
structure Described where
  /-- How the argument is written. -/
  form : String
  purpose : String
  /-- Its default, or the values that it can have. -/
  note : Option String := none

namespace Described

/-- The lines for an argument. On the summary its form stands in a column of this width. -/
def lines (width : Nat) (argument : Described) : Page → List String
  | .summary =>
    let form := String.ofList (argument.form.toList.rightpad width ' ')
    ["  " ++ form ++ "  " ++ " ".intercalate (argument.purpose :: argument.note.toList)]
  | .full =>
    let below := "          "
    -- The line between the purpose and the note is indented as they are.
    let note := match argument.note with
      | none => []
      | some note => [below, below ++ note]
    ["  " ++ argument.form, below ++ argument.purpose] ++ note

/-- The lines for arguments under a heading; on the full page, with a blank line between
one argument and the next. -/
def listing (page : Page) (heading : String) (arguments : List Described) : List String :=
  let width := (arguments.map (·.form.length)).foldl max 0
  let gap := match page with
    | .summary => []
    | .full => [""]
  heading :: gap.intercalate (arguments.map (lines width · page))

end Described

/-! ### Pages -/

/-- The description of the command. -/
def about : Page → List String
  | .summary => ["Parse Markdown inline syntax into a span tree"]
  | .full =>
    ["Spanmark - parse Markdown inline syntax and print the resulting tree.",
      "",
      "Each input is parsed on its own; diagnostics go to stderr."]

def usageLine : String := "Usage: spanmark [OPTIONS] [FILE]..."

/-- The arguments that are no options. -/
def operands : List Described :=
  [{ form := "[FILE]..."
     purpose := "Input files to process (reads from stdin if not provided)" }]

/-- The options. Each page names the other one. -/
def options (page : Page) : List Described :=
  [{ form := "-l, --loglevel <LOG_LEVEL>"
     purpose := "Set the logging level (trace, debug, info, warn, error)"
     note := some "[default: warn]" },
    { form := "-c, --config <CONFIG>"
      purpose := "Use a custom config file or inline TOML" },
    { form := "-f, --format <FORMAT>"
      purpose := "Output format"
      note := some "[possible values: tree, markdown, text]" },
    { form := "    --spans", purpose := "Include source ranges in the tree output" },
    { form := "    --no-diagnostics", purpose := "Do not print diagnostics" },
    { form := "    --paths", purpose := "Show configuration paths and exit" },
    { form := "-h, --help"
      purpose := match page with
        | .summary => "Print help (see more with '--help')"
        | .full => "Print help (see a summary with '-h')" },
    { form := "-V, --version", purpose := "Print version" }]

/-- Runs to start from. -/
def samples : List String :=
  ["Examples:",
    "  echo '*hi* [there](x)' | spanmark",
    "  spanmark -f text notes.md",
    "  spanmark -c '[features]\\nHtml = false' --spans doc.md"]

/-- A page of help: its parts, with a blank line between one and the next. -/
def help (page : Page) : String :=
  unlines <| [""].intercalate
    [about page, [usageLine], Described.listing page "Arguments:" operands,
      Described.listing page "Options:" (options page), samples]

/-- What is printed when the arguments make no sense, whatever is wrong with them. -/
def usage : String :=
  unlines ["error: invalid arguments", "", usageLine, "", "For more information, try '--help'."]

end InlineMarkdown.CommandLine
