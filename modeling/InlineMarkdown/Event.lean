import InlineMarkdown.Source.Position
import InlineMarkdown.Text.Quoted

/-! What a parse reports while it runs.

Each report is a value that says what happened; level, origin and wording follow
from it. A log line shows all three. -/
namespace InlineMarkdown

/-- How important a report is, from the least to the most. -/
inductive Level where
  | trace
  | debug
  | info
  | warn
  | error
deriving DecidableEq, Repr, Inhabited

namespace Level

def name : Level → String
  | trace => "TRACE"
  | debug => "DEBUG"
  | info => "INFO"
  | warn => "WARN"
  | error => "ERROR"

def rank : Level → Nat
  | trace => 0
  | debug => 1
  | info => 2
  | warn => 3
  | error => 4

end Level

/-- One line of a log. -/
structure LogLine where
  level : Level
  /-- The part of the program that reports. -/
  target : String
  message : String
deriving DecidableEq, Repr

def LogLine.display (line : LogLine) : String :=
  "[" ++ line.level.name ++ "] " ++ line.target ++ ": " ++ line.message

/-- The constructs that the parser tries at a bracket. -/
inductive Construct where
  | image
  /-- Anything that starts with an opening bracket. -/
  | bracket
  | footnote
  | citation
  | link
deriving DecidableEq, Repr

def Construct.name : Construct → String
  | image => "image"
  | bracket => "bracket"
  | footnote => "footnote"
  | citation => "citation"
  | link => "link"

inductive Event where
  /-- A parse begins. -/
  | parsing (language : String) (bytes tokens : Nat)
  /-- A parse has ended. -/
  | finished (language : String) (children diagnostics : Nat)
  /-- A consumer has claimed a token. -/
  | claimed (consumer kind : String) (text : List Char)
  /-- A round left as many tokens as the one before it. -/
  | noProgress (place : Position) (text : List Char)
  /-- No consumer has claimed a token. -/
  | unclaimed (place : Position) (text : List Char)
  /-- A run of tokens has become nodes. -/
  | inlineRun (tokens nodes : Nat)
  /-- A construct does not match where it was tried. -/
  | noMatch (construct : Construct) (token : Nat)
  /-- A construct is nested too deeply. -/
  | tooDeep (construct : Construct) (token : Nat)
deriving DecidableEq, Repr

namespace Event

def level : Event → Level
  | parsing .. | finished .. => .debug
  | noProgress .. | unclaimed .. => .warn
  | claimed .. | inlineRun .. | noMatch .. | tooDeep .. => .trace

def target : Event → String
  | parsing .. | finished .. | noProgress .. | unclaimed .. => "spanmark_engine::driver"
  | claimed .. => "spanmark_engine"
  | inlineRun .. => "spanmark_markdown::language"
  | noMatch .. | tooDeep .. => "spanmark_markdown::links"

def message : Event → String
  | parsing language bytes tokens =>
    language ++ ": parsing " ++ toString bytes ++ " bytes as " ++ toString tokens ++ " tokens"
  | finished language children diagnostics =>
    language ++ ": finished with " ++ toString children ++ " children, " ++
      toString diagnostics ++ " diagnostics"
  | claimed consumer kind text => consumer ++ " claimed " ++ kind ++ " " ++ quoteString text
  | noProgress place text =>
    "no progress at " ++ place.display ++ " on " ++ quoteString text ++ ", aborting"
  | unclaimed place text => "unrecognized token " ++ quoteString text ++ " at " ++ place.display
  | inlineRun tokens nodes =>
    "inline run of " ++ toString tokens ++ " tokens gave " ++ toString nodes ++ " nodes"
  | noMatch construct token =>
    construct.name ++ " did not match at token " ++ toString token ++ ", backtracking"
  | tooDeep construct token =>
    construct.name ++ " nested too deeply at token " ++ toString token ++ ", abandoning"

def line (event : Event) : LogLine := ⟨event.level, event.target, event.message⟩

end Event
end InlineMarkdown
