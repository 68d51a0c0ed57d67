import InlineMarkdown.Source.Position
import InlineMarkdown.Text.Quoted

/-! What went wrong during a parse.

A parse never fails: it records a diagnostic and goes on, or, if it would not get
any further, stops with what it has. A diagnostic is a cause and the range of the
token it is about; wording and severity follow from the cause. -/
namespace InlineMarkdown

inductive Severity where
  /-- The token was skipped and the parse went on. -/
  | recoverable
  /-- The parse stopped early. -/
  | fatal
deriving DecidableEq, Repr

def Severity.display : Severity → String
  | recoverable => "recoverable"
  | fatal => "fatal"

inductive ParseError where
  /-- No consumer claimed the token. -/
  | unrecognized (text : List Char)
  /-- A consumer claimed the token and left it where it was. -/
  | stuck (text : List Char)
deriving DecidableEq, Repr

namespace ParseError

def severity : ParseError → Severity
  | unrecognized _ => .recoverable
  | stuck _ => .fatal

def message : ParseError → String
  | unrecognized text => "unrecognized token " ++ quoteString text
  | stuck text => "stuck at token " ++ quoteString text

end ParseError

structure Diagnostic where
  error : ParseError
  span : Span
deriving DecidableEq, Repr

namespace Diagnostic

def message (d : Diagnostic) : String := d.error.message

def severity (d : Diagnostic) : Severity := d.error.severity

def isFatal (d : Diagnostic) : Bool := d.severity == .fatal

/-- The place and the message on one line. -/
def display (d : Diagnostic) : String := d.span.start.display ++ ": " ++ d.message

end Diagnostic
end InlineMarkdown
