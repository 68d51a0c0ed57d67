import InlineMarkdown.Engine.Script
import InlineMarkdown.Main
import InlineMarkdown.Proofs.Document
import InlineMarkdown.Proofs.Memory
import InlineMarkdown.Proofs.Reuse
import InlineMarkdown.Proofs.Refinement
import InlineMarkdown.Proofs.Brackets
import InlineMarkdown.Proofs.RoundTrip
import InlineMarkdown.Proofs.Canonical
import InlineMarkdown.Proofs.Clean
import InlineMarkdown.Proofs.Normal
import InlineMarkdown.Proofs.Enabled
import InlineMarkdown.Proofs.Escapes
import InlineMarkdown.Proofs.Flags
import InlineMarkdown.Proofs.Concatenation
import InlineMarkdown.Proofs.Extraction
import InlineMarkdown.Proofs.Atomicity
import InlineMarkdown.Proofs.Ledger
import InlineMarkdown.Proofs.Unfinished
import InlineMarkdown.Proofs.Enclosed
import InlineMarkdown.Proofs.References
import InlineMarkdown.Proofs.Verbatim
import InlineMarkdown.Proofs.Terminators
import InlineMarkdown.Proofs.Ordinary
import InlineMarkdown.Proofs.Answers
import InlineMarkdown.Proofs.Dispatch
import InlineMarkdown.Proofs.Dumps
import InlineMarkdown.Proofs.Payloads
import InlineMarkdown.Proofs.Height
import InlineMarkdown.Proofs.OpenRuns
import InlineMarkdown.Proofs.Ranges
import InlineMarkdown.Proofs.Output
