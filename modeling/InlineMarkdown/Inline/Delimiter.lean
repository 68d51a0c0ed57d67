import InlineMarkdown.Token.Kind
import InlineMarkdown.Tree.Coalesce

/-! Emphasis: matching runs of asterisks, underscores and tildes.

While a run of tokens is parsed, a `Draft` holds the nodes so far and a stack of
delimiter runs that are still open. An open run stands among the nodes as literal
text, its placeholder. A later run of the same marker closes the most recent one:
the nodes between them become the children of a new node, and what is left of the
opening run stays open in front of it. Whatever is still open at the end is text
already. -/
namespace InlineMarkdown

inductive Marker where
  | asterisk
  | underscore
  | tilde
deriving DecidableEq, Repr

namespace Marker

def kind : Marker → Kind
  | asterisk => .asterisk
  | underscore => .underscore
  | tilde => .tilde

def char : Marker → Char
  | asterisk => '*'
  | underscore => '_'
  | tilde => '~'

/-- A run of `count` markers. -/
def run (marker : Marker) (count : Nat) : List Char := List.replicate count marker.char

/-- How many markers an opening run of `opened` and a closing run of `closing` use
up together: up to two for emphasis; for strikethrough as many as both have, but
never fewer than two. -/
def used? (marker : Marker) (opened closing : Nat) : Option Nat :=
  match marker with
  | tilde => if opened < 2 || closing < 2 then none else some (min opened closing)
  | _ => some (if 2 ≤ opened && 2 ≤ closing then 2 else 1)

/-- What a pair of runs that uses up `used` markers on each side stands for. -/
def wrapper (marker : Marker) (used : Nat) : NodeKind :=
  match marker with
  | tilde => .strike
  | _ => if 2 ≤ used then .strong else .emphasis

theorem used?_of_ne_tilde {marker : Marker} (h : marker ≠ tilde) (opened closing : Nat) :
    marker.used? opened closing = some (if 2 ≤ opened && 2 ≤ closing then 2 else 1) := by
  cases marker with
  | tilde => exact absurd rfl h
  | asterisk | underscore => rfl

theorem wrapper_of_ne_tilde {marker : Marker} (h : marker ≠ tilde) (used : Nat) :
    marker.wrapper used = if 2 ≤ used then .strong else .emphasis := by
  cases marker with
  | tilde => exact absurd rfl h
  | asterisk | underscore => rfl

theorem wrapper_cases (marker : Marker) (used : Nat) : marker.wrapper used = .emphasis ∨
    marker.wrapper used = .strong ∨ marker = tilde ∧ marker.wrapper used = .strike := by
  by_cases h : marker = tilde
  · exact .inr (.inr ⟨h, by rw [h]; rfl⟩)
  · rw [wrapper_of_ne_tilde h]
    split
    · exact .inr (.inl rfl)
    · exact .inl rfl

end Marker

/-- An open run. -/
structure Delimiter where
  marker : Marker
  /-- Markers that can still be used. -/
  count : Nat
  /-- Where the placeholder stands among the nodes. -/
  index : Nat
  /-- Where the run starts in the source. -/
  start : Position
deriving DecidableEq, Repr

/-- The nodes so far, and the open runs with the most recent first. -/
structure Draft where
  nodes : Array Node := #[]
  stack : List Delimiter := []
deriving Repr

namespace Draft

def push (draft : Draft) (node : Node) : Draft := { draft with nodes := draft.nodes.push node }

/-- The last node is the placeholder of an open run. -/
def lastIsOpen (draft : Draft) : Bool :=
  draft.stack.any fun delimiter => delimiter.index + 1 == draft.nodes.size

/-- Adds literal text: to the last node if that is text and not a placeholder, else
as a node of its own. -/
def pushText (draft : Draft) (text : List Char) (span : Span) : Draft :=
  match if draft.lastIsOpen then none else draft.nodes.back?.bind (·.appendText? text span) with
  | some joined => { draft with nodes := draft.nodes.pop.push joined }
  | none => draft.push (Node.ofText text span)

/-- Opens a run of `count` markers at `place`. -/
def openRun (draft : Draft) (marker : Marker) (count : Nat) (place : Position) : Draft :=
  let text := marker.run count
  { nodes := draft.nodes.push (Node.ofText text (Span.covering place text))
    stack := ⟨marker, count, draft.nodes.size, place⟩ :: draft.stack }

/-- The most recent open run of `marker`, the runs opened before it, and how many
markers it and a run of `count` use up; none if there is none or the two do not
close each other. -/
def closing? (draft : Draft) (marker : Marker) (count : Nat) :
    Option (Delimiter × List Delimiter × Nat) :=
  match draft.stack.dropWhile (·.marker != marker) with
  | [] => none
  | opener :: below => (marker.used? opener.count count).map (opener, below, ·)

/-- Wraps all nodes behind `opener`, whose closing run ends at `stop`, with `used`
markers on each side. Markers left over stay open in front of the new node; runs
opened behind `opener` are text from here on. -/
def wrap (draft : Draft) (opener : Delimiter) (below : List Delimiter) (used : Nat)
    (stop : Position) : Draft :=
  let content := (draft.nodes.extract (opener.index + 1) draft.nodes.size).toList
  let before := draft.nodes.shrink opener.index
  let node (start : Position) : Node := ⟨opener.marker.wrapper used, ⟨start, stop⟩, content⟩
  if used < opener.count then
    let left := opener.count - used
    let text := opener.marker.run left
    let span := Span.covering opener.start text
    { nodes := (before.push (Node.ofText text span)).push (node span.stop)
      stack := { opener with count := left } :: below }
  else
    { nodes := before.push (node opener.start), stack := below }

/-- Resolves a run of `count` markers at `place`: it closes open runs as long as
there are any that it can close, and what is left of it is opened. Every round
uses up a marker, so `limit` need not be more than `count`. -/
def resolveUpTo (marker : Marker) : (limit count : Nat) → Position → Draft → Draft
  | 0, _, _, draft => draft
  | limit + 1, count, place, draft =>
    if count = 0 then draft
    else match draft.closing? marker count with
      | none => draft.openRun marker count place
      | some (opener, below, used) =>
        let stop := place.advance (marker.run used)
        resolveUpTo marker limit (count - used) stop (draft.wrap opener below used stop)

/-- Resolves a run of `count` markers at `place`. -/
def resolve (draft : Draft) (marker : Marker) (count : Nat) (place : Position) : Draft :=
  resolveUpTo marker count count place draft

/-- The finished nodes: open runs are text, and neighbouring texts are one. -/
def finish (draft : Draft) : List Node := coalesce draft.nodes.toList

end Draft
end InlineMarkdown
