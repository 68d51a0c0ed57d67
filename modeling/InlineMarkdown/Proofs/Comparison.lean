import InlineMarkdown.Proofs.Aspect
import InlineMarkdown.Proofs.Step
import Mathlib.Data.Option.Basic

/-! Trees under two aspects.

A `Comparison` looks at two trees under an aspect each, of which one sees the same characters and
targets as the other but maybe other places. What looks the same stays the same in all that a
parser does to it: words that are tested for white space and trimmed, drafts that are added to
and finished, and runs of delimiters. -/
namespace InlineMarkdown
open InlineParser

/-- What is seen of a token. -/
def Aspect.token (seen : Aspect) (token : Token Kind) : Token Kind :=
  ⟨token.kind, token.text.map seen.char, seen.span token.span⟩

/-- A run of one kind looks like one. -/
theorem Cursor.runFrom_map (seen : Aspect) (tokens : Array (Token Kind)) (kind : Kind)
    (limit i : Nat) :
    runFrom (tokens.map seen.token) kind limit i =
      (runFrom tokens kind limit i).map seen.token := by
  induction limit generalizing i with
  | zero => rfl
  | succ limit ih =>
    unfold runFrom
    rw [Array.getElem?_map]
    cases tokens[i]? with
    | none => rfl
    | some token =>
      rw [Option.map_some]
      dsimp only
      rw [ih, show (seen.token token).kind = token.kind from rfl]
      split <;> rfl

/-- Two aspects that differ in places at most. -/
structure Comparison where
  seen : Aspect
  seen' : Aspect
  char : seen'.char = seen.char
  target : seen'.target = seen.target

namespace Comparison

/-- Under the same aspect. -/
def same (seen : Aspect) : Comparison := ⟨seen, seen, rfl, rfl⟩

variable (C : Comparison) {word word' : List Char} {nodes nodes' : List Node} {d d' : Draft}
  {token token' : Token Kind}

/-- The nodes look the same. -/
def SameNode (n n' : Node) : Prop := C.seen'.node n' = C.seen.node n

/-- The lists of nodes look the same. -/
def SameNodes (nodes nodes' : List Node) : Prop :=
  nodes'.map C.seen'.node = nodes.map C.seen.node

/-- The drafts look the same. -/
def SameDraft (d d' : Draft) : Prop := C.seen'.draft d' = C.seen.draft d

/-- The words look the same. -/
def SameWord (word word' : List Char) : Prop :=
  word'.map C.seen'.char = word.map C.seen.char

/-- The tokens look the same. -/
structure SameToken (token token' : Token Kind) : Prop where
  kind : token'.kind = token.kind
  text : C.SameWord token.text token'.text
  span : C.seen'.span token'.span = C.seen.span token.span

variable {C}

theorem SameToken.token_eq (h : C.SameToken token token') :
    C.seen'.token token' = C.seen.token token := by
  unfold Aspect.token
  rw [h.kind, h.text, h.span]

/-! ### Words -/

theorem SameNodes.nil : C.SameNodes [] [] := rfl

theorem SameNodes.flattenText (h : C.SameNodes nodes nodes') :
    C.SameWord (flattenText nodes) (flattenText nodes') := by
  unfold SameWord
  rw [← C.seen.flattenText, ← C.seen'.flattenText, h]

namespace SameWord
variable (h : C.SameWord word word')
include h

theorem isEmpty_eq : word'.isEmpty = word.isEmpty := by
  have hmap := congrArg List.isEmpty h
  rwa [List.isEmpty_map, List.isEmpty_map] at hmap

theorem any_isSpace_eq : word'.any isSpace = word.any isSpace := by
  have hmap := congrArg (·.any isSpace) h
  simpa only [List.any_map, Function.comp_def, Aspect.isSpace_char] using hmap

theorem trim : C.SameWord (trim word) (trim word') := by
  unfold SameWord
  rw [← C.seen.trim, ← C.seen'.trim, h]

/-- A name that is blank is one in both. -/
theorem unlessBlank : Option.Rel C.SameWord
    (if (InlineMarkdown.trim word).isEmpty then none else some word)
    (if (InlineMarkdown.trim word').isEmpty then none else some word') := by
  rw [h.trim.isEmpty_eq]
  split
  · exact .none
  · exact .some h

end SameWord

theorem SameNodes.referenceName? {label label' : List Char} (h : C.SameNodes nodes nodes')
    (hlabel : C.SameWord label label') :
    Option.Rel C.SameWord (referenceName? label nodes) (referenceName? label' nodes') := by
  have hname : C.SameWord
      (if (trim label).isEmpty then InlineMarkdown.flattenText nodes else trim label)
      (if (trim label').isEmpty then InlineMarkdown.flattenText nodes' else trim label') := by
    rw [hlabel.trim.isEmpty_eq]
    split
    · exact h.flattenText
    · exact hlabel.trim
  exact hname.unlessBlank

/-! ### Drafts -/

theorem SameDraft.empty : C.SameDraft {} {} := by
  unfold SameDraft
  rw [Aspect.draft_empty, Aspect.draft_empty]

namespace SameDraft
variable (h : C.SameDraft d d')
include h

theorem push {n n' : Node} (hnode : C.SameNode n n') : C.SameDraft (d.push n) (d'.push n') := by
  unfold SameDraft
  rw [Aspect.push, Aspect.push, h, hnode]

theorem pushText {text text' : List Char} {span span' : Span} (htext : C.SameWord text text')
    (hspan : C.seen'.span span' = C.seen.span span) :
    C.SameDraft (d.pushText text span) (d'.pushText text' span') := by
  unfold SameDraft
  rw [Aspect.pushText, Aspect.pushText, h, htext, hspan]

theorem finish : C.SameNodes d.finish d'.finish := by
  unfold SameNodes
  rw [← Aspect.finish, ← Aspect.finish, h]

/-- A token that stands for itself, or for text. -/
theorem own {options options' : InlineOptions} (htoken : C.SameToken token token')
    (hleaf : (leaf? options' token').map C.seen'.node = (leaf? options token).map C.seen.node) :
    C.SameDraft (ownDraft options token d) (ownDraft options' token' d') := by
  unfold ownDraft
  cases hown : leaf? options token with
  | none =>
    rw [hown] at hleaf
    rw [Option.map_eq_none_iff.1 hleaf]
    exact h.pushText htoken.text htoken.span
  | some node =>
    rw [hown] at hleaf
    obtain ⟨node', hown', hnode⟩ := Option.map_eq_some_iff.1 hleaf
    rw [hown']
    exact h.push hnode

theorem run {options options' : InlineOptions} {marker : Marker} {rest rest' : List (Token Kind)}
    (hrun : (token' :: rest').map C.seen'.token = (token :: rest).map C.seen.token)
    (hstrike : marker = .tilde → options'.strikethrough = options.strikethrough) :
    C.SameDraft (runDraft options marker token rest d)
      (runDraft options' marker token' rest' d') := by
  obtain ⟨hfirst, hrest⟩ := List.cons_eq_cons.1 hrun
  have hlength : rest'.length = rest.length := by simpa using congrArg List.length hrest
  have hlast : C.seen'.span (rest'.getLast?.getD token').span =
      C.seen.span (rest.getLast?.getD token).span := by
    have hshown (seen : Aspect) (first : Token Kind) (rest : List (Token Kind)) :
        seen.span (rest.getLast?.getD first).span =
          ((rest.map seen.token).getLast?.getD (seen.token first)).span := by
      rw [List.getLast?_map, Option.getD_map]
      rfl
    rw [hshown, hshown, hrest, hfirst]
  have hstart : C.seen'.place token'.span.start = C.seen.place token.span.start :=
    congrArg (·.span.start) hfirst
  have htext : (marker = .tilde && (rest'.length + 1 < 2 || !options'.strikethrough)) =
      (marker = .tilde && (rest.length + 1 < 2 || !options.strikethrough)) := by
    rw [hlength]
    by_cases htilde : marker = .tilde
    · rw [hstrike htilde]
    · simp [htilde]
  unfold runDraft
  dsimp only
  rw [htext, hlength]
  split
  · exact h.pushText (congrArg (List.map · _) C.char)
      (congrArg₂ Span.mk hstart (Span.mk.inj hlast).2)
  · exact Aspect.resolveUpTo C.char h marker _ _ hstart

end SameDraft

end Comparison
end InlineMarkdown
