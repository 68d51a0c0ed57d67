import InlineMarkdown.Proofs.Moves

/-! Constructs at brackets, seen from outside.

What opens and what closes a construct only moves the cursor; all that happens in
between is one parse of the content. So a construct is known by a few facts about
positions: `Frame.Regular` says that its opening passes the bracket and at most one
more token, and that its closing starts with the bracket that ends the content. -/
namespace InlineMarkdown
open Attempt

/-- The option for what is tried at a bracket. -/
def Construct.isOn (options : InlineOptions) : Construct → Bool
  | .image => options.images
  | .footnote => options.footnotes
  | .citation => options.citations
  | .link => options.links
  | .bracket => options.footnotes || options.citations || options.links

namespace InlineParser

/-! ### The parts of constructs -/

theorem destination_moves : Moves destination :=
  (expect_moves _).bind fun _ => (rawUntil_moves _).bind fun _ =>
    (expect_moves _).bind fun _ => Moves.ofOption _

theorem nodeSince_moves (start : Nat) (kind : NodeKind) (children : List Node) :
    Moves (nodeSince start kind children) :=
  Moves.look fun _ => rfl

theorem identifier_moves (content : List Node) : Moves (identifier content) :=
  (expect_moves _).bind fun _ => Moves.ite Moves.fail (Moves.pure _)

theorem atSign_eq_consume :
    atSign = consume fun token => decide (token.kind = .text) && token.text == ['@'] := by
  funext c
  rcases h : c.peek with _ | token <;> simp [atSign, consume, h]

end InlineParser

/-! ### Regular constructs -/

/-- The token at `p` has this kind. -/
def KindAt (tokens : Array (Token Kind)) (p : Nat) (kind : Kind) : Prop :=
  ∃ token, tokens[p]? = some token ∧ token.kind = kind

/-- How the content of a construct that starts at `p` may start at `q`: behind the
bracket, or behind one more token that a parse of the content would pass as text;
behind the bracket of an image. -/
inductive Inside (tokens : Array (Token Kind)) (p : Nat) : Nat → Prop
  | bracket : KindAt tokens p .leftBracket → Inside tokens p (p + 1)
  | marked {kind : Kind} : KindAt tokens p .leftBracket → KindAt tokens (p + 1) kind →
      kind = .caret ∨ kind = .text → Inside tokens p (p + 2)
  | image : KindAt tokens p .exclamation → KindAt tokens (p + 1) .leftBracket →
      Inside tokens p (p + 2)

/-- What is common to all constructs at brackets. -/
structure Frame.Regular (frame : Frame) : Prop where
  opens : Moves frame.opening
  closes (start : Nat) (content : List Node) : Moves (frame.closing start content)
  inside {tokens : Array (Token Kind)} {p q : Nat} :
    frame.opening.view tokens p = (some (), q) → Inside tokens p q
  bracket {tokens : Array (Token Kind)} {start q e : Nat} {content : List Node} {node : Node} :
    (frame.closing start content).view tokens q = (some node, e) →
      KindAt tokens q .rightBracket ∧ q < e

theorem Inside.lt {tokens : Array (Token Kind)} {p q : Nat} (h : Inside tokens p q) : p < q := by
  cases h <;> omega

namespace InlineParser

/-- A closing that begins with the closing bracket. -/
theorem bracket_of_expect {α : Type} {k : Unit → Attempt α} {tokens : Array (Token Kind)}
    {q e : Nat} {x : α} (hk : Moves (k ()))
    (h : (expect .rightBracket >>= k).view tokens q = (some x, e)) :
    KindAt tokens q .rightBracket ∧ q < e := by
  obtain ⟨_, r, hexpect, hrest⟩ := view_bind_eq_some (expect_moves _) h
  obtain ⟨rfl, hkind⟩ := view_expect_eq_some hexpect
  have hforward := hk.forward tokens (q + 1)
  rw [hrest] at hforward
  exact ⟨hkind, hforward⟩

theorem bracket_of_identifier {content : List Node} {k : List Char → Attempt Node}
    {tokens : Array (Token Kind)} {q e : Nat} {node : Node} (hk : ∀ word, Moves (k word))
    (h : (identifier content >>= k).view tokens q = (some node, e)) :
    KindAt tokens q .rightBracket ∧ q < e := by
  obtain ⟨word, r, hword, hrest⟩ := view_bind_eq_some (identifier_moves content) h
  obtain ⟨hkind, hlt⟩ := bracket_of_expect (Moves.ite Moves.fail (Moves.pure _)) hword
  have hforward := (hk word).forward tokens r
  rw [hrest] at hforward
  exact ⟨hkind, Nat.lt_of_lt_of_le hlt hforward⟩

theorem image_regular : image.Regular where
  opens := (expect_moves _).bind fun _ => expect_moves _
  closes _ _ := (expect_moves _).bind fun _ => destination_moves.bind fun _ => nodeSince_moves ..
  inside h := by
    obtain ⟨_, r, hfirst, hsecond⟩ := view_bind_eq_some (expect_moves _) h
    obtain ⟨rfl, hmark⟩ := view_expect_eq_some hfirst
    obtain ⟨rfl, hbracket⟩ := view_expect_eq_some hsecond
    exact .image hmark hbracket
  bracket h := bracket_of_expect (destination_moves.bind fun _ => nodeSince_moves ..) h

theorem footnote_regular : footnote.Regular where
  opens := (expect_moves _).bind fun _ => expect_moves _
  closes _ _ := (identifier_moves _).bind fun _ => nodeSince_moves ..
  inside h := by
    obtain ⟨_, r, hfirst, hsecond⟩ := view_bind_eq_some (expect_moves _) h
    obtain ⟨rfl, hbracket⟩ := view_expect_eq_some hfirst
    obtain ⟨rfl, hcaret⟩ := view_expect_eq_some hsecond
    exact .marked hbracket hcaret (.inl rfl)
  bracket h := bracket_of_identifier (fun _ => nodeSince_moves ..) h

theorem citation_regular : citation.Regular where
  opens := (expect_moves _).bind fun _ => atSign_eq_consume ▸ consume_moves _
  closes _ _ := (identifier_moves _).bind fun _ => nodeSince_moves ..
  inside h := by
    obtain ⟨_, r, hfirst, hsecond⟩ := view_bind_eq_some (expect_moves _) h
    obtain ⟨rfl, hbracket⟩ := view_expect_eq_some hfirst
    rw [atSign_eq_consume] at hsecond
    obtain ⟨rfl, token, htoken, haccept⟩ := view_consume_eq_some hsecond
    have htext : token.kind = .text := of_decide_eq_true (Bool.and_eq_true_iff.1 haccept).1
    exact .marked hbracket ⟨token, htoken, htext⟩ (.inr rfl)
  bracket h := bracket_of_identifier (fun _ => nodeSince_moves ..) h

/-- What follows the closing bracket of a link. -/
theorem linkTail_moves (start : Nat) (children : List Node) :
    Moves (do
      if (← Attempt.look (·.isAt .leftParen)) then
        let (url, title) ← destination
        nodeSince start (.link url title) children
      else
        Attempt.expect .leftBracket
        let label ← Attempt.rawUntil .rightBracket
        Attempt.expect .rightBracket
        let name ← Attempt.ofOption (referenceName? label children)
        nodeSince start (.reference name [] []) children) := by
  refine (Moves.look fun _ => rfl).bind fun _ => Moves.ite ?_ ?_
  · exact destination_moves.bind fun _ => nodeSince_moves ..
  · exact (expect_moves _).bind fun _ => (rawUntil_moves _).bind fun _ =>
      (expect_moves _).bind fun _ => (Moves.ofOption _).bind fun _ => nodeSince_moves ..

theorem link_regular : link.Regular where
  opens := expect_moves _
  closes start content := (expect_moves _).bind fun _ => linkTail_moves start content
  inside h := by
    obtain ⟨rfl, hbracket⟩ := view_expect_eq_some h
    exact .bracket hbracket
  bracket h := bracket_of_expect (linkTail_moves ..) h

/-! ### Which constructs a token may start -/

/-- The constructs that are tried at a token of this kind. -/
def framesAt (options : InlineOptions) : Kind → List Frame
  | .exclamation => if options.images then [image] else []
  | .leftBracket => bracketFrames options
  | _ => []

theorem framesAt_cases {options : InlineOptions} {kind : Kind} {frame : Frame}
    (h : frame ∈ framesAt options kind) :
    frame = image ∨ frame = footnote ∨ frame = citation ∨ frame = link := by
  unfold framesAt at h
  split at h
  · split at h <;> simp at h
    exact .inl h
  · unfold bracketFrames at h
    simp only [List.mem_append] at h
    rcases h with (h | h) | h <;> split at h <;> simp at h <;> simp [h]
  · simp at h

theorem framesAt_regular {options : InlineOptions} {kind : Kind} {frame : Frame}
    (h : frame ∈ framesAt options kind) : frame.Regular := by
  rcases framesAt_cases h with rfl | rfl | rfl | rfl
  · exact image_regular
  · exact footnote_regular
  · exact citation_regular
  · exact link_regular

theorem isOn_of_mem_framesAt {options : InlineOptions} {kind : Kind} {frame : Frame}
    (h : frame ∈ framesAt options kind) :
    frame.construct.isOn options = true := by
  unfold framesAt at h
  split at h
  · split at h
    · rename_i himages
      obtain rfl := List.mem_singleton.1 h
      exact himages
    · cases h
  · simp only [bracketFrames, List.mem_append, List.mem_ite_nil_right, List.mem_singleton] at h
    rcases h with (⟨hon, rfl⟩ | ⟨hon, rfl⟩) | ⟨hon, rfl⟩ <;> exact hon
  · cases h

end InlineParser
end InlineMarkdown
