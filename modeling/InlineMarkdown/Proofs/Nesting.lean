import InlineMarkdown.Proofs.Atomicity
import InlineMarkdown.Proofs.Pending

/-! Nesting is bounded.

The cursor counts the attempts in progress by hand, one up where an attempt begins and one down
wherever it ends; the room for more of them goes down with each level of content. `Amid` lists
the cursors of a run together with the places where the attempts around them have begun, and
there are as many as the cursor counts (`Amid.depth_eq`), so the room is used up when 64 are in
progress and never before. The trees keep to it: what is below a construct had one level less
of room (`Yields.bracketed_le`). -/
namespace InlineMarkdown
open Attempt

namespace InlineParser
open InlineMarkdown.Frame
variable {parser : InlineParser} {tokens : Array (Token Kind)} {starts : List Nat} {room : Nat}
  {c : Cursor}

/-! ### Attempts in progress -/

/-- The cursors that parses by `parser` over `tokens` come through, with the places where the
attempts in progress have begun, the innermost first, and the room for more. -/
inductive Amid (parser : InlineParser) (tokens : Array (Token Kind)) :
    (starts : List Nat) → (room : Nat) → Cursor → Prop
  /-- At a call from outside. -/
  | call {c : Cursor} : Reachable tokens c →
      Amid parser tokens [] (parser.search.nesting - c.depth) c
  /-- A step further. -/
  | step {starts : List Nat} {room : Nat} {c : Cursor} {token : Token Kind} (draft : Draft) :
      Amid parser tokens starts room c → c.peek = some token → c.abandoned = false →
      Amid parser tokens starts room (parser.step (parser.inside room) token draft c).2
  /-- In an attempt at the current token, at one of the constructs that it may be, after those
  before it have been tried in vain. -/
  | tried {starts : List Nat} {room : Nat} {c d : Cursor} {token : Token Kind} {frame : Frame}
      {before after : List Frame} : Amid parser tokens starts (room + 1) c → c.peek = some token →
      c.abandoned = false → (parser.search.remember = true → c.knownFailure c.position = false) →
      framesAt parser.options token.kind = before ++ frame :: after →
      Tries (parser.atRoom room) before c.descend none d →
      Amid parser tokens (c.position :: starts) room d
  /-- Anywhere else among the tokens, as in front of the content of a construct or behind it. -/
  | move {starts : List Nat} {room q : Nat} {c : Cursor} : Amid parser tokens starts room c →
      q ≤ tokens.size → Amid parser tokens starts room { c with position := q }

theorem Amid.occurs (h : Amid parser tokens starts room c) : Occurs parser tokens room c := by
  induction h with
  | call hreach => exact .call hreach
  | step draft _ htoken hgoing ih => exact .step draft ih htoken hgoing
  | tried _ htoken hgoing _ hframes htries ih => exact .tried ih htoken hgoing hframes htries
  | move _ hq ih => exact .move ih hq

/-- Every attempt in progress has taken up one level of the room. -/
theorem Amid.length_add_room (h : Amid parser tokens starts room c) :
    starts.length + room = parser.search.nesting := by
  induction h with
  | call hreach => rw [hreach.idle.depth, List.length_nil, Nat.zero_add, Nat.sub_zero]
  | step _ _ _ _ ih => exact ih
  | @tried starts room c d _ _ _ _ _ _ _ _ _ _ ih =>
    calc (c.position :: starts).length + room = starts.length + (room + 1) := by
          rw [List.length_cons, Nat.add_right_comm, Nat.add_assoc]
      _ = parser.search.nesting := ih
  | move _ _ ih => exact ih

/-- The cursor counts the attempts in progress. -/
theorem Amid.depth_eq (h : Amid parser tokens starts room c)
    (hnesting : 0 < parser.search.nesting) : c.depth = starts.length := by
  have hdepth := (h.occurs.steady hnesting).nesting
  have hlength := h.length_add_room
  omega

/-- Without room an attempt comes to nothing. -/
theorem attemptAt_none (parser : InlineParser) (kind : Kind) (c : Cursor) :
    (parser.attemptAt none kind c).1 = none := by
  by_cases hframes : framesAt parser.options kind = []
  · rw [attemptAt_of_framesAt_nil _ hframes]
    rfl
  · obtain ⟨_, houtcome⟩ := attemptAt_outcome parser none c hframes
    generalize parser.attemptAt none kind c = ended at houtcome ⊢
    obtain ⟨result, d⟩ := ended
    cases houtcome with
    | matched _ hinner => cases hinner
    | _ => rfl

end InlineParser

/-! ### Constructs below each other -/

/-- A way down through trees: a node of them, then one of its children, and so on. -/
inductive Lineage : (nodes path : List Node) → Prop
  | nil (nodes : List Node) : Lineage nodes []
  | cons {nodes path : List Node} {node : Node} : node ∈ nodes → Lineage node.children path →
      Lineage nodes (node :: path)

open InlineParser

/-- The node is the link that an address among the tokens stands for. -/
def Node.isAutolink (options : InlineOptions) (tokens : Array (Token Kind)) (node : Node) : Bool :=
  options.autolinks &&
    tokens.any fun token => (token.kind == .autolink || token.kind == .url) && node == addressLink token

/-- The node is built by an attempt at a bracket. -/
def Node.isBracketed (options : InlineOptions) (tokens : Array (Token Kind)) (node : Node) : Bool :=
  match node.kind with
  | .image .. | .reference .. | .footnote _ | .citation _ => true
  | .link .. => !node.isAutolink options tokens
  | _ => false

variable {options : InlineOptions} {tokens : Array (Token Kind)} {stands : Nat → Position → Prop}
  {room i k : Nat} {node : Node} {nodes rest path : List Node}

/-- How many constructs at brackets are on the way. -/
def bracketedOn (options : InlineOptions) (tokens : Array (Token Kind)) (path : List Node) : Nat :=
  path.countP (·.isBracketed options tokens)

theorem Lineage.cons_cases (h : Lineage (node :: rest) path) :
    (∃ below, path = node :: below ∧ Lineage node.children below) ∨ Lineage rest path := by
  cases h with
  | nil => exact .inr (.nil _)
  | cons hmem hbelow =>
    rcases List.mem_cons.1 hmem with rfl | hmem
    · exact .inl ⟨_, rfl, hbelow⟩
    · exact .inr (.cons hmem hbelow)

theorem Lineage.eq_nil (h : Lineage [] path) : path = [] := by
  cases h with
  | nil => rfl
  | cons hmem => cases hmem

/-- One more tree does not exceed the bound if what is below its root leaves room for the root. -/
theorem bracketedOn_cons_le {bound : Nat} (h : Lineage (node :: rest) path)
    (hnode : ∀ below, Lineage node.children below →
      bracketedOn options tokens below + (if node.isBracketed options tokens then 1 else 0) ≤ bound)
    (hrest : ∀ path, Lineage rest path → bracketedOn options tokens path ≤ bound) :
    bracketedOn options tokens path ≤ bound := by
  rcases h.cons_cases with ⟨below, rfl, hbelow⟩ | hbehind
  · rw [bracketedOn, List.countP_cons]
    exact hnode below hbelow
  · exact hrest path hbehind

theorem wrapper_isBracketed (marker : Marker) (used : Nat) (span : Span) (children : List Node) :
    Node.isBracketed options tokens ⟨marker.wrapper used, span, children⟩ = false := by
  rcases marker.wrapper_cases used with h | h | ⟨-, h⟩ <;>
  · rw [h]
    rfl

theorem Leaf.isBracketed {token : Token Kind} (h : Leaf options token node)
    (htoken : tokens[i]? = some token) : node.isBracketed options tokens = false := by
  cases h with
  | address hon hkind =>
    have hmem : token ∈ tokens := Array.mem_of_getElem? htoken
    have hauto : (addressLink token).isAutolink options tokens = true := by
      rw [Node.isAutolink, hon, Bool.true_and, Array.any_eq_true']
      exact ⟨token, hmem, by simpa using hkind⟩
    show (!(addressLink token).isAutolink options tokens) = false
    rw [hauto, Bool.not_true]
  | _ => rfl

/-- With room for so many levels, no way down through what tokens yield has more constructs at
brackets on it. -/
theorem Yields.bracketed_le (h : Yields options tokens stands room i k nodes) :
    ∀ path, Lineage nodes path → bracketedOn options tokens path ≤ room := by
  induction h with
  | nil =>
    intro path hpath
    rw [hpath.eq_nil]
    exact Nat.zero_le _
  | text _ _ _ _ _ _ ih =>
    intro path hpath
    refine bracketedOn_cons_le hpath (fun below hbelow => ?_) ih
    rw [hbelow.eq_nil]
    exact Nat.zero_le _
  | @leaf room _ _ token node _ htoken hleaf _ ih =>
    intro path hpath
    refine bracketedOn_cons_le hpath (fun below hbelow => ?_) ih
    have hzero : bracketedOn options tokens below = 0 := by
      rcases hleaf.children with hnil | ⟨_, rfl⟩
      · rw [hnil] at hbelow
        rw [hbelow.eq_nil]
        rfl
      -- Below an address there is its text and nothing else.
      · rcases hbelow.cons_cases with ⟨text, rfl, htext⟩ | hnone
        · rw [htext.eq_nil]
          rfl
        · rw [hnone.eq_nil]
          rfl
    rw [hzero, hleaf.isBracketed htoken]
    exact Nat.zero_le _
  | wrapper _ _ _ _ _ _ ihChildren ih =>
    intro path hpath
    refine bracketedOn_cons_le hpath (fun below hbelow => ?_) ih
    rw [wrapper_isBracketed]
    exact ihChildren below hbelow
  | @bracket room _ _ _ _ _ _ _ content node _ _ hframe _ _ _ hclosing _ ihContent ih =>
    intro path hpath
    refine bracketedOn_cons_le hpath (fun below hbelow => ?_) ih
    have hbound : bracketedOn options tokens below ≤ room := by
      rcases (closing_ends hframe hclosing).children with hnil | hsame
      · rw [hnil] at hbelow
        rw [hbelow.eq_nil]
        exact Nat.zero_le _
      · rw [hsame] at hbelow
        exact ihContent below hbelow
    split <;> omega

/-! ### The bound -/

namespace InlineParser

/-- Whatever is parsed by a call from outside is yielded by the tokens it passes, wherever those
stand. -/
theorem Reachable.yields {c : Cursor} (h : Reachable tokens c) (options : InlineOptions)
    (stop : List Kind) : Yields options tokens (fun _ _ => True) 64 c.position
      (({ options } : InlineParser).parse stop c).2.position
      (({ options } : InlineParser).parse stop c).1 := by
  have hmilestones : Milestones tokens fun _ _ => True :=
    ⟨fun _ => trivial, fun _ => trivial, fun _ _ => trivial⟩
  have hidle := h.idle
  have hparse : ({ options } : InlineParser).parse stop c = atRoom { options } 64 stop c := by
    rw [InlineParser.parse, hidle.depth]
    rfl
  rw [hparse]
  exact (atRoom_yields { options } hmilestones 64 stop c hidle.tokens
    (hidle.tokens ▸ hidle.within)).1

/-- Over any tokens at most 64 attempts are in progress at any time. The cursor counts them, and
one more comes to nothing. So what is parsed by a call from outside is yielded with room for 64
constructs at brackets in each other, and no way down through the trees has more of them on it. -/
theorem nesting_le (options : InlineOptions) (tokens : Array (Token Kind)) :
    let parser : InlineParser := { options }
    (∀ starts room c, Amid parser tokens starts room c →
      starts.length ≤ 64 ∧ c.depth = starts.length ∧
        (starts.length = 64 → (parser.tryImage (parser.inside room) c).1 = none ∧
          (parser.tryBracket (parser.inside room) c).1 = none)) ∧
    ∀ c, Reachable tokens c → ∀ stop,
      let parsed := parser.parse stop c
      Yields options tokens (fun _ _ => True) 64 c.position parsed.2.position parsed.1 ∧
        ∀ path, Lineage parsed.1 path → path.countP (·.isBracketed options tokens) ≤ 64 := by
  intro parser
  constructor
  · intro starts room c hamid
    have hlength : starts.length + room = 64 := hamid.length_add_room
    refine ⟨by omega, hamid.depth_eq (Nat.succ_pos 63), fun hfull => ?_⟩
    obtain rfl : room = 0 := by omega
    exact ⟨parser.attemptAt_none .exclamation c, parser.attemptAt_none .leftBracket c⟩
  · intro c hreach stop parsed
    have hyields := hreach.yields options stop
    exact ⟨hyields, fun path hpath => hyields.bracketed_le path hpath⟩

/-- A link in a link: the attempt at the inner one is in progress in that at the outer one, and
both are on the way down to the word. -/
theorem nesting_le_links :
    let parser : InlineParser := {}
    let tokens := (tokenize "[[a](b)](c)".toList).toArray
    (∃ room c, Amid parser tokens [1, 0] room c ∧ c.depth = 2) ∧
      ∃ path, Lineage (parser.parse [] { tokens }).1 path ∧
        path.map (·.isBracketed {} tokens) = [true, true, false] ∧
        path.countP (·.isBracketed {} tokens) ≤ 64 := by
  intro parser tokens
  obtain ⟨hattempts, htrees⟩ := nesting_le {} tokens
  constructor
  · have hframes : framesAt parser.options .leftBracket = [] ++ footnote :: [citation, link] := rfl
    have hfirst : ({ tokens } : Cursor).peek = some ⟨.leftBracket, ['['], ⟨⟨0, 0, 0⟩, ⟨0, 1, 1⟩⟩⟩ := by
      decide +kernel
    have hsecond : ({ tokens, position := 1, depth := 1 } : Cursor).peek =
        some ⟨.leftBracket, ['['], ⟨⟨0, 1, 1⟩, ⟨0, 2, 2⟩⟩⟩ := by
      decide +kernel
    have houter : Amid parser tokens [0] 63 { tokens, depth := 1 } :=
      .tried (.call .fresh) hfirst rfl (fun _ => IndexSet.contains_empty 0) hframes (.exhausted _)
    have hinner : Amid parser tokens [1, 0] 62 { tokens, position := 1, depth := 2 } :=
      .tried (houter.move (by decide +kernel)) hsecond rfl (fun _ => IndexSet.contains_empty 1) hframes
        (.exhausted _)
    exact ⟨62, _, hinner, (hattempts _ _ _ hinner).2.1⟩
  · let word : Node := Node.ofText ['a'] ⟨⟨0, 2, 2⟩, ⟨0, 3, 3⟩⟩
    let inner : Node := ⟨.link ['b'] [], ⟨⟨0, 1, 1⟩, ⟨0, 7, 7⟩⟩, [word]⟩
    let outer : Node := ⟨.link ['c'] [], ⟨⟨0, 0, 0⟩, ⟨0, 11, 11⟩⟩, [inner]⟩
    have hparse : (parser.parse [] { tokens }).1 = [outer] := by decide +kernel
    have hpath : Lineage (parser.parse [] { tokens }).1 [outer, inner, word] := by
      rw [hparse]
      exact .cons (List.mem_singleton.2 rfl) (.cons (List.mem_singleton.2 rfl)
        (.cons (List.mem_singleton.2 rfl) (.nil _)))
    exact ⟨_, hpath, by decide +kernel, (htrees _ .fresh []).2 _ hpath⟩

end InlineParser
end InlineMarkdown
