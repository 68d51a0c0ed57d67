import InlineMarkdown.Proofs.Boundary
import InlineMarkdown.Proofs.Joining
import InlineMarkdown.Proofs.Placement

/-! What tokens may become.

`Yields` is the grammar behind the parser: it relates a stretch of tokens to the nodes that
the parser may make of it, where each token is used once. Tokens may be literal, one by one or
several at a time, or a node of their own; a pair of runs of markers wraps what is between
them; a construct at a bracket is an opening, content and a closing, and needs room for
another level. The relation leaves open which of this the parser chooses. What stretches
yield can be put together and taken apart (`Yields.append`, `Yields.split`), and joining
texts keeps it (`Yields.coalesce`). -/
namespace InlineMarkdown
open InlineParser

/-! ### Literal tokens -/

/-- What a token says where it is literal: a delimiter is its character whatever its text. -/
def Token.literal (token : Token Kind) : List Char :=
  match token.kind with
  | .asterisk => [Marker.asterisk.char]
  | .underscore => [Marker.underscore.char]
  | .tilde => [Marker.tilde.char]
  | _ => token.text

theorem Token.literal_of_marker {token : Token Kind} {marker : Marker}
    (h : token.kind = marker.kind) : token.literal = [marker.char] := by
  cases marker <;> simp [literal, h, Marker.kind]

theorem Token.literal_of_ne {token : Token Kind} (h : ∀ marker : Marker, token.kind ≠ marker.kind) :
    token.literal = token.text := by
  have hasterisk := h .asterisk
  have hunderscore := h .underscore
  have htilde := h .tilde
  unfold literal
  split <;> simp_all [Marker.kind]

/-- What the tokens from index `i` up to index `j` say where they are literal. -/
def literal (tokens : Array (Token Kind)) (i j : Nat) : List Char :=
  ((tokens.toList.drop i).take (j - i)).flatMap Token.literal

/-- From index `i` on there are `count` tokens of the marker. -/
def Run (tokens : Array (Token Kind)) (marker : Marker) (i count : Nat) : Prop :=
  ∀ j, i ≤ j → j < i + count → KindAt tokens j marker.kind

section Literal
variable {tokens : Array (Token Kind)} {i j k m n : Nat} {marker : Marker}

theorem literal_self (tokens : Array (Token Kind)) (i : Nat) : literal tokens i i = [] := by
  simp [literal]

/-- Two stretches of tokens in a row are one. -/
theorem stretch_append (tokens : Array (Token Kind)) (hij : i ≤ j) (hjk : j ≤ k) :
    (tokens.toList.drop i).take (j - i) ++ (tokens.toList.drop j).take (k - j) =
      (tokens.toList.drop i).take (k - i) := by
  have hdrop : tokens.toList.drop j = (tokens.toList.drop i).drop (j - i) := by
    rw [List.drop_drop, Nat.add_sub_cancel' hij]
  have hsplit : k - i = (j - i) + (k - j) := by omega
  rw [hdrop, hsplit, List.take_add]

theorem stretch_succ {token : Token Kind} (h : tokens[i]? = some token) :
    (tokens.toList.drop i).take (i + 1 - i) = [token] := by
  obtain ⟨hlt, hget⟩ := Array.getElem?_eq_some_iff.1 h
  rw [Nat.add_sub_cancel_left, List.drop_eq_getElem_cons (by simpa using hlt)]
  simp [hget]

theorem literal_append (hij : i ≤ j) (hjk : j ≤ k) :
    literal tokens i j ++ literal tokens j k = literal tokens i k := by
  unfold literal
  rw [← stretch_append tokens hij hjk, List.flatMap_append]

theorem literal_succ {token : Token Kind} (h : tokens[i]? = some token) :
    literal tokens i (i + 1) = token.literal := by
  unfold literal
  rw [stretch_succ h, List.flatMap_singleton]

theorem Run.split (h : Run tokens marker i (m + n)) :
    Run tokens marker i m ∧ Run tokens marker (i + m) n :=
  ⟨fun j hi hj => h j hi (by omega), fun j hi hj => h j (by omega) (by omega)⟩

theorem Run.le_size (h : Run tokens marker i n) (hn : 0 < n) : i + n ≤ tokens.size := by
  obtain ⟨token, htoken, -⟩ := h (i + n - 1) (by omega) (by omega)
  have hlt := (Array.getElem?_eq_some_iff.1 htoken).1
  omega

theorem Run.eofFree (h : Run tokens marker i n) : EofFree tokens i (i + n) := by
  intro j hi hj token htoken
  obtain ⟨other, hother, hkind⟩ := h j hi hj
  obtain rfl := Option.some.inj (htoken.symm.trans hother)
  cases marker <;> simp [Token.isEof, TokenKind.isEof, hkind, Marker.kind]

/-- A run of markers is literal as what the marker's character repeats. -/
theorem Run.literal (h : Run tokens marker i n) : literal tokens i (i + n) = marker.run n := by
  induction n with
  | zero => exact literal_self tokens i
  | succ n ih =>
    obtain ⟨hfront, hlast⟩ := h.split
    obtain ⟨token, htoken, hkind⟩ := hlast (i + n) (Nat.le_refl _) (Nat.lt_succ_self _)
    rw [← Nat.add_assoc, ← literal_append (Nat.le_add_right i n) (Nat.le_add_right (i + n) 1),
      ih hfront, literal_succ htoken, Token.literal_of_marker hkind]
    exact marker.run_append n 1

end Literal

/-! ### Places of tokens -/

/-- `stands p` holds of the places where the token at index `p` may start: where it does, where
the one in front of it stops, and one character behind a marker. -/
structure Milestones (tokens : Array (Token Kind)) (stands : Nat → Position → Prop) : Prop where
  start {p : Nat} {token : Token Kind} : tokens[p]? = some token → stands p token.span.start
  stop {p : Nat} {token : Token Kind} : tokens[p]? = some token → stands (p + 1) token.span.stop
  next {p : Nat} {marker : Marker} {place : Position} : KindAt tokens p marker.kind →
    stands p place → stands (p + 1) (place.next marker.char)

/-- Tokens over a source stand at their marks. -/
theorem Laid.milestones {source : List Char} {tokens : Array (Token Kind)} {mark : Nat → Position}
    (h : Laid source tokens mark) : Milestones tokens fun p place => place = mark p where
  start htoken := by rw [h.span htoken]
  stop htoken := by rw [h.span htoken]
  next {p marker place} hkind hplace := by
    rw [(h.char hkind marker.ofChar?_char).stop_eq, hplace]
    rfl

variable {options : InlineOptions} {tokens : Array (Token Kind)} {stands : Nat → Position → Prop}
  {room i j k : Nat} {node : Node} {nodes rest : List Node}

theorem Milestones.run (h : Milestones tokens stands) {marker : Marker} {n : Nat} {place : Position}
    (hrun : Run tokens marker i n) (hplace : stands i place) :
    stands (i + n) (place.advance (marker.run n)) := by
  induction n generalizing i place with
  | zero => exact hplace
  | succ n ih =>
    rw [Nat.add_comm] at hrun
    have hfirst := h.next (hrun i (Nat.le_refl i) (by omega)) hplace
    have hrest := ih hrun.split.2 hfirst
    rwa [Nat.add_assoc, Nat.add_comm 1 n] at hrest

/-! ### Nodes of tokens and of constructs -/

/-- The nodes that tokens are on their own. -/
inductive Leaf (options : InlineOptions) (token : Token Kind) : Node → Prop
  | code : token.kind = .inlineCode →
      Leaf options token ⟨.inlineCode (stripFences token.text backtick), token.span, []⟩
  | formula : options.formulas = true → token.kind = .formula →
      Leaf options token ⟨.formula (stripFences token.text '$'), token.span, []⟩
  | html : options.html = true →
      token.kind ∈ [Kind.htmlTag, .htmlBlock, .htmlUnclosedBlock, .htmlEntity] →
      Leaf options token ⟨.html token.text, token.span, []⟩
  | address : options.autolinks = true → token.kind = .autolink ∨ token.kind = .url →
      Leaf options token (addressLink token)

theorem leaf_of_leaf? {token : Token Kind} (h : leaf? options token = some node) :
    Leaf options token node := by
  unfold leaf? at h
  split at h <;> rename_i hkind <;>
    simp only [Option.ite_none_right_eq_some, Option.some.injEq, reduceCtorEq] at h
  case h_1 =>
    subst h
    exact .code hkind
  case h_2 =>
    obtain ⟨hon, rfl⟩ := h
    exact .formula hon hkind
  case h_7 | h_8 =>
    obtain ⟨hon, rfl⟩ := h
    exact .address hon (by simp [hkind])
  all_goals
    obtain ⟨hon, rfl⟩ := h
    exact .html hon (by simp [hkind])

namespace Leaf
variable {token : Token Kind}

theorem isText (h : Leaf options token node) : node.isText = false := by
  cases h <;> rfl

/-- Only an address has something below it, its text. -/
theorem children (h : Leaf options token node) : node.children = [] ∨
    (token.kind = .autolink ∨ token.kind = .url) ∧ node = addressLink token := by
  cases h with
  | address _ hkind => exact .inr ⟨hkind, rfl⟩
  | _ => exact .inl rfl

theorem tidy (h : Leaf options token node) : Tidy node.children := by
  cases h with
  | address => exact .cons .nil .nil nofun
  | _ => exact .nil

end Leaf

theorem Frame.Ends.isText {frame : Frame} {content : List Node} {start e : Nat}
    (h : frame.Ends tokens start e content node) : node.isText = false := by
  obtain ⟨_, _, hbuilds, rfl⟩ := h
  cases hbuilds <;> rfl

/-- A construct's node has the content below it or nothing. -/
theorem Frame.Ends.children {frame : Frame} {content : List Node} {start e : Nat}
    (h : frame.Ends tokens start e content node) : node.children = [] ∨ node.children = content := by
  obtain ⟨_, _, hbuilds, rfl⟩ := h
  cases hbuilds
  case link | reference => exact .inr rfl
  all_goals exact .inl rfl

/-! ### The grammar -/

/-- With room for so many levels, the tokens from index `i` up to index `j` may become these
nodes. Every text stands where its tokens do. -/
inductive Yields (options : InlineOptions) (tokens : Array (Token Kind))
    (stands : Nat → Position → Prop) : (room i j : Nat) → List Node → Prop
  | nil (room i : Nat) : Yields options tokens stands room i i []
  /-- Literal tokens, one at least, in front of the end of the input. -/
  | text {room i j k : Nat} {span : Span} {rest : List Node} : i < j → j ≤ tokens.size →
      EofFree tokens i j → stands i span.start → stands j span.stop →
      Yields options tokens stands room j k rest →
      Yields options tokens stands room i k (Node.ofText (literal tokens i j) span :: rest)
  /-- A token that is a node of its own. -/
  | leaf {room i k : Nat} {token : Token Kind} {node : Node} {rest : List Node} :
      tokens[i]? = some token → Leaf options token node →
      Yields options tokens stands room (i + 1) k rest →
      Yields options tokens stands room i k (node :: rest)
  /-- What is between two runs of as many markers as such runs use up. -/
  | wrapper {room i j k opened closing used : Nat} {marker : Marker} {span : Span}
      {children rest : List Node} : (marker = .tilde → options.strikethrough = true) →
      marker.used? opened closing = some used → Run tokens marker i used →
      Yields options tokens stands room (i + used) j children → Run tokens marker j used →
      Yields options tokens stands room (j + used) k rest →
      Yields options tokens stands room i k (⟨marker.wrapper used, span, children⟩ :: rest)
  /-- A construct at a bracket. -/
  | bracket {room i p q e k : Nat} {kind : Kind} {frame : Frame} {content : List Node}
      {node : Node} {rest : List Node} : KindAt tokens i kind → frame ∈ framesAt options kind →
      frame.opening.view tokens i = (some (), p) →
      Yields options tokens stands room p q content → Tidy content →
      (frame.closing i content).view tokens q = (some node, e) →
      Yields options tokens stands (room + 1) e k rest →
      Yields options tokens stands (room + 1) i k (node :: rest)

/-! ### Stretches in a row -/

namespace Yields

theorem append {others : List Node} (h : Yields options tokens stands room i j nodes)
    (h' : Yields options tokens stands room j k others) :
    Yields options tokens stands room i k (nodes ++ others) := by
  induction h with
  | nil => exact h'
  | text hlt hle heof hstart hstop _ ih => exact .text hlt hle heof hstart hstop (ih h')
  | leaf htoken hleaf _ ih => exact .leaf htoken hleaf (ih h')
  | wrapper hon hused hopen hchildren hclose _ _ ih =>
    exact .wrapper hon hused hopen hchildren hclose (ih h')
  | bracket hkind hframe hopening hcontent htidy hclosing _ _ ih =>
    exact .bracket hkind hframe hopening hcontent htidy hclosing (ih h')

/-- The first node has a stretch of its own. -/
theorem uncons (h : Yields options tokens stands room i k (node :: rest)) :
    ∃ j, Yields options tokens stands room i j [node] ∧ Yields options tokens stands room j k rest := by
  cases h with
  | text hlt hle heof hstart hstop hrest => exact ⟨_, .text hlt hle heof hstart hstop (.nil ..), hrest⟩
  | leaf htoken hleaf hrest => exact ⟨_, .leaf htoken hleaf (.nil ..), hrest⟩
  | wrapper hon hused hopen hchildren hclose hrest =>
    exact ⟨_, .wrapper hon hused hopen hchildren hclose (.nil ..), hrest⟩
  | bracket hkind hframe hopening hcontent htidy hclosing hrest =>
    exact ⟨_, .bracket hkind hframe hopening hcontent htidy hclosing (.nil ..), hrest⟩

theorem eq_of_nil (h : Yields options tokens stands room i j []) : i = j := by
  cases h
  rfl

theorem split {front behind : List Node}
    (h : Yields options tokens stands room i k (front ++ behind)) :
    ∃ j, Yields options tokens stands room i j front ∧
      Yields options tokens stands room j k behind := by
  induction front generalizing i with
  | nil => exact ⟨i, .nil .., h⟩
  | cons node front ih =>
    obtain ⟨m, hnode, hrest⟩ := h.uncons
    obtain ⟨j, hfront, hbehind⟩ := ih hrest
    exact ⟨j, hnode.append hfront, hbehind⟩

/-- A text is what the tokens of its stretch say. -/
theorem uncons_text (h : Yields options tokens stands room i k (node :: rest))
    (htext : node.isText = true) :
    ∃ j, i < j ∧ j ≤ tokens.size ∧ EofFree tokens i j ∧ stands i node.span.start ∧
      stands j node.span.stop ∧ node = Node.ofText (literal tokens i j) node.span ∧
      Yields options tokens stands room j k rest := by
  cases h with
  | text hlt hle heof hstart hstop hrest => exact ⟨_, hlt, hle, heof, hstart, hstop, rfl, hrest⟩
  | leaf _ hleaf _ =>
    rw [hleaf.isText] at htext
    cases htext
  | wrapper =>
    rw [wrapper_isText] at htext
    cases htext
  | bracket _ hframe _ _ _ hclosing _ =>
    rw [(closing_ends hframe hclosing).isText] at htext
    cases htext

/-! ### Joined texts -/

/-- A text in front of others is joined to the first of them if that is text too. -/
theorem joinOnto_text {span : Span} (hlt : i < j) (hle : j ≤ tokens.size)
    (heof : EofFree tokens i j) (hstart : stands i span.start) (hstop : stands j span.stop)
    (hrest : Yields options tokens stands room j k rest) :
    Yields options tokens stands room i k
      (joinOnto (Node.ofText (literal tokens i j) span) rest) := by
  cases rest with
  | nil => exact .text hlt hle heof hstart hstop hrest
  | cons next rest =>
    rw [joinOnto_cons]
    cases hjoin : (Node.ofText (literal tokens i j) span).join? next with
    | none => exact .text hlt hle heof hstart hstop hrest
    | some joined =>
      obtain ⟨own, text, hown, htext, rfl⟩ := Node.join?_eq_some.1 hjoin
      obtain ⟨m, hlt', hle', heof', -, hstop', hnext, hbehind⟩ :=
        hrest.uncons_text (Node.isText_iff.2 ⟨text, htext⟩)
      rw [hnext] at htext
      obtain rfl : literal tokens i j = own := by simpa [Node.ofText] using hown
      obtain rfl : literal tokens j m = text := by simpa [Node.ofText] using htext
      rw [literal_append (Nat.le_of_lt hlt) (Nat.le_of_lt hlt')]
      exact .text (Nat.lt_trans hlt hlt') hle' (heof.trans heof') hstart hstop' hbehind

/-- Joining texts changes neither a token's own node nor what is built at a bracket, where the
content has been joined before. -/
theorem coalesce (h : Yields options tokens stands room i k nodes) :
    Yields options tokens stands room i k (coalesce nodes) := by
  induction h with
  | nil => exact .nil ..
  | text hlt hle heof hstart hstop _ ih =>
    rw [coalesce_cons]
    exact joinOnto_text hlt hle heof hstart hstop ih
  | leaf htoken hleaf _ ih =>
    rw [coalesce_cons, Node.coalesce_of_tidy hleaf.tidy, joinOnto_of_isText_eq_false hleaf.isText]
    exact .leaf htoken hleaf ih
  | wrapper hon hused hopen _ hclose _ ihChildren ih =>
    rw [coalesce_cons, Node.coalesce_eq, joinOnto_of_isText_eq_false (wrapper_isText ..)]
    exact .wrapper hon hused hopen ihChildren hclose ih
  | bracket hkind hframe hopening hcontent htidy hclosing _ _ ih =>
    have hends := closing_ends hframe hclosing
    have hbelow : Tidy _ := hends.children.elim (fun h => h ▸ .nil) fun h => h ▸ htidy
    rw [coalesce_cons, Node.coalesce_of_tidy hbelow, joinOnto_of_isText_eq_false hends.isText]
    exact .bracket hkind hframe hopening hcontent htidy hclosing ih

end Yields

/-! ### Trees at any depth -/

/-- What holds of literal text, of what tokens are on their own, of what is wrapped and of what is
built at brackets, whatever is below them, holds of every node at any depth. -/
theorem Yields.forall_nodes {P : Node → Prop}
    (text : ∀ {i j : Nat} {span : Span}, i < j → j ≤ tokens.size → EofFree tokens i j →
      P (Node.ofText (literal tokens i j) span))
    (leaf : ∀ {i : Nat} {token : Token Kind} {node : Node}, tokens[i]? = some token →
      Leaf options token node → ∀ n ∈ treeNodes [node], P n)
    (wrapper : ∀ {marker : Marker} {used : Nat} {span : Span} {children : List Node},
      (marker = .tilde → options.strikethrough = true) → P ⟨marker.wrapper used, span, children⟩)
    (bracket : ∀ {i q e : Nat} {kind : Kind} {frame : Frame} {content : List Node} {node : Node},
      KindAt tokens i kind → frame ∈ framesAt options kind →
      (frame.closing i content).view tokens q = (some node, e) → P node)
    (h : Yields options tokens stands room i k nodes) : ∀ node ∈ treeNodes nodes, P node := by
  induction h with
  | nil => exact nofun
  | text hlt hle heof _ _ _ ih =>
    exact forall_mem_treeNodes_cons.2 ⟨text hlt hle heof, nofun, ih⟩
  | leaf htoken hleaf _ ih =>
    obtain ⟨hnode, hbelow, -⟩ := forall_mem_treeNodes_cons.1 (leaf htoken hleaf)
    exact forall_mem_treeNodes_cons.2 ⟨hnode, hbelow, ih⟩
  | wrapper hon _ _ _ _ _ ihChildren ih =>
    exact forall_mem_treeNodes_cons.2 ⟨wrapper hon, ihChildren, ih⟩
  | bracket hkind hframe _ _ _ hclosing _ ihContent ih =>
    refine forall_mem_treeNodes_cons.2 ⟨bracket hkind hframe hclosing, ?_, ih⟩
    rcases (closing_ends hframe hclosing).children with hnil | hsame
    · rw [hnil]
      exact nofun
    · rw [hsame]
      exact ihContent

/-- What is below the node is yielded as well, or the node is the link of an address. -/
inductive Node.Derived (options : InlineOptions) (tokens : Array (Token Kind))
    (stands : Nat → Position → Prop) (node : Node) : Prop
  | yields {room i j : Nat} : Yields options tokens stands room i j node.children →
      Node.Derived options tokens stands node
  | address {p : Nat} {token : Token Kind} : tokens[p]? = some token →
      token.kind = .autolink ∨ token.kind = .url → node = addressLink token →
      Node.Derived options tokens stands node

theorem Node.derived_of_nil (h : node.children = []) : node.Derived options tokens stands := by
  have hnil : Yields options tokens stands 0 0 0 node.children := h ▸ .nil 0 0
  exact .yields hnil

theorem Yields.derived (h : Yields options tokens stands room i k nodes) :
    ∀ node ∈ treeNodes nodes, node.Derived options tokens stands := by
  induction h with
  | nil => exact nofun
  | text _ _ _ _ _ _ ih =>
    exact forall_mem_treeNodes_cons.2 ⟨Node.derived_of_nil rfl, nofun, ih⟩
  | leaf htoken hleaf _ ih =>
    rcases hleaf.children with hnil | ⟨hkind, rfl⟩
    · exact forall_mem_treeNodes_cons.2 ⟨Node.derived_of_nil hnil, hnil ▸ nofun, ih⟩
    · refine forall_mem_treeNodes_cons.2 ⟨.address htoken hkind rfl, ?_, ih⟩
      exact forall_mem_treeNodes_cons.2 ⟨Node.derived_of_nil rfl, nofun, nofun⟩
  | wrapper _ _ _ hchildren _ _ ihChildren ih =>
    exact forall_mem_treeNodes_cons.2 ⟨.yields hchildren, ihChildren, ih⟩
  | bracket _ hframe _ hcontent _ hclosing _ ihContent ih =>
    rcases (closing_ends hframe hclosing).children with hnil | hsame
    · exact forall_mem_treeNodes_cons.2 ⟨Node.derived_of_nil hnil, hnil ▸ nofun, ih⟩
    · rw [← hsame] at hcontent ihContent
      exact forall_mem_treeNodes_cons.2 ⟨.yields hcontent, ihContent, ih⟩

end InlineMarkdown
