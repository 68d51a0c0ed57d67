import InlineMarkdown.Proofs.Enclosed

/-! How high trees are.

What walks over a tree goes one call deeper for each level, so the height of the trees bounds
how deep it goes. Two things put one node above another. A construct at a bracket takes up one
level of the room there is for nesting. A pair of runs takes up a delimiter on either side, and
of that there is no end: delimiters are matched in a loop, one pair after the other, in which the
nesting is not counted. So the trees are as high as the room and half the delimiters allow
(`parseMarkdown_height_le`), and no bound holds for all sources (`parseMarkdown_height_unbounded`):
a word between two long enough runs is too high for any. -/
namespace InlineMarkdown
open InlineParser

mutual

/-- The number of levels of a tree. -/
def Node.height : Node → Nat
  | ⟨_, _, children⟩ => heights children + 1

/-- The number of levels of the highest of some trees. -/
def heights : List Node → Nat
  | [] => 0
  | node :: rest => max node.height (heights rest)

end

theorem Node.height_eq (node : Node) : node.height = heights node.children + 1 := by
  cases node
  rw [Node.height]

@[simp] theorem heights_nil : heights [] = 0 := rfl

@[simp] theorem heights_cons (node : Node) (rest : List Node) :
    heights (node :: rest) = max node.height (heights rest) := rfl

theorem heights_le_iff {nodes : List Node} {bound : Nat} :
    heights nodes ≤ bound ↔ ∀ node ∈ nodes, node.height ≤ bound := by
  induction nodes with
  | nil => simp
  | cons node rest ih => rw [heights_cons, Nat.max_le, ih, List.forall_mem_cons]

/-- Spans do not count. -/
theorem heights_shapes (nodes : List Node) : heights (shapes nodes) = heights nodes := by
  induction nodes using trees_induction with
  | nil => rfl
  | cons kind span children rest ihChildren ihRest =>
    rw [shapes_cons, heights_cons, heights_cons, ihRest, Node.shape_eq, Node.height_eq,
      Node.height_eq, ihChildren]

/-! ### Delimiters -/

/-- Tokens of this kind make runs that may wrap what is between them. -/
def Kind.isDelimiter (kind : Kind) : Bool :=
  kind == .asterisk || kind == .underscore || kind == .tilde

theorem Marker.kind_isDelimiter (marker : Marker) : marker.kind.isDelimiter = true := by
  cases marker <;> rfl

/-- The number of delimiters from index `i` up to index `j`. -/
def delimiters (tokens : Array (Token Kind)) (i j : Nat) : Nat :=
  ((tokens.toList.drop i).take (j - i)).countP (·.kind.isDelimiter)

section Tokens
variable {options : InlineOptions} {tokens : Array (Token Kind)} {stands : Nat → Position → Prop}
  {room i j k n : Nat} {marker : Marker} {nodes : List Node}

theorem delimiters_append (tokens : Array (Token Kind)) (hij : i ≤ j) (hjk : j ≤ k) :
    delimiters tokens i j + delimiters tokens j k = delimiters tokens i k := by
  unfold delimiters
  rw [← stretch_append tokens hij hjk, List.countP_append]

theorem Run.delimiters (h : Run tokens marker i n) : delimiters tokens i (i + n) = n := by
  induction n with
  | zero => simp [InlineMarkdown.delimiters]
  | succ n ih =>
    obtain ⟨hfront, hlast⟩ := h.split
    obtain ⟨token, htoken, hkind⟩ := hlast (i + n) (Nat.le_refl _) (Nat.lt_succ_self _)
    have hone : InlineMarkdown.delimiters tokens (i + n) (i + n + 1) = 1 := by
      unfold InlineMarkdown.delimiters
      rw [stretch_succ htoken, List.countP_singleton, hkind, marker.kind_isDelimiter, if_pos rfl]
    rw [← Nat.add_assoc, ← delimiters_append tokens (Nat.le_add_right i n) (Nat.le_add_right (i + n) 1),
      ih hfront, hone]

theorem delimiters_le (source : List Char) (n i j : Nat) :
    delimiters ((tokenize source).drop n).toArray i j ≤
      (tokenize source).countP (·.kind.isDelimiter) :=
  (((List.take_sublist _ _).trans (List.drop_sublist _ _)).trans (List.drop_sublist n _)).countP_le

/-! ### What tokens yield -/

theorem Leaf.height_le {token : Token Kind} {node : Node} (h : Leaf options token node) :
    node.height ≤ 2 := by
  rw [node.height_eq]
  rcases h.children with hnil | ⟨-, rfl⟩
  · rw [hnil]
    exact Nat.le_succ 1
  · exact Nat.le_refl 2

/-- A level is that of a leaf or of the text in an address, or it is paid for: by the room, or by a
delimiter on either side. -/
theorem Yields.height_le (h : Yields options tokens stands room i k nodes) :
    i ≤ k ∧ 2 * heights nodes ≤ 2 * room + delimiters tokens i k + 4 := by
  induction h with
  | nil => exact ⟨Nat.le_refl _, Nat.zero_le _⟩
  | @text room i j k span rest hlt _ _ _ _ _ ih =>
    obtain ⟨hle, hrest⟩ := ih
    have hsum := delimiters_append tokens (Nat.le_of_lt hlt) hle
    have hself : (Node.ofText (literal tokens i j) span).height = 1 := rfl
    rw [heights_cons]
    omega
  | @leaf room i k token node rest htoken hleaf _ ih =>
    obtain ⟨hle, hrest⟩ := ih
    have hsum := delimiters_append tokens (Nat.le_add_right i 1) hle
    have hself := hleaf.height_le
    rw [heights_cons]
    omega
  | @wrapper room i j k opened closing used marker span children rest _ hused hopen _ hclose _
      ihChildren ih =>
    obtain ⟨hinside, hchildren⟩ := ihChildren
    obtain ⟨hbehind, hrest⟩ := ih
    have hpos := Draft.used_pos hused
    have hfront := delimiters_append tokens (Nat.le_add_right i used) hinside
    have hback := delimiters_append tokens (Nat.le_add_right j used) hbehind
    have hsum := delimiters_append tokens
      (Nat.le_trans (Nat.le_add_right i used) hinside)
      (Nat.le_trans (Nat.le_add_right j used) hbehind)
    rw [hopen.delimiters] at hfront
    rw [hclose.delimiters] at hback
    have hself : (⟨marker.wrapper used, span, children⟩ : Node).height = heights children + 1 :=
      Node.height_eq _
    rw [heights_cons]
    omega
  | @bracket room i p q e k kind frame content node rest _ hframe hopening _ _ hclosing _
      ihContent ih =>
    obtain ⟨hinside, hcontent⟩ := ihContent
    obtain ⟨hbehind, hrest⟩ := ih
    have hregular := framesAt_regular hframe
    have hopen : i ≤ p := Nat.le_of_lt (hregular.inside hopening).lt
    have hclose : q ≤ e := Nat.le_of_lt (hregular.bracket hclosing).2
    have hfront := delimiters_append tokens hopen hinside
    have hback := delimiters_append tokens hclose hbehind
    have hsum := delimiters_append tokens (Nat.le_trans hopen hinside)
      (Nat.le_trans hclose hbehind)
    have hself : node.height ≤ heights content + 1 := by
      rw [node.height_eq]
      rcases (closing_ends hframe hclosing).children with h | h <;> rw [h]
      exact Nat.le_add_left 1 _
    rw [heights_cons]
    omega

end Tokens

/-! ### Documents -/

/-- A document is no higher than the room for nesting and half the delimiters of its source allow. -/
theorem parseMarkdown_height_le (source : List Char) (options : InlineOptions) :
    (parseMarkdown source options).root.height ≤
      67 + (tokenize source).countP (·.kind.isDelimiter) / 2 := by
  rw [Node.height_eq]
  have hchildren : heights (parseMarkdown source options).root.children ≤
      66 + (tokenize source).countP (·.kind.isDelimiter) / 2 := by
    refine heights_le_iff.2 fun child hchild => ?_
    rcases (lines_parseMarkdown source options).yields (n := 0) rfl child hchild with
      ⟨token, -, -, rfl⟩ | ⟨n, i, j, hyields⟩
    · have hself : (⟨.softBreak, token.span, []⟩ : Node).height = 1 := rfl
      omega
    · have hle := hyields.height_le.2
      have hall := delimiters_le source n i j
      rw [heights_cons, heights_nil] at hle
      omega
  omega

/-- A nest has a level for every two markers, and one for a marker that is left over. -/
theorem Node.height_enclose (node : Node) (count : Nat) :
    (node.enclose count).height = node.height + count / 2 + count % 2 := by
  have hstrong (times : Nat) :
      ((fun inner : Node => (⟨.strong, {}, [inner]⟩ : Node))^[times] node).height =
        node.height + times := by
    induction times with
    | zero => rfl
    | succ times ih =>
      rw [Function.iterate_succ_apply', Node.height_eq]
      simp [ih, Nat.add_assoc]
  unfold enclose
  dsimp only
  split
  · rename_i hodd
    rw [Node.height_eq]
    simp [hstrong, hodd]
  · rw [hstrong]
    omega

/-- A letter between two runs of asterisks has a level above it for every two of one of them. -/
theorem height_between_asterisks (options : InlineOptions) {n : Nat} (hn : 0 < n) :
    let source := Marker.asterisk.run n ++ ['a'] ++ Marker.asterisk.run n
    n / 2 < (parseMarkdown source options).root.height := by
  intro source
  have hletter : ∀ c ∈ ['a'], isAlphanumeric c = true := List.forall_mem_singleton.2 (by decide)
  have hasterisk : Marker.asterisk ≠ .tilde := nofun
  have hheights :=
    congrArg heights (shapes_of_emphasis options hasterisk (List.cons_ne_nil 'a' []) hletter hn hn)
  rw [heights_shapes, Nat.min_self, Nat.sub_self] at hheights
  have hnest := (Node.ofText ['a'] {}).height_enclose n
  rw [Node.height_eq, hheights]
  simp only [leftover, if_pos, List.nil_append, heights_cons, heights_nil]
  omega

/-- There is no bound on the height of all documents. -/
theorem parseMarkdown_height_unbounded :
    ¬ ∃ bound, ∀ source options, (parseMarkdown source options).root.height ≤ bound := by
  rintro ⟨bound, hbound⟩
  have hhigh := height_between_asterisks {} (n := 2 * bound + 2) (by omega)
  exact Nat.not_le.2 (Nat.lt_of_le_of_lt (by omega) hhigh) (hbound _ _)

end InlineMarkdown
