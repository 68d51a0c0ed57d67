import InlineMarkdown.Proofs.Normal
import InlineMarkdown.Proofs.References
import InlineMarkdown.Render.Plain

/-! Extracted text takes no more room than its source.

What a token says is at most what it covers, a code span says what is between its fences, and
a character reference is longer than the character it stands for. The brackets that plain text
puts around the word of a footnote or citation are the tokens around it. So the text of a tree
takes no more bytes than its tokens, with the grammar of what tokens yield as the induction
(`Yields.texts_fit`): every node has a stretch of tokens of its own. -/
namespace InlineMarkdown
open Attempt InlineParser

/-! ### Parts of a text -/

/-- The content of a code span or formula is a part of it. -/
theorem stripFences_sublist (raw : List Char) (fence : Char) :
    (stripFences raw fence).Sublist raw := by
  have hpadding (inner : List Char) : ((inner.drop 1).dropLast).Sublist inner :=
    (List.dropLast_sublist _).trans (List.drop_sublist 1 inner)
  unfold stripFences
  dsimp only
  cases hkept : dropBytes? (runLength fence raw) raw.reverse with
  | none => simp
  | some kept =>
    have hinner : (kept.reverse.drop (runLength fence raw)).Sublist raw := by
      apply (List.drop_sublist _ _).trans
      rw [← raw.reverse_reverse]
      exact (dropBytes?_suffix hkept).sublist.reverse
    dsimp only
    split
    · exact (hpadding _).trans hinner
    · exact hinner

/-- A lexeme says a part of its slice. -/
theorem Lexeme.text_sublist (lexeme : Lexeme) : lexeme.text.Sublist lexeme.raw := by
  rcases lexeme.text_cases with ⟨c, -, hraw, htext⟩ | ⟨-, htext⟩
  · rw [hraw, htext]
    exact .cons _ (.refl [c])
  · rw [htext]

/-! ### Texts of trees -/

/-- Both texts of the trees, the one that their text nodes have and the plain one, take at most so
many bytes. -/
structure TextsFit (nodes : List Node) (bytes : Nat) : Prop where
  content : byteLength (flattenText nodes) ≤ bytes
  plain : byteLength (plainText nodes) ≤ bytes

namespace TextsFit
variable {nodes others : List Node} {node : Node} {m n : Nat}

theorem nil : TextsFit [] n := ⟨Nat.zero_le n, Nat.zero_le n⟩

theorem mono (h : TextsFit nodes m) (hle : m ≤ n) : TextsFit nodes n :=
  ⟨Nat.le_trans h.content hle, Nat.le_trans h.plain hle⟩

theorem append (h : TextsFit nodes m) (h' : TextsFit others n) :
    TextsFit (nodes ++ others) (m + n) := by
  constructor
  · rw [flattenText_append, byteLength_append]
    exact Nat.add_le_add h.content h'.content
  · rw [plainText_append, byteLength_append]
    exact Nat.add_le_add h.plain h'.plain

/-- A node that has no text nodes below it. -/
theorem leaf {kind : NodeKind} {span : Span} (hcontent : byteLength (Node.ownText ⟨kind, span, []⟩) ≤ n)
    (hplain : byteLength (Node.plainText ⟨kind, span, []⟩) ≤ n) : TextsFit [⟨kind, span, []⟩] n := by
  constructor
  · have htext : flattenText [⟨kind, span, []⟩] = Node.ownText ⟨kind, span, []⟩ := by
      cases kind <;> simp [flattenText, Node.textContent, Node.ownText, Node.text?]
    rwa [htext]
  · rwa [plainText, plainText, List.append_nil]

/-- A node that only adds to the trees below it says what they say. -/
theorem around {kind : NodeKind} (span : Span) (h : TextsFit nodes n)
    (hcontent : (Node.mk kind span nodes).textContent = flattenText nodes)
    (hplain : (Node.mk kind span nodes).plainText = plainText nodes) :
    TextsFit [⟨kind, span, nodes⟩] n := by
  constructor
  · rw [flattenText, flattenText, List.append_nil, hcontent]
    exact h.content
  · rw [plainText, plainText, List.append_nil, hplain]
    exact h.plain

end TextsFit

/-! ### Texts of tokens -/

/-- Every token says something, except one that ends the input. -/
def Spoken (tokens : Array (Token Kind)) : Prop :=
  ∀ token ∈ tokens, token.isEof = false → token.text ≠ []

section Tokens
variable {options : InlineOptions} {tokens : Array (Token Kind)} {stands : Nat → Position → Prop}
  {room i j k p q e n start : Nat} {kind : Kind} {token : Token Kind} {node : Node}
  {nodes content : List Node}

theorem Spoken.literal_pos (h : Spoken tokens) (hkind : KindAt tokens i kind) (heof : kind ≠ .eof) :
    1 ≤ byteLength (literal tokens i (i + 1)) := by
  obtain ⟨token, htoken, rfl⟩ := hkind
  rw [literal_succ htoken]
  apply Nat.le_trans _ (length_le_byteLength _)
  by_cases hmarker : ∃ marker : Marker, token.kind = marker.kind
  · obtain ⟨marker, hmarker⟩ := hmarker
    rw [Token.literal_of_marker hmarker]
    exact Nat.le_refl 1
  · rw [Token.literal_of_ne fun marker hmarker' => hmarker ⟨marker, hmarker'⟩]
    exact List.length_pos_iff.2 (h token (Array.mem_of_getElem? htoken)
      (by simpa [Token.isEof, TokenKind.isEof] using heof))

theorem byteLength_literal_append (hij : i ≤ j) (hjk : j ≤ k) :
    byteLength (literal tokens i j) + byteLength (literal tokens j k) =
      byteLength (literal tokens i k) := by
  rw [← byteLength_append, literal_append hij hjk]

/-! ### Nodes of tokens and of constructs -/

/-- A node that a token is on its own says a part of what the token says. -/
theorem Leaf.texts_fit (h : Leaf options token node) :
    TextsFit [node] (byteLength token.literal) := by
  have hliteral {kinds : List Kind} (hkind : token.kind ∈ kinds)
      (hkinds : kinds.all (fun kind => kind != .asterisk && kind != .underscore && kind != .tilde) =
        true) : token.literal = token.text := by
    have hne := List.all_eq_true.1 hkinds _ hkind
    simp only [Bool.and_eq_true, bne_iff_ne] at hne
    apply Token.literal_of_ne
    intro marker
    cases marker
    · exact hne.1.1
    · exact hne.1.2
    · exact hne.2
  cases h with
  | code hkind =>
    rw [hliteral (List.mem_singleton.2 hkind) rfl]
    exact .leaf (Nat.zero_le _) (byteLength_le_of_sublist (stripFences_sublist ..))
  | formula _ hkind =>
    rw [hliteral (List.mem_singleton.2 hkind) rfl]
    exact .leaf (Nat.zero_le _) (byteLength_le_of_sublist (stripFences_sublist token.text '$'))
  | html _ hkind =>
    rw [hliteral hkind rfl]
    refine .leaf (Nat.zero_le _) ?_
    unfold Node.plainText
    dsimp only
    split
    · exact byteLength_decodeReferences_le token.text
    · exact Nat.zero_le _
  | address _ hkind =>
    have hmem : token.kind ∈ [Kind.autolink, .url] := by simpa using hkind
    rw [hliteral hmem rfl]
    have htarget : ((between? '<' '>' token.text).getD token.text).Sublist token.text := by
      cases htarget : between? '<' '>' token.text with
      | none => exact .refl _
      | some inner => exact between?_sublist htarget
    have hbytes := byteLength_le_of_sublist htarget
    exact .around token.span (.leaf hbytes hbytes) rfl rfl

/-- The word of a footnote or citation is the text of the content, and is a word. -/
theorem identifier_eq_some {word : List Char}
    (h : (identifier content).view tokens q = (some word, e)) :
    word = flattenText content ∧ word ≠ [] ∧ ∀ c ∈ word, isSpace c = false := by
  obtain ⟨_, r, -, h⟩ := view_bind_eq_some (expect_moves _) h
  by_cases hfails : ((flattenText content).isEmpty || (flattenText content).any isSpace) = true
  · rw [if_pos hfails] at h
    cases h
  · rw [if_neg hfails] at h
    cases h
    simp only [Bool.or_eq_true, not_or, List.isEmpty_iff, List.any_eq_true, not_exists, not_and,
      Bool.not_eq_true] at hfails
    exact ⟨rfl, hfails⟩

/-- What opens a construct with a word says two characters at least. -/
theorem two_le_opening {frame : Frame} (hspoken : Spoken tokens)
    (hframe : frame = footnote ∨ frame = citation)
    (h : frame.opening.view tokens i = (some (), p)) : 2 ≤ byteLength (literal tokens i p) := by
  obtain ⟨kind, hp, hfirst, hsecond, heof⟩ : ∃ kind, p = i + 1 + 1 ∧
      KindAt tokens i .leftBracket ∧ KindAt tokens (i + 1) kind ∧ kind ≠ .eof := by
    rcases hframe with rfl | rfl
    · obtain ⟨_, r, hfirst, hsecond⟩ := view_bind_eq_some (expect_moves _) h
      obtain ⟨rfl, hbracket⟩ := view_expect_eq_some hfirst
      obtain ⟨hp, hcaret⟩ := view_expect_eq_some hsecond
      exact ⟨.caret, hp, hbracket, hcaret, nofun⟩
    · obtain ⟨_, r, hfirst, hsecond⟩ := view_bind_eq_some (expect_moves _) h
      obtain ⟨rfl, hbracket⟩ := view_expect_eq_some hfirst
      rw [atSign_eq_consume] at hsecond
      obtain ⟨hp, token, htoken, haccept⟩ := view_consume_eq_some hsecond
      have htext : token.kind = .text := of_decide_eq_true (Bool.and_eq_true_iff.1 haccept).1
      exact ⟨.text, hp, hbracket, ⟨token, htoken, htext⟩, nofun⟩
  rw [hp, ← byteLength_literal_append (Nat.le_succ i) (Nat.le_succ (i + 1))]
  exact Nat.add_le_add (hspoken.literal_pos hfirst nofun) (hspoken.literal_pos hsecond heof)

/-- A construct says what its content says. The brackets that plain text puts around a word stand
around the content. -/
theorem closing_texts_fit {frame : Frame} (hspoken : Spoken tokens)
    (hframe : frame ∈ framesAt options kind) (hopening : frame.opening.view tokens i = (some (), p))
    (hcontent : TextsFit content n) (h : (frame.closing i content).view tokens q = (some node, e)) :
    TextsFit [node] (byteLength (literal tokens i p) + n + byteLength (literal tokens q e)) := by
  obtain ⟨hbracket, hlt⟩ := (framesAt_regular hframe).bracket h
  have hclose : 1 ≤ byteLength (literal tokens q e) := by
    rw [← byteLength_literal_append (Nat.le_succ q) hlt]
    exact Nat.le_add_right_of_le (hspoken.literal_pos hbracket nofun)
  have hwithin : n ≤ byteLength (literal tokens i p) + n + byteLength (literal tokens q e) :=
    Nat.le_add_right_of_le (Nat.le_add_left ..)
  have hword (hwords : frame = footnote ∨ frame = citation) :
      byteLength (flattenText content) + 3 ≤
        byteLength (literal tokens i p) + n + byteLength (literal tokens q e) := by
    have hopen := two_le_opening hspoken hwords hopening
    have htext := hcontent.content
    omega
  have hbracketed (mark : Char) (hmark : mark.utf8Size = 1) :
      byteLength (['[', mark] ++ flattenText content ++ [']']) =
        byteLength (flattenText content) + 3 := by
    have hsize : '['.utf8Size = 1 ∧ ']'.utf8Size = 1 := ⟨rfl, rfl⟩
    simp only [byteLength_append, byteLength_cons, byteLength_nil, hmark, hsize]
    omega
  rcases framesAt_cases hframe with rfl | rfl | rfl | rfl
  · obtain ⟨_, _, -, h⟩ := view_bind_eq_some (expect_moves _) h
    obtain ⟨⟨url, title⟩, _, -, h⟩ := view_bind_eq_some destination_moves h
    rw [view_nodeSince h]
    exact .leaf (Nat.zero_le _) (Nat.le_trans hcontent.content hwithin)
  · obtain ⟨word, _, hidentifier, h⟩ := view_bind_eq_some (identifier_moves _) h
    rw [view_nodeSince h, (identifier_eq_some hidentifier).1]
    exact .leaf (Nat.zero_le _) (Nat.le_trans (Nat.le_of_eq (hbracketed '^' rfl)) (hword (.inl rfl)))
  · obtain ⟨word, _, hidentifier, h⟩ := view_bind_eq_some (identifier_moves _) h
    rw [view_nodeSince h, (identifier_eq_some hidentifier).1]
    exact .leaf (Nat.zero_le _) (Nat.le_trans (Nat.le_of_eq (hbracketed '@' rfl)) (hword (.inr rfl)))
  · obtain ⟨_, _, hbuilds, rfl⟩ := link_ends h
    cases hbuilds with
    | link | reference => exact (TextsFit.around _ hcontent rfl rfl).mono hwithin

/-! ### What tokens yield -/

/-- Trees say no more than the tokens that yield them. -/
theorem Yields.texts_fit (hspoken : Spoken tokens)
    (h : Yields options tokens stands room i k nodes) :
    i ≤ k ∧ TextsFit nodes (byteLength (literal tokens i k)) := by
  induction h with
  | nil => exact ⟨Nat.le_refl _, .nil⟩
  | text hlt _ _ _ _ _ ih =>
    refine ⟨Nat.le_trans (Nat.le_of_lt hlt) ih.1, ?_⟩
    rw [← byteLength_literal_append (Nat.le_of_lt hlt) ih.1]
    exact TextsFit.append (.leaf (Nat.le_refl _) (Nat.le_refl _)) ih.2
  | leaf htoken hleaf _ ih =>
    refine ⟨Nat.le_trans (Nat.le_succ _) ih.1, ?_⟩
    rw [← byteLength_literal_append (Nat.le_succ _) ih.1, literal_succ htoken]
    exact hleaf.texts_fit.append ih.2
  | @wrapper _ i j _ _ _ used marker span children _ _ _ _ _ _ _ ihChildren ih =>
    obtain ⟨hinside, hchildren⟩ := ihChildren
    obtain ⟨hbehind, hrest⟩ := ih
    have hstop : i ≤ j + used :=
      Nat.le_trans (Nat.le_trans (Nat.le_add_right i used) hinside) (Nat.le_add_right j used)
    refine ⟨Nat.le_trans hstop hbehind, ?_⟩
    have hself : TextsFit [⟨marker.wrapper used, span, children⟩]
        (byteLength (literal tokens (i + used) j)) := by
      rcases marker.wrapper_cases used with h | h | ⟨-, h⟩ <;>
      · rw [h]
        exact .around span hchildren rfl rfl
    have hstretch : TextsFit [⟨marker.wrapper used, span, children⟩]
        (byteLength (literal tokens i (j + used))) := by
      apply hself.mono
      rw [← byteLength_literal_append (Nat.le_add_right i used)
        (Nat.le_trans hinside (Nat.le_add_right j used)),
        ← byteLength_literal_append hinside (Nat.le_add_right j used)]
      exact Nat.le_add_right_of_le (Nat.le_add_left ..) |>.trans (Nat.le_of_eq (Nat.add_assoc ..))
    rw [← byteLength_literal_append hstop hbehind]
    exact hstretch.append hrest
  | @bracket _ i p q e _ _ _ _ _ _ _ hframe hopening _ _ hclosing _ ihContent ih =>
    obtain ⟨hinside, hcontent⟩ := ihContent
    obtain ⟨hbehind, hrest⟩ := ih
    have hregular := framesAt_regular hframe
    have hopen : i ≤ p := Nat.le_of_lt (hregular.inside hopening).lt
    have hclose : q ≤ e := Nat.le_of_lt (hregular.bracket hclosing).2
    have hstop : i ≤ e := Nat.le_trans hopen (Nat.le_trans hinside hclose)
    refine ⟨Nat.le_trans hstop hbehind, ?_⟩
    have hself := closing_texts_fit hspoken hframe hopening hcontent hclosing
    rw [byteLength_literal_append hopen hinside,
      byteLength_literal_append (Nat.le_trans hopen hinside) hclose] at hself
    rw [← byteLength_literal_append hstop hbehind]
    exact hself.append hrest

end Tokens

/-! ### Documents -/

/-- The nodes of a queue say no more than its tokens. -/
theorem Lines.texts_fit {options : InlineOptions} {queue : List (Token Kind)} {nodes : List Node}
    (h : Lines options queue nodes)
    (hspoken : ∀ token ∈ queue, token.isEof = false → token.text ≠ []) :
    TextsFit nodes (byteLength (queue.flatMap Token.literal)) := by
  induction h with
  | done => exact .nil
  | @softBreak token rest nodes hkind _ ih =>
    rw [List.flatMap_cons, byteLength_append]
    have hrest := ih fun token htoken => hspoken token (List.mem_cons_of_mem _ htoken)
    have htext := hspoken token List.mem_cons_self (by simp [Token.isEof, TokenKind.isEof, hkind])
    have hpos : 1 ≤ byteLength token.literal := by
      rw [Token.literal_of_ne fun marker => by rw [hkind]; cases marker <;> decide]
      exact Nat.le_trans (List.length_pos_iff.2 htext) (length_le_byteLength _)
    exact TextsFit.append (.leaf (Nat.zero_le _) hpos) hrest
  | @line token queue nodes _ _ _ _ ih =>
    -- Where the tokens stand does not matter for what they say.
    have hmilestones : Milestones queue.toArray fun _ _ => True :=
      ⟨fun _ => trivial, fun _ => trivial, fun _ _ => trivial⟩
    have hline := (atRoom_yields { options } hmilestones 64 lineStop { tokens := queue.toArray }
      rfl (Nat.zero_le _)).1.texts_fit fun token htoken => hspoken token (List.mem_toArray.1 htoken)
    have hrest := ih fun token htoken => hspoken token (List.mem_of_mem_drop htoken)
    conv => rhs; rw [← List.take_append_drop (lineOf options queue).2.position queue]
    rw [List.flatMap_append, byteLength_append]
    exact hline.2.append hrest

/-- Placed lexemes say no more than they cover. -/
theorem byteLength_place_le (start : Position) (pieces : List Lexeme) :
    byteLength ((place start pieces).flatMap (·.text)) ≤ byteLength (pieces.flatMap (·.raw)) := by
  induction pieces generalizing start with
  | nil => exact Nat.le_refl _
  | cons lexeme rest ih =>
    rw [place, List.flatMap_cons, List.flatMap_cons, byteLength_append, byteLength_append]
    exact Nat.add_le_add (byteLength_le_of_sublist lexeme.text_sublist) (ih _)

/-- Neither the text of a document nor its plain text takes more bytes than its source. -/
theorem parseMarkdown_text_le (source : List Char) (options : InlineOptions) :
    let root := (parseMarkdown source options).root
    byteLength root.textContent ≤ byteLength source ∧
      byteLength root.plainText ≤ byteLength source := by
  intro root
  have hfit : TextsFit root.children (byteLength ((tokenize source).flatMap Token.literal)) :=
    (lines_parseMarkdown source options).texts_fit fun _ => text_ne_nil
  have hbytes : byteLength ((tokenize source).flatMap Token.literal) ≤ byteLength source := by
    rw [List.flatMap_congr fun _ => literal_eq_text]
    apply Nat.le_trans (byteLength_place_le {} (lexemes source))
    rw [lexemes_raw]
  have hkind : root.kind = .document := parseMarkdown_kind source options
  generalize root = document at hfit hkind
  obtain ⟨kind, span, children⟩ := document
  obtain rfl : kind = .document := hkind
  exact ⟨Nat.le_trans hfit.content hbytes, Nat.le_trans hfit.plain hbytes⟩

end InlineMarkdown
