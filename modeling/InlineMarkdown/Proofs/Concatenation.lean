import Mathlib.Data.List.TakeWhile
import InlineMarkdown.Proofs.LineEnds
import InlineMarkdown.Proofs.Locality
import InlineMarkdown.Proofs.Lossless
import InlineMarkdown.Proofs.Relocation

/-! Texts one behind the other.

A line feed between two texts is a token of its own, and the tokens behind it are those of the
second text, moved (`tokenize_line`). If the first text has no brackets, each of its lines is
parsed by itself, so the queue up to its end becomes what it becomes alone (`Lines.append`).
Hence the document of both is that of the first, a break, and that of the second, moved
(`parseMarkdown_line`). -/
namespace InlineMarkdown

variable {s : Shift} {options : InlineOptions}

/-! ### Placed lexemes -/

theorem place_shift (start : Position) (pieces : List Lexeme) :
    place (start.shift s) pieces = (place start pieces).map (Token.shift s) := by
  induction pieces generalizing start with
  | nil => rfl
  | cons lexeme rest ih =>
    simp only [place, Position.advance_shift, ih, List.map_cons]
    rfl

/-- What is placed behind others starts where they end. -/
theorem place_append (start : Position) (pieces others : List Lexeme) :
    place start (pieces ++ others) = (place start pieces).dropLast ++
      place (start.advance (pieces.flatMap (·.raw))) others := by
  induction pieces generalizing start with
  | nil => rfl
  | cons lexeme rest ih =>
    have hne : place (start.advance lexeme.raw) rest ≠ [] := by
      cases rest <;> exact List.cons_ne_nil _ _
    rw [List.cons_append, place, ih, place, List.dropLast_cons_of_ne_nil hne, List.flatMap_cons,
      Position.advance_append]
    rfl

/-! ### Tokens of both texts -/

/-- How far a text starts behind another and a line feed. -/
def Shift.behind (text : List Char) : Shift := ⟨text.count '\n' + 1, byteLength text + 1⟩

theorem Position.line_advance (p : Position) (text : List Char) :
    (p.advance text).line = p.line + text.count '\n' := by
  induction text generalizing p with
  | nil => rfl
  | cons c text ih =>
    rw [advance_cons, ih]
    unfold next
    split
    · rename_i hc
      rw [hc, List.count_cons_self, Nat.add_right_comm, Nat.add_assoc]
    · rename_i hc
      rw [List.count_cons_of_ne hc]

/-- Behind a text and a line feed the source is where a source starts, moved. -/
theorem Position.next_newline (text : List Char) :
    (Position.advance {} text).next '\n' = Position.shift (.behind text) {} := by
  have hnext (p : Position) : p.next '\n' = ⟨p.line + 1, 0, p.offset + 1⟩ := rfl
  rw [hnext, line_advance, advance_offset]
  simp [shift, Shift.behind]

/-- The tokens of two texts with a line feed between them. -/
theorem tokenize_line {text : List Char} (hangle : '<' ∉ text) (hlast : text.getLast? ≠ some '\r')
    (rest : List Char) :
    tokenize (text ++ '\n' :: rest) = (tokenize text).dropLast ++
      ⟨.newline, ['\n'], Span.covering (Position.advance {} text) ['\n']⟩ ::
        (tokenize rest).map (Token.shift (.behind text)) := by
  have hlexemes : lexemes (text ++ '\n' :: rest) = _ := lexemes_line none hangle hlast rest
  have hraw : (lexemesBehind none text).flatMap (·.raw) = text := lexemes_raw text
  have hrest : place ((Position.advance {} text).next '\n') (lexemesBehind none rest) =
      (tokenize rest).map (Token.shift (.behind text)) := by
    rw [Position.next_newline]
    exact place_shift {} (lexemes rest)
  unfold tokenize at hrest ⊢
  rw [hlexemes, place_append, hraw, place]
  exact congrArg (_ ++ _ :: ·) hrest

/-- A character that is not in the source is no token of it. -/
theorem kind_ne_of_not_mem {source : List Char} {token : Token Kind} (h : token ∈ tokenize source)
    {c : Char} {kind : Kind} (hc : Kind.ofChar? c = some kind) (hsource : c ∉ source) :
    token.kind ≠ kind := by
  rintro rfl
  obtain ⟨n, hn⟩ := List.getElem?_of_mem h
  obtain ⟨before, behind, hsplit, -, -⟩ := (tokenize_getElem? hn).2 c hc
  exact hsource (by rw [hsplit]; simp)

/-! ### Lines of both texts -/

/-- The first line of a queue becomes the same, and leaves the same of what is known of the queue,
whatever else stands in it. -/
theorem exists_lineOf_append (options : InlineOptions) {body : List (Token Kind)}
    (hbody : ∀ token ∈ body, token.kind ≠ .eof ∧ token.kind ≠ .leftBracket) :
    ∃ nodes tail, (∀ token ∈ tail, token ∈ body) ∧
      ∀ (last : Token Kind) (rest : List (Token Kind)), last.kind ∈ lineStop →
        (lineOf options (body ++ last :: rest)).1 = nodes ∧
          (body ++ last :: rest).drop (lineOf options (body ++ last :: rest)).2.position =
            tail ++ last :: rest := by
  obtain ⟨line, tail, hsplit, hline, htail⟩ : ∃ line tail, body = line ++ tail ∧
      Bracketless line ∧ ∀ token ∈ tail.head?, token.kind = .newline := by
    refine ⟨body.takeWhile (·.kind != .newline), body.dropWhile (·.kind != .newline),
      List.takeWhile_append_dropWhile.symm, fun token htoken => ?_, fun token htoken => ?_⟩
    · obtain ⟨heof, hbracket⟩ := hbody token (List.takeWhile_subset _ htoken)
      have hnewline := List.mem_takeWhile_imp htoken
      exact ⟨by simpa [lineStop, heof] using hnewline, hbracket⟩
    · have hstops := List.head?_dropWhile_not (·.kind != Kind.newline) body
      rw [htoken] at hstops
      simpa using hstops
  obtain ⟨nodes, hnodes⟩ := exists_lineOf options hline
  refine ⟨nodes, tail, fun token htoken => hsplit ▸ List.mem_append_right _ htoken,
    fun last rest hlast => ?_⟩
  obtain ⟨stop, behind, hstop, hbehind⟩ : ∃ stop behind, stop.kind ∈ lineStop ∧
      tail ++ last :: rest = stop :: behind := by
    cases tail with
    | nil => exact ⟨last, rest, hlast, rfl⟩
    | cons token tail =>
      have hkind := htail token rfl
      exact ⟨token, _, by rw [hkind]; decide, rfl⟩
  obtain ⟨hfirst, hposition⟩ := hnodes stop behind hstop
  rw [hsplit, List.append_assoc, hbehind]
  refine ⟨hfirst, ?_⟩
  rw [hposition, List.drop_left]

/-- In front of a line end a queue without brackets becomes what it becomes alone. -/
theorem Lines.append {body queue : List (Token Kind)} {nodes more : List Node}
    {last newline : Token Kind}
    (hbody : ∀ token ∈ body, token.kind ≠ .eof ∧ token.kind ≠ .leftBracket)
    (hlast : last.kind = .eof) (hnewline : newline.kind = .newline)
    (h : Lines options (body ++ [last]) nodes) (hrest : Lines options queue more) :
    Lines options (body ++ newline :: queue)
      (nodes ++ ⟨.softBreak, newline.span, []⟩ :: more) := by
  -- The induction is on the lines of the first queue. Only its last line notices the change: it
  -- ends with the input there and with the line feed here.
  generalize hall : body ++ [last] = all at h
  induction h generalizing body with
  | done hend =>
    cases body with
    | nil => exact .softBreak hnewline hrest
    | cons token body =>
      have heof := isEof_iff.1 (hend token (by rw [← hall]; rfl))
      exact absurd heof (hbody token (List.mem_cons_self ..)).1
  | softBreak hkind _ ih =>
    cases body with
    | nil =>
      obtain ⟨rfl, -⟩ := List.cons.inj hall
      cases hlast.symm.trans hkind
    | cons token body =>
      obtain ⟨rfl, hbehind⟩ := List.cons.inj hall
      refine .softBreak hkind (ih (fun other hother => ?_) hbehind)
      exact hbody other (List.mem_cons_of_mem _ hother)
  | line hfront heof hkind _ ih =>
    subst hall
    obtain ⟨first, tail, htail, hfirst⟩ := exists_lineOf_append options hbody
    obtain ⟨hnodes, hdrop⟩ := hfirst last [] (by rw [hlast]; decide)
    obtain ⟨hnodes', hdrop'⟩ := hfirst newline queue (by rw [hnewline]; decide)
    have hmore := ih (fun token htoken => hbody token (htail token htoken)) hdrop.symm
    rw [hnodes, List.append_assoc, ← hnodes']
    refine .line ?_ heof hkind (hdrop' ▸ hmore)
    cases body with
    | nil =>
      obtain rfl := Option.some.inj hfront
      exact absurd (isEof_iff.2 hlast) (ne_true_of_eq_false heof)
    | cons => exact hfront

/-! ### Documents of both texts -/

/-- Parsing is compositional at line breaks. Behind a text without angle brackets and opening
brackets that does not end with a carriage return, a line feed is a break of its own: in front
of it stand the children of the text, and behind it those of the rest, each span of them moved
by the lines and the bytes in front of it. -/
theorem parseMarkdown_line {text : List Char} (hangle : '<' ∉ text) (hbracket : '[' ∉ text)
    (hlast : text.getLast? ≠ some '\r') (rest : List Char) (options : InlineOptions) :
    (parseMarkdown (text ++ '\n' :: rest) options).root.children =
      (parseMarkdown text options).root.children ++
        ⟨.softBreak, Span.covering (Position.advance {} text) ['\n'], []⟩ ::
          (parseMarkdown rest options).root.children.map (Node.shift (.behind text)) := by
  obtain ⟨body, htokens, hbody⟩ := tokenize_eq text
  have htext := lines_parseMarkdown text options
  have hrest := (lines_parseMarkdown rest options).shift (s := .behind text)
  have hboth := lines_parseMarkdown (text ++ '\n' :: rest) options
  rw [tokenize_line hangle hlast, htokens, List.dropLast_concat] at hboth
  rw [htokens] at htext
  refine hboth.unique
    (.append (fun token htoken => ⟨(hbody token htoken).1, ?_⟩) rfl rfl htext hrest)
  exact kind_ne_of_not_mem (htokens ▸ List.mem_append_left _ htoken) (c := '[') rfl hbracket

theorem parseMarkdown_line_starred :
    ('<' ∉ "*a*\r\n\x60b".toList ∧ '[' ∉ "*a*\r\n\x60b".toList ∧
      "*a*\r\n\x60b".toList.getLast? ≠ some '\r') ∧
    (parseMarkdown ("*a*\r\n\x60b".toList ++ '\n' :: "[c](d)".toList) {}).root.children =
      (parseMarkdown "*a*\r\n\x60b".toList {}).root.children ++
        ⟨.softBreak, ⟨⟨1, 2, 7⟩, ⟨2, 0, 8⟩⟩, []⟩ ::
          (parseMarkdown "[c](d)".toList {}).root.children.map (Node.shift ⟨2, 8⟩) :=
  ⟨by decide, parseMarkdown_line (by decide) (by decide) (by decide) "[c](d)".toList {}⟩

end InlineMarkdown
