import InlineMarkdown.Proofs.Fences
import InlineMarkdown.Proofs.Joining
import InlineMarkdown.Render.Dump

/-! A dump tells which tree it is of.

What is written for a character, a quoted text, a line of a dump can be read back wherever it
stands, whatever comes behind it (`SelfDelimiting`). A list of trees cannot: where it ends
shows only in the text behind it, which is at its end or goes on with a line that is less
deep (`Resumes`). With that said of what is behind, trees are read one line at a time, a node,
its children and the trees next to it (`dumpAt_append_inj`), and equal dumps are of trees of
one shape (`dump_eq_iff`). -/
namespace InlineMarkdown

/-- Whatever is written behind a value, the value and what is behind it can be told. -/
def SelfDelimiting {α : Type} (write : α → List Char) : Prop :=
  ∀ {a b : α} {behind behind' : List Char},
    write a ++ behind = write b ++ behind' → a = b ∧ behind = behind'

/-! ### Characters -/

theorem hexDigits_eq (n : Nat) : hexDigits n =
    if n < 16 then [n.digitChar] else hexDigits (n / 16) ++ [(n % 16).digitChar] :=
  Nat.toDigits_eq_if (by decide)

theorem hexDigits_ne_nil (n : Nat) : hexDigits n ≠ [] := Nat.toDigits_ne_nil

/-- Digits in front of the last one make more than a single digit. -/
theorem hexDigits_append_ne_singleton (n : Nat) (last digit : Char) :
    hexDigits n ++ [last] ≠ [digit] := by
  intro h
  rcases List.append_eq_singleton_iff.1 h with ⟨hempty, -⟩ | ⟨-, hempty⟩
  · exact hexDigits_ne_nil n hempty
  · exact nomatch hempty

theorem digitChar_inj : ∀ a < 16, ∀ b < 16, a.digitChar = b.digitChar → a = b := by decide

/-- Numbers with the same digits are the same, from the last digit on. -/
theorem hexDigits_inj {m n : Nat} (h : hexDigits m = hexDigits n) : m = n := by
  induction m using Nat.strongRecOn generalizing n with
  | ind m ih =>
    rw [hexDigits_eq m, hexDigits_eq n] at h
    split at h <;> split at h
    · next hm hn => exact digitChar_inj m hm n hn (List.head_eq_of_cons_eq h)
    · exact (hexDigits_append_ne_singleton _ _ _ h.symm).elim
    · exact (hexDigits_append_ne_singleton _ _ _ h).elim
    · next hm hn =>
      obtain ⟨hfront, hlast⟩ := List.append_inj' h rfl
      have hdiv := ih (m / 16) (by omega) hfront
      have hmod := digitChar_inj (m % 16) (by omega) (n % 16) (by omega)
        (List.head_eq_of_cons_eq hlast)
      omega

theorem brace_not_mem_hexDigits (n : Nat) : '\x7d' ∉ hexDigits n := by
  induction n using Nat.strongRecOn with
  | ind n ih =>
    have hdigit : ∀ d : Nat, d.digitChar ≠ '\x7d' := fun d => Nat.digitChar_ne _ (by decide)
    rw [hexDigits_eq]
    split
    · exact fun h => hdigit _ (List.mem_singleton.1 h).symm
    · intro h
      rcases List.mem_append.1 h with h | h
      · exact ih (n / 16) (by omega) h
      · exact hdigit _ (List.mem_singleton.1 h).symm

/-- Two texts that stop at the same place, where `p` first fails. -/
theorem append_inj_of_stop {p : Char → Bool} {a b behind behind' : List Char}
    (ha : ∀ c ∈ a, p c = true) (hb : ∀ c ∈ b, p c = true)
    (hbehind : ∀ c ∈ behind.head?, p c = false) (hbehind' : ∀ c ∈ behind'.head?, p c = false)
    (h : a ++ behind = b ++ behind') : a = b ∧ behind = behind' := by
  have hfront : a = b := by
    rw [← takeWhile_exact ha hbehind, h, takeWhile_exact hb hbehind']
  subst hfront
  exact ⟨rfl, List.append_cancel_left h⟩

/-- A character given by its number. -/
theorem escape_selfDelimiting : SelfDelimiting fun n => hexDigits n ++ ['\x7d'] := by
  intro m n behind behind' h
  have hdigit : ∀ k : Nat, ∀ c ∈ hexDigits k, (c != '\x7d') = true := by
    intro k c hc
    simpa using ne_of_mem_of_not_mem hc (brace_not_mem_hexDigits k)
  simp only [List.append_assoc, List.singleton_append] at h
  obtain ⟨hdigits, htail⟩ := append_inj_of_stop (hdigit m) (hdigit n) (by simp) (by simp) h
  exact ⟨hexDigits_inj hdigits, (List.cons.inj htail).2⟩

/-- The characters with a letter that stands for them behind a backslash. -/
def shortForms : List (Char × Char) :=
  [('"', '"'), ('\\', '\\'), ('\n', 'n'), ('\r', 'r'), ('\t', 't'), ('\x00', '0')]

theorem shortForms_inj : ∀ form ∈ shortForms, ∀ other ∈ shortForms,
    form.2 = other.2 → form.1 = other.1 := by decide

theorem u_not_mem_shortForms : ∀ form ∈ shortForms, form.2 ≠ 'u' := by decide

/-- The ways to write a character between quotes. -/
inductive QuoteForm (c : Char) : List Char → Prop where
  | short (letter : Char) (h : (c, letter) ∈ shortForms) : QuoteForm c ['\\', letter]
  | numbered : QuoteForm c ('\\' :: 'u' :: '\x7b' :: (hexDigits c.toNat ++ ['\x7d']))
  | plain (hquote : c ≠ '"') (hbackslash : c ≠ '\\') : QuoteForm c [c]

theorem quoteForm (c : Char) : QuoteForm c (quoteChar c) := by
  unfold quoteChar
  split_ifs
  iterate 6 exact .short _ (by simp [shortForms, *])
  · exact .numbered
  · exact .plain ‹_› ‹_›

theorem quoteChar_selfDelimiting : SelfDelimiting quoteChar := by
  intro c d behind behind' h
  have hc := quoteForm c
  have hd := quoteForm d
  generalize quoteChar c = written at hc h
  generalize quoteChar d = written' at hd h
  cases hc with
  | short letter hletter =>
    cases hd with
    | short letter' hletter' =>
      obtain ⟨rfl, htail⟩ := List.cons.inj (List.cons.inj h).2
      exact ⟨shortForms_inj _ hletter _ hletter' rfl, htail⟩
    | numbered =>
      exact absurd (List.cons.inj (List.cons.inj h).2).1 (u_not_mem_shortForms _ hletter)
    | plain _ hbackslash => exact absurd (List.cons.inj h).1.symm hbackslash
  | numbered =>
    cases hd with
    | short letter' hletter' =>
      exact absurd (List.cons.inj (List.cons.inj h).2).1.symm (u_not_mem_shortForms _ hletter')
    | numbered =>
      have hbody := (List.cons.inj (List.cons.inj (List.cons.inj h).2).2).2
      obtain ⟨hnumber, htail⟩ := escape_selfDelimiting hbody
      exact ⟨Char.toNat_inj.1 hnumber, htail⟩
    | plain _ hbackslash => exact absurd (List.cons.inj h).1.symm hbackslash
  | plain _ hbackslash =>
    cases hd with
    | short | numbered => exact absurd (List.cons.inj h).1 hbackslash
    | plain => exact List.cons.inj h

/-- A quote is never written as itself, so that the one behind a text closes it. -/
theorem quoteChar_ne_quote (c : Char) (behind behind' : List Char) :
    quoteChar c ++ behind ≠ '"' :: behind' := by
  intro h
  have hc := quoteForm c
  generalize quoteChar c = written at hc h
  cases hc with
  | short | numbered => exact absurd (List.cons.inj h).1 (by decide)
  | plain hquote => exact hquote (List.cons.inj h).1

/-! ### Lines -/

theorem quote_selfDelimiting : SelfDelimiting quote := by
  intro a b behind behind' h
  simp only [quote, List.cons_append, List.append_assoc, List.nil_append, List.cons.injEq,
    true_and] at h
  induction a generalizing b with
  | nil =>
    cases b with
    | nil => exact ⟨rfl, (List.cons.inj h).2⟩
    | cons d b =>
      rw [List.flatMap_cons, List.append_assoc] at h
      exact (quoteChar_ne_quote d _ _ h.symm).elim
  | cons c a ih =>
    cases b with
    | nil =>
      rw [List.flatMap_cons, List.append_assoc] at h
      exact (quoteChar_ne_quote c _ _ h).elim
    | cons d b =>
      simp only [List.flatMap_cons, List.append_assoc] at h
      obtain ⟨rfl, hrest⟩ := quoteChar_selfDelimiting h
      obtain ⟨rfl, htail⟩ := ih hrest
      exact ⟨rfl, htail⟩

/-- The texts of a node, each with what is written in front of it. -/
def NodeKind.fields : NodeKind → List (List Char × List Char)
  | document | softBreak | emphasis | strong | strike => []
  | text s | inlineCode s | formula s | html s => [([' '], s)]
  | link url title => [(" url=".toList, url), (" title=".toList, title)]
  | image url alt title => [(" url=".toList, url), (" alt=".toList, alt), (" title=".toList, title)]
  | reference identifier url title =>
    [(" identifier=".toList, identifier), (" url=".toList, url), (" title=".toList, title)]
  | footnote identifier | citation identifier => [(" identifier=".toList, identifier)]

def writeFields (fields : List (List Char × List Char)) : List Char :=
  fields.flatMap fun field => field.1 ++ quote field.2

theorem NodeKind.describe_eq (kind : NodeKind) :
    kind.describe = kind.name.toList ++ writeFields kind.fields := by
  cases kind <;> simp [describe, fields, writeFields, dumpField]

/-- The name tells what fields there are, and with what is in them the kind. -/
theorem NodeKind.eq_of_name {kind other : NodeKind} (h : kind.name = other.name) :
    kind.fields.map (·.1) = other.fields.map (·.1) ∧
      (kind.fields = other.fields → kind = other) := by
  cases kind <;> cases other <;> simp_all [name, fields]

theorem NodeKind.isAlpha_of_mem_name (kind : NodeKind) :
    ∀ c ∈ kind.name.toList, c.isAlpha = true := by
  cases kind <;> simp [name]

theorem NodeKind.head?_fields (kind : NodeKind) (behind : List Char) :
    ∀ c ∈ (writeFields kind.fields ++ '\n' :: behind).head?, c.isAlpha = false := by
  cases kind <;> simp [fields, writeFields]

/-- Fields with the same labels, read one by one. -/
theorem writeFields_inj {fields fields' : List (List Char × List Char)} {behind behind' : List Char}
    (hlabels : fields.map (·.1) = fields'.map (·.1))
    (h : writeFields fields ++ behind = writeFields fields' ++ behind') :
    fields = fields' ∧ behind = behind' := by
  induction fields generalizing fields' with
  | nil =>
    cases fields' with
    | nil => exact ⟨rfl, h⟩
    | cons => exact nomatch hlabels
  | cons field fields ih =>
    cases fields' with
    | nil => exact nomatch hlabels
    | cons field' fields' =>
      obtain ⟨label, value⟩ := field
      obtain ⟨label', value'⟩ := field'
      obtain ⟨hlabel, hrest⟩ := List.cons.inj hlabels
      dsimp only at hlabel
      subst hlabel
      simp only [writeFields, List.flatMap_cons, List.append_assoc] at h
      obtain ⟨rfl, htail⟩ := quote_selfDelimiting (List.append_cancel_left h)
      obtain ⟨rfl, hbehind⟩ := ih hrest htail
      exact ⟨rfl, hbehind⟩

theorem describe_selfDelimiting : SelfDelimiting fun kind : NodeKind => kind.describe ++ ['\n'] := by
  intro kind other behind behind' h
  simp only [NodeKind.describe_eq, List.append_assoc, List.singleton_append] at h
  obtain ⟨hname, hfields⟩ := append_inj_of_stop kind.isAlpha_of_mem_name other.isAlpha_of_mem_name
    (kind.head?_fields behind) (other.head?_fields behind') h
  obtain ⟨hlabels, hkind⟩ := NodeKind.eq_of_name (String.toList_inj.1 hname)
  obtain ⟨hequal, hbehind⟩ := writeFields_inj hlabels hfields
  exact ⟨hkind hequal, (List.cons.inj hbehind).2⟩

/-! ### Trees -/

/-- How many spaces the text begins with. -/
def indentation (text : List Char) : Nat := (text.takeWhile (· == ' ')).length

/-- The text behind trees at `depth` is at its end, or its line is less deep. -/
def Resumes (depth : Nat) (text : List Char) : Prop := text ≠ [] → indentation text < 2 * depth

theorem NodeKind.head?_describe (kind : NodeKind) (behind : List Char) :
    ∀ c ∈ (kind.describe ++ behind).head?, (c == ' ') = false := by
  cases kind <;> simp [describe, name]

theorem dumpAt_cons (depth : Nat) (node : Node) (rest : List Node) :
    dumpAt false depth (node :: rest) =
      List.replicate (2 * depth) ' ' ++ (node.kind.describe ++ ['\n'] ++
        (dumpAt false (depth + 1) node.children ++ dumpAt false depth rest)) := by
  obtain ⟨kind, span, children⟩ := node
  simp [dumpAt, Node.dumpAt]

theorem indentation_dumpAt_cons (depth : Nat) (node : Node) (rest : List Node) (behind : List Char) :
    indentation (dumpAt false depth (node :: rest) ++ behind) = 2 * depth := by
  have hspaces : ∀ c ∈ List.replicate (2 * depth) ' ', (c == ' ') = true :=
    fun c hc => by simp [List.eq_of_mem_replicate hc]
  unfold indentation
  rw [dumpAt_cons, List.append_assoc, List.append_assoc, List.append_assoc,
    takeWhile_exact hspaces (node.kind.head?_describe _), List.length_replicate]

theorem Resumes.dumpAt {depth : Nat} {behind : List Char} (h : Resumes depth behind)
    (nodes : List Node) : Resumes (depth + 1) (dumpAt false depth nodes ++ behind) := by
  cases nodes with
  | nil =>
    intro hbehind
    have := h hbehind
    simp only [InlineMarkdown.dumpAt, List.nil_append]
    omega
  | cons node rest =>
    intro _
    rw [indentation_dumpAt_cons]
    omega

theorem not_resumes_dumpAt_cons {depth : Nat} {node : Node} {rest : List Node}
    {text behind : List Char} (htext : text = dumpAt false depth (node :: rest) ++ behind) :
    ¬ Resumes depth text := by
  subst htext
  intro h
  have hlt := h (by simp [dumpAt_cons])
  rw [indentation_dumpAt_cons] at hlt
  omega

/-- Trees at one depth are read back in front of any text that goes on less deep. -/
theorem dumpAt_append_inj {nodes others : List Node} {depth : Nat} {behind behind' : List Char}
    (hbehind : Resumes depth behind) (hbehind' : Resumes depth behind')
    (h : dumpAt false depth nodes ++ behind = dumpAt false depth others ++ behind') :
    shapes nodes = shapes others ∧ behind = behind' := by
  induction nodes using trees_induction generalizing others depth behind behind' with
  | nil =>
    cases others with
    | nil => exact ⟨rfl, h⟩
    | cons => exact absurd hbehind (not_resumes_dumpAt_cons h)
  | cons kind span children rest ihChildren ihRest =>
    cases others with
    | nil => exact absurd hbehind' (not_resumes_dumpAt_cons h.symm)
    | cons other others =>
      simp only [dumpAt_cons, List.append_assoc] at h
      -- the same indentation on both sides, then the line, then what is below and next to it
      have hline := List.append_cancel_left h
      rw [← List.append_assoc, ← List.append_assoc other.kind.describe] at hline
      obtain ⟨rfl, hbelow⟩ := describe_selfDelimiting hline
      obtain ⟨hchildren, hnext⟩ := ihChildren (hbehind.dumpAt rest) (hbehind'.dumpAt others) hbelow
      obtain ⟨hrest, htail⟩ := ihRest hbehind hbehind' hnext
      refine ⟨?_, htail⟩
      rw [shapes_cons, shapes_cons, Node.shape_eq, other.shape_eq, hchildren, hrest]

theorem dumpAt_shapes (depth : Nat) (nodes : List Node) :
    dumpAt false depth (shapes nodes) = dumpAt false depth nodes := by
  induction nodes using trees_induction generalizing depth with
  | nil => rfl
  | cons kind span children rest ihChildren ihRest =>
    rw [shapes_cons, dumpAt_cons, dumpAt_cons, Node.shape_eq, ihChildren, ihRest]

/-- The dumps of two lists of trees are the same exactly when the trees differ in their spans
alone. -/
theorem dump_eq_iff (nodes others : List Node) :
    dump nodes = dump others ↔ shapes nodes = shapes others := by
  constructor
  · intro h
    have hend : Resumes 0 [] := fun h => absurd rfl h
    have hsame : dumpAt false 0 nodes ++ [] = dumpAt false 0 others ++ [] := by simpa [dump] using h
    exact (dumpAt_append_inj hend hend hsame).1
  · intro h
    unfold dump
    rw [← dumpAt_shapes 0 nodes, h, dumpAt_shapes]

end InlineMarkdown
