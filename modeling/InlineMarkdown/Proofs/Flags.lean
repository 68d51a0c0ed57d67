import InlineMarkdown.Markdown
import InlineMarkdown.Proofs.Pairing

/-! Options that nothing triggers.

Each option is asked about at tokens of a few kinds only (`Flag.triggers`). Two settings that
differ in no option that one of the tokens asks about cannot be told apart over these tokens:
the same constructs are tried, the same tokens stand for themselves, and so the parsers end in
the same state with the same nodes (`parse_eq_of_agreesOn`). -/
namespace InlineMarkdown
open Attempt InlineMarkdown.Frame

/-! ### Triggers -/

/-- An option, and the kinds of the tokens at which it is asked about. -/
structure Flag where
  isOn : InlineOptions → Bool
  triggers : List Kind

/-- All options. -/
def Flag.all : List Flag :=
  [⟨(·.strikethrough), [.tilde]⟩, ⟨(·.formulas), [.formula]⟩, ⟨(·.autolinks), [.autolink, .url]⟩,
    ⟨(·.html), [.htmlTag, .htmlBlock, .htmlUnclosedBlock, .htmlEntity]⟩,
    ⟨(·.images), [.exclamation]⟩, ⟨(·.footnotes), [.leftBracket]⟩,
    ⟨(·.citations), [.leftBracket]⟩, ⟨(·.links), [.leftBracket]⟩]

namespace InlineOptions

/-- The settings agree in what tokens of this kind trigger. -/
def AgreesAt (options options' : InlineOptions) (kind : Kind) : Prop :=
  ∀ flag ∈ Flag.all, kind ∈ flag.triggers → flag.isOn options' = flag.isOn options

/-- The settings differ only in options that none of the tokens triggers. -/
def AgreesOn (options options' : InlineOptions) (tokens : Array (Token Kind)) : Prop :=
  ∀ flag ∈ Flag.all, flag.isOn options' ≠ flag.isOn options →
    ∀ token ∈ tokens, token.kind ∉ flag.triggers

variable {options options' : InlineOptions} {tokens : Array (Token Kind)} {token : Token Kind}

instance : Decidable (options.AgreesOn options' tokens) :=
  inferInstanceAs (Decidable (∀ flag ∈ Flag.all, flag.isOn options' ≠ flag.isOn options →
    ∀ token ∈ tokens, token.kind ∉ flag.triggers))

theorem AgreesOn.at (h : options.AgreesOn options' tokens) (htoken : token ∈ tokens) :
    options.AgreesAt options' token.kind := by
  intro flag hflag hkind
  by_contra hne
  exact h flag hflag hne token htoken hkind

end InlineOptions

namespace InlineParser
variable {parser parser' : InlineParser} {inner inner' : Option ParseContent}
  {tokens : Array (Token Kind)} {token : Token Kind}

theorem framesAt_eq_of_agreesAt {options options' : InlineOptions} {kind : Kind}
    (h : options.AgreesAt options' kind) : framesAt options' kind = framesAt options kind := by
  cases kind with
  | exclamation =>
    have himages : options'.images = options.images := by
      simpa [InlineOptions.AgreesAt, Flag.all] using h
    simp only [framesAt, himages]
  | leftBracket =>
    obtain ⟨hfootnotes, hcitations, hlinks⟩ : options'.footnotes = options.footnotes ∧
        options'.citations = options.citations ∧ options'.links = options.links := by
      simpa [InlineOptions.AgreesAt, Flag.all] using h
    simp only [framesAt, bracketFrames, hfootnotes, hcitations, hlinks]
  | _ => rfl

theorem leaf?_eq_of_agreesAt {options options' : InlineOptions}
    (h : options.AgreesAt options' token.kind) : leaf? options' token = leaf? options token := by
  unfold leaf?
  cases hkind : token.kind <;>
    simp [InlineOptions.AgreesAt, Flag.all, hkind] at h ⊢ <;> simp only [h]

/-- Over the same tokens the two parsers see the same everywhere. -/
theorem pairing_of_agreesOn (parser : InlineParser) {options' : InlineOptions}
    {tokens : Array (Token Kind)} (h : parser.options.AgreesOn options' tokens) :
    Pairing (.same .plain) parser { parser with options := options' } tokens tokens where
  search := rfl
  token := rfl
  frames htoken := framesAt_eq_of_agreesAt (h.at (Array.mem_of_getElem? htoken))
  strikethrough htilde := by
    obtain ⟨token, htoken, hkind⟩ := htilde
    have hagrees := h.at (Array.mem_of_getElem? htoken)
    simpa [InlineOptions.AgreesAt, Flag.all, hkind] using hagrees
  leaf htoken htoken' := by
    obtain rfl := Option.some.inj (htoken.symm.trans htoken')
    exact congrArg _ (leaf?_eq_of_agreesAt (h.at (Array.mem_of_getElem? htoken)))
  mark _ _ := .refl fun _ => rfl
  destination _ _ := .refl fun _ => ⟨rfl, rfl⟩

/-- An option matters only where one of its triggers occurs. -/
theorem parse_eq_of_agreesOn {options options' : InlineOptions} {c : Cursor}
    (h : options.AgreesOn options' c.tokens) (stop : List Kind) :
    ({ options := options' } : InlineParser).parse stop c =
      ({ options } : InlineParser).parse stop c := by
  obtain ⟨hnodes, htokens, hcursor⟩ := (pairing_of_agreesOn { options } h).contents_parse stop c rfl
  refine Prod.ext ?_ (hcursor.trans (Cursor.over_tokens htokens))
  simpa only [Comparison.SameNodes, Comparison.same, Aspect.map_plain, Cursor.over] using hnodes

theorem parse_eq_of_agreesOn_starred :
    InlineOptions.AgreesOn {} { links := false, html := false }
        (tokenize "*a* ~~b~~".toList).toArray ∧
      ({ options := { links := false, html := false } } : InlineParser).parse lineStop
          { tokens := (tokenize "*a* ~~b~~".toList).toArray } =
        ({ options := {} } : InlineParser).parse lineStop
          { tokens := (tokenize "*a* ~~b~~".toList).toArray } :=
  ⟨by decide +kernel, parse_eq_of_agreesOn (by decide +kernel) lineStop⟩

end InlineParser
end InlineMarkdown
