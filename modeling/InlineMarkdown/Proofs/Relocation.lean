import InlineMarkdown.Proofs.Pairing
import InlineMarkdown.Proofs.Shift

/-! Parsing does not look at where the source stands.

The parser hands positions on from the tokens to the nodes and walks them over runs of
delimiters, but it decides nothing by them. So a run over tokens that are moved goes side by
side with the run over the tokens, and the trees it makes are those of the other, moved
(`Lines.shift`). -/
namespace InlineMarkdown
open Attempt InlineParser

variable {s : Shift} {options : InlineOptions}

/-! ### Tokens -/

def Token.shift (s : Shift) (token : Token Kind) : Token Kind :=
  { token with span := token.span.shift s }

@[simp] theorem Token.kind_shift (token : Token Kind) : (token.shift s).kind = token.kind := rfl

@[simp] theorem Token.text_shift (token : Token Kind) : (token.shift s).text = token.text := rfl

@[simp] theorem Token.span_shift (token : Token Kind) :
    (token.shift s).span = token.span.shift s := rfl

theorem addressLink_shift (token : Token Kind) :
    addressLink (token.shift s) = (addressLink token).shift s := by
  simp [addressLink, Node.shift_mk, Node.ofText_shift]

theorem leaf?_shift (options : InlineOptions) (token : Token Kind) :
    leaf? options (token.shift s) = (leaf? options token).map (Node.shift s) := by
  unfold leaf?
  dsimp only [Token.kind_shift, Token.text_shift, Token.span_shift]
  cases token.kind with
  | inlineCode => simp [Node.shift_mk]
  | formula => cases options.formulas <;> simp [Node.shift_mk]
  | htmlTag | htmlBlock | htmlUnclosedBlock | htmlEntity =>
    cases options.html <;> simp [Node.shift_mk]
  | autolink | url => cases options.autolinks <;> simp [addressLink_shift]
  | _ => rfl

/-! ### Runs and lines -/

theorem sameKinds_shift (s : Shift) (tokens : Array (Token Kind)) :
    SameKinds tokens (tokens.map (Token.shift s)) := by
  intro p
  rw [Array.getElem?_map, Option.map_map]
  rfl

/-- A run over moved tokens, beside that over the tokens. -/
theorem pairing_shift (s : Shift) (parser : InlineParser) (tokens : Array (Token Kind)) :
    Pairing s.comparison parser parser tokens (tokens.map (Token.shift s)) where
  search := rfl
  token := by
    rw [Array.map_map]
    rfl
  frames _ := rfl
  strikethrough _ := rfl
  leaf {p token token'} htoken htoken' := by
    obtain rfl : token.shift s = token' := by simpa [htoken] using htoken'
    rw [leaf?_shift, Option.map_map]
    congr 1
    funext node
    exact (Aspect.node_plain _).trans (s.moved_node node).symm
  mark {p} _ _ := by
    rw [atSign_eq_consume]
    apply consume_alike
    rw [Array.getElem?_map, Option.any_map]
    rfl
  destination {p} _ _ := by
    have hkinds := sameKinds_shift s tokens
    refine hkinds.destination_alike (fun _ => hkinds.rawUntil_alike id id ?_) ?_
    · intro q token token' _ _ htoken htoken'
      obtain rfl : token.shift s = token' := by simpa [htoken] using htoken'
      rfl
    · intro raw raw' h
      obtain rfl : raw' = raw := by simpa using h
      cases splitDestination? raw' with
      | none => exact .none
      | some d => exact .some ⟨rfl, rfl⟩

theorem lines_pair (s : Shift) (options : InlineOptions) (queue : List (Token Kind)) :
    QueuesPair s.comparison options options queue (queue.map (Token.shift s)) := by
  intro n
  have hpairing := pairing_shift s { options } (queue.drop n).toArray
  rwa [List.map_toArray, List.map_drop] at hpairing

/-- The lines of a moved queue are those of the queue, moved. -/
theorem Lines.shift {queue : List (Token Kind)} {nodes : List Node}
    (h : Lines options queue nodes) :
    Lines options (queue.map (Token.shift s)) (nodes.map (Node.shift s)) := by
  obtain ⟨nodes', hlines, hnodes⟩ := h.exists_alike (lines_pair s options queue)
  have hmoved : nodes' = nodes.map (Node.shift s) := by
    rw [← s.map_moved, ← Aspect.map_plain nodes']
    exact hnodes
  exact hmoved ▸ hlines

end InlineMarkdown
