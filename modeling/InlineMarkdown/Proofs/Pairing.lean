import InlineMarkdown.Proofs.Alike
import InlineMarkdown.Proofs.Comparison
import InlineMarkdown.Proofs.Lines

/-! Two runs side by side.

Two parsers go over two lists of tokens that look the same. A `Pairing` lists what else the runs
could notice: which constructs are tried, whether tildes count, which tokens stand for
themselves, and the two places where a construct reads the text of a token, the mark of a
citation and a destination. Nothing else tells the runs apart: attempts, steps and levels keep
them side by side (`Pairing.contents_parse`), so that they end at the same token, have learnt the
same and yield nodes that look the same. -/
namespace InlineMarkdown
open Attempt InlineMarkdown.Frame

/-- The cursor at the same place over other tokens. -/
def Cursor.over (c : Cursor) (tokens : Array (Token Kind)) : Cursor := { c with tokens }

theorem Cursor.over_tokens {c : Cursor} {tokens : Array (Token Kind)} (h : c.tokens = tokens) :
    c.over tokens = c := by
  subst h
  rfl

theorem Cursor.reset_over {c : Cursor} {tokens tokens' : Array (Token Kind)}
    (hc : c.tokens = tokens) (hsize : tokens'.size = tokens.size) (position : Nat) :
    (c.over tokens').reset position = (c.reset position).over tokens' := by
  unfold Cursor.reset Cursor.over
  dsimp only
  rw [hsize, hc]

namespace InlineParser

/-- Two runs have ended side by side, with related results. -/
structure Runs {α : Type} (tokens tokens' : Array (Token Kind)) (R : α → α → Prop)
    (run run' : α × Cursor) : Prop where
  result : R run.1 run'.1
  tokens : run.2.tokens = tokens
  cursor : run'.2 = run.2.over tokens'

/-- Why two parsers stay side by side, over tokens that look the same. -/
structure Pairing (C : Comparison) (parser parser' : InlineParser)
    (tokens tokens' : Array (Token Kind)) : Prop where
  search : parser'.search = parser.search
  token : tokens'.map C.seen'.token = tokens.map C.seen.token
  frames {p : Nat} {token : Token Kind} : tokens[p]? = some token →
    framesAt parser'.options token.kind = framesAt parser.options token.kind
  strikethrough {p : Nat} : KindAt tokens p .tilde →
    parser'.options.strikethrough = parser.options.strikethrough
  leaf {p : Nat} {token token' : Token Kind} : tokens[p]? = some token →
    tokens'[p]? = some token' →
      (leaf? parser'.options token').map C.seen'.node = (leaf? parser.options token).map C.seen.node
  /-- The mark of a citation, behind the bracket. -/
  mark {p : Nat} : parser.options.citations = true → KindAt tokens p .leftBracket →
    Alike Eq tokens tokens' atSign atSign (p + 1)
  /-- The destination of a link or an image, behind the closing bracket. -/
  destination {p : Nat} : (parser.options.links || parser.options.images) = true →
    KindAt tokens p .rightBracket →
      Alike
        (fun d d' =>
          C.seen.target d'.1 = C.seen.target d.1 ∧ C.seen.target d'.2 = C.seen.target d.2)
        tokens tokens' destination destination (p + 1)

/-- Two attempts made at `c` end side by side. -/
def Attempts (C : Comparison) (tokens tokens' : Array (Token Kind)) (a a' : Attempt Node)
    (c : Cursor) : Prop :=
  Runs tokens tokens' (Option.Rel C.SameNode) (a c) (a' (c.over tokens'))

/-- Two parses of content end side by side, wherever they begin. -/
def Contents (C : Comparison) (tokens tokens' : Array (Token Kind)) (parse parse' : ParseContent) :
    Prop :=
  ∀ (stop : List Kind) (c : Cursor), c.tokens = tokens →
    Runs tokens tokens' C.SameNodes (parse stop c) (parse' stop (c.over tokens'))

variable {C : Comparison} {parser parser' : InlineParser} {tokens tokens' : Array (Token Kind)}
  {parse parse' : ParseContent} {inner inner' : Option ParseContent} {c : Cursor}
  {token token' : Token Kind} {d d' : Draft} {nodes nodes' : List Node} {p start : Nat}

/-! ### Attempts -/

theorem attempts_fail (hc : c.tokens = tokens) : Attempts C tokens tokens' fail fail c :=
  ⟨.none, hc, rfl⟩

/-- Either both attempts succeed or both fail. -/
theorem Attempts.cases {a a' : Attempt Node} (h : Attempts C tokens tokens' a a' c) :
    (∃ n n' e, a c = (some n, e) ∧ a' (c.over tokens') = (some n', e.over tokens') ∧
      C.SameNode n n' ∧ e.tokens = tokens) ∨
    ∃ e, a c = (none, e) ∧ a' (c.over tokens') = (none, e.over tokens') ∧ e.tokens = tokens := by
  obtain ⟨hresult, htokens, hcursor⟩ := h
  rcases hrun : a c with ⟨result, e⟩
  rcases hrun' : a' (c.over tokens') with ⟨result', e'⟩
  rw [hrun] at hresult htokens hcursor
  rw [hrun'] at hresult hcursor
  obtain rfl : e' = e.over tokens' := hcursor
  cases hresult with
  | some hnode => exact .inl ⟨_, _, e, rfl, rfl, hnode, htokens⟩
  | none => exact .inr ⟨e, rfl, rfl, htokens⟩

theorem Attempts.speculate {a a' : Attempt Node} (h : Attempts C tokens tokens' a a' c)
    (hsize : tokens'.size = tokens.size) (construct : Construct) :
    Attempts C tokens tokens' (speculate construct a) (speculate construct a') c := by
  unfold Attempts Attempt.speculate
  rcases h.cases with ⟨n, n', e, hrun, hrun', hnode, htokens⟩ | ⟨e, hrun, hrun', htokens⟩ <;>
    rw [hrun, hrun']
  · exact ⟨.some hnode, htokens, rfl⟩
  · exact ⟨.none, htokens, Cursor.reset_over (c := e.report _) htokens hsize c.position⟩

theorem Attempts.orElse {a a' b b' : Attempt Node} (h : Attempts C tokens tokens' a a' c)
    (hnext : (a c).1 = none → Attempts C tokens tokens' b b' (a c).2) :
    Attempts C tokens tokens' (a.orElse b) (a'.orElse b') c := by
  unfold Attempts Attempt.orElse
  rcases h.cases with ⟨n, n', e, hrun, hrun', hnode, htokens⟩ | ⟨e, hrun, hrun', htokens⟩ <;>
    rw [hrun] at hnext ⊢ <;> rw [hrun']
  · exact ⟨.some hnode, htokens, rfl⟩
  · exact hnext rfl

theorem Attempts.bracketed {attempt attempt' : ParseContent → Attempt Node}
    (hsize : tokens'.size = tokens.size) (remember : Bool) (construct : Construct)
    (hinner : Option.Rel (Contents C tokens tokens') inner inner') (hc : c.tokens = tokens)
    (h : ∀ parse parse', Contents C tokens tokens' parse parse' →
      Attempts C tokens tokens' (attempt parse) (attempt' parse') c.descend) :
    Attempts C tokens tokens' (bracketed remember inner construct attempt)
      (bracketed remember inner' construct attempt') c := by
  unfold Attempts Attempt.bracketed
  dsimp only
  rw [show (c.over tokens').knownFailure (c.over tokens').position =
    c.knownFailure c.position from rfl]
  split
  · exact ⟨.none, hc, rfl⟩
  · cases hinner with
    | none => exact ⟨.none, hc, rfl⟩
    | @some parse parse' hparse =>
      dsimp only
      rw [show (c.over tokens').descend = c.descend.over tokens' from rfl]
      rcases ((h parse parse' hparse).speculate hsize construct).cases with
        ⟨n, n', e, hrun, hrun', hnode, htokens⟩ | ⟨e, hrun, hrun', htokens⟩ <;>
        rw [hrun, hrun',
          show (e.over tokens').ascend = (e.ascend.1, e.ascend.2.over tokens') from rfl] <;>
        have htokens : e.ascend.2.tokens = tokens := htokens
      · cases e.ascend.1 with
        | false => exact ⟨.some hnode, htokens, rfl⟩
        | true => exact ⟨.none, htokens, Cursor.reset_over htokens hsize c.position⟩
      · cases e.ascend.1 with
        | false => exact ⟨.none, htokens, rfl⟩
        | true => exact ⟨.none, htokens, rfl⟩

theorem Attempts.orText {a a' : Attempt Node} (h : Attempts C tokens tokens' a a' c)
    (hsame : C.SameToken token token') (hdraft : C.SameDraft d d') :
    Runs tokens tokens' C.SameDraft (orText a token d c)
      (orText a' token' d' (c.over tokens')) := by
  unfold InlineParser.orText
  rcases h.cases with ⟨n, n', e, hrun, hrun', hnode, htokens⟩ | ⟨e, hrun, hrun', htokens⟩ <;>
    rw [hrun, hrun']
  · exact ⟨hdraft.push hnode, htokens, rfl⟩
  · exact ⟨hdraft.pushText hsame.text hsame.span, htokens, rfl⟩

namespace Pairing
variable (P : Pairing C parser parser' tokens tokens')
include P

/-! ### Tokens -/

theorem getElem? (p : Nat) : Option.Rel C.SameToken tokens[p]? tokens'[p]? := by
  have hp : (tokens'.map C.seen'.token)[p]? = (tokens.map C.seen.token)[p]? := by rw [P.token]
  rw [Array.getElem?_map, Array.getElem?_map] at hp
  revert hp
  cases tokens[p]? <;> cases tokens'[p]? <;> intro hp
  · exact .none
  · exact nomatch hp
  · exact nomatch hp
  · obtain ⟨hkind, htext, hspan⟩ := Token.mk.inj (Option.some.inj hp)
    exact .some ⟨hkind, htext, hspan⟩

theorem sameKinds : SameKinds tokens tokens' := by
  intro p
  have hp := P.getElem? p
  revert hp
  cases tokens[p]? <;> cases tokens'[p]? <;> intro hp <;> cases hp
  · rfl
  · rename_i h
    exact congrArg some h.kind

/-- Where the first run is at a token, the other is at one that looks the same. -/
theorem exists_token (htoken : tokens[p]? = some token) :
    ∃ token', tokens'[p]? = some token' ∧ C.SameToken token token' := by
  have hp := P.getElem? p
  rw [htoken] at hp
  revert hp
  cases tokens'[p]? with
  | none => exact nofun
  | some token' =>
    intro hp
    cases hp with
    | some h => exact ⟨token', rfl, h⟩

theorem spanSince (htoken : tokens[start]? = some token) (q : Nat) :
    C.seen'.span (Cursor.spanSince { tokens := tokens', position := q } start) =
      C.seen.span (Cursor.spanSince { tokens, position := q } start) := by
  obtain ⟨token', htoken', hsame⟩ := P.exists_token htoken
  obtain ⟨hstart, hstop⟩ := Span.mk.inj hsame.span
  have hlast := P.getElem? (q - 1)
  unfold Cursor.spanSince
  dsimp only
  rw [htoken, htoken']
  dsimp only
  by_cases hlt : start < q
  · rw [if_pos hlt, if_pos hlt]
    revert hlast
    cases tokens[q - 1]? <;> cases tokens'[q - 1]? <;> intro hlast <;> cases hlast
    · exact congrArg₂ Span.mk hstart hstart
    · rename_i h
      exact congrArg₂ Span.mk hstart (Span.mk.inj h.span).2
  · rw [if_neg hlt, if_neg hlt]
    exact congrArg₂ Span.mk hstart hstart

theorem map_runFrom (kind : Kind) (limit p : Nat) :
    (Cursor.runFrom tokens' kind limit p).map C.seen'.token =
      (Cursor.runFrom tokens kind limit p).map C.seen.token := by
  rw [← Cursor.runFrom_map, P.token, Cursor.runFrom_map]

/-! ### What opens and closes a construct -/

theorem opening {kind : Kind} {frame : Frame} (hframe : frame ∈ framesAt parser.options kind) :
    frame.opening.view tokens' p = frame.opening.view tokens p := by
  have hexpect := P.sameKinds.expect_alike
  have hon := isOn_of_mem_framesAt hframe
  apply Alike.view_eq
  rcases framesAt_cases hframe with rfl | rfl | rfl | rfl
  · exact .bind (expect_moves _) (expect_moves _) (hexpect _ p) fun _ _ q _ _ => hexpect _ q
  · exact .bind (expect_moves _) (expect_moves _) (hexpect _ p) fun _ _ q _ _ => hexpect _ q
  · refine .bind (expect_moves _) (expect_moves _) (hexpect _ p) fun _ _ q hq _ => ?_
    obtain ⟨rfl, hbracket⟩ := view_expect_eq_some hq
    exact P.mark hon hbracket
  · exact hexpect _ p

theorem nodeSince_alike (htoken : tokens[start]? = some token) {kind kind' : NodeKind}
    (hkind : C.seen'.kind kind' = C.seen.kind kind) (h : C.SameNodes nodes nodes') (q : Nat) :
    Alike C.SameNode tokens tokens' (nodeSince start kind nodes) (nodeSince start kind' nodes')
      q := by
  refine ⟨.some ?_, rfl⟩
  show C.seen'.node _ = C.seen.node _
  rw [Aspect.node_mk, Aspect.node_mk, hkind, P.spanSince htoken q, h]

theorem identifier_alike (h : C.SameNodes nodes nodes') (q : Nat) :
    Alike C.SameWord tokens tokens' (identifier nodes) (identifier nodes') q := by
  have hword := h.flattenText
  refine .bind (expect_moves _) (expect_moves _) (P.sameKinds.expect_alike _ q) fun _ _ r _ _ => ?_
  refine .ite ?_ .fail (.pure hword)
  rw [hword.isEmpty_eq, hword.any_isSpace_eq]

section Closings
variable (htoken : tokens[start]? = some token) (h : C.SameNodes nodes nodes') (q : Nat)
include htoken h

theorem image_closing (hon : parser.options.images = true) :
    Alike C.SameNode tokens tokens' (image.closing start nodes) (image.closing start nodes') q := by
  refine .bind (expect_moves _) (expect_moves _) (P.sameKinds.expect_alike _ q)
    fun _ _ r hr _ => ?_
  obtain ⟨rfl, hbracket⟩ := view_expect_eq_some hr
  have hread : (parser.options.links || parser.options.images) = true := by rw [hon, Bool.or_true]
  refine .bind destination_moves destination_moves (P.destination hread hbracket)
    fun d d' e _ hd => P.nodeSince_alike htoken ?_ .nil e
  rw [Aspect.kind, Aspect.kind, C.target, hd.1, hd.2, h.flattenText]

theorem footnote_closing :
    Alike C.SameNode tokens tokens' (footnote.closing start nodes) (footnote.closing start nodes')
      q := by
  refine .bind (identifier_moves _) (identifier_moves _) (P.identifier_alike h q)
    fun word word' e _ hword => P.nodeSince_alike htoken ?_ .nil e
  rw [Aspect.kind, Aspect.kind, hword]

theorem citation_closing :
    Alike C.SameNode tokens tokens' (citation.closing start nodes) (citation.closing start nodes')
      q := by
  refine .bind (identifier_moves _) (identifier_moves _) (P.identifier_alike h q)
    fun word word' e _ hword => P.nodeSince_alike htoken ?_ .nil e
  rw [Aspect.kind, Aspect.kind, hword]

theorem link_closing (hon : parser.options.links = true) :
    Alike C.SameNode tokens tokens' (link.closing start nodes) (link.closing start nodes') q := by
  have hexpect := P.sameKinds.expect_alike
  refine .bind (expect_moves _) (expect_moves _) (hexpect _ q) fun _ _ r hr _ => ?_
  obtain ⟨rfl, hbracket⟩ := view_expect_eq_some hr
  refine .bind (Moves.look fun _ => rfl) (Moves.look fun _ => rfl) (P.sameKinds.isAt_alike _ _)
    fun isParen isParen' e he hsame => ?_
  obtain rfl : q + 1 = e := congrArg Prod.snd he
  subst hsame
  refine .ite Iff.rfl ?_ ?_
  · have hread : (parser.options.links || parser.options.images) = true := by rw [hon, Bool.true_or]
    refine .bind destination_moves destination_moves (P.destination hread hbracket)
      fun d d' e _ hd => P.nodeSince_alike htoken ?_ h e
    rw [Aspect.kind, Aspect.kind, C.target, hd.1, hd.2]
  · refine .bind (expect_moves _) (expect_moves _) (hexpect _ _) fun _ _ r _ _ => ?_
    have hraw : Alike C.SameWord tokens tokens' (rawUntil .rightBracket) (rawUntil .rightBracket)
        r := P.sameKinds.rawUntil_alike _ _ fun k token token' _ _ htoken htoken' => by
      obtain ⟨other, hother, hsame⟩ := P.exists_token htoken
      obtain rfl := Option.some.inj (htoken'.symm.trans hother)
      exact hsame.text
    refine .bind (rawUntil_moves _) (rawUntil_moves _) hraw fun label label' e _ hlabel => ?_
    refine .bind (expect_moves _) (expect_moves _) (hexpect _ _) fun _ _ e _ _ => ?_
    refine .bind (Moves.ofOption _) (Moves.ofOption _)
      (.ofOption (h.referenceName? hlabel)) fun name name' e _ hname => ?_
    refine P.nodeSince_alike htoken ?_ h e
    rw [Aspect.kind, Aspect.kind, C.target, hname]

theorem closing {frame : Frame} (hframe : frame ∈ framesAt parser.options token.kind) :
    Alike C.SameNode tokens tokens' (frame.closing start nodes) (frame.closing start nodes') q := by
  have hon := isOn_of_mem_framesAt hframe
  rcases framesAt_cases hframe with rfl | rfl | rfl | rfl
  · exact P.image_closing htoken h q hon
  · exact P.footnote_closing htoken h q
  · exact P.citation_closing htoken h q
  · exact P.link_closing htoken h q hon

end Closings

/-! ### Runs -/

/-- Where one run is at a token the other is at one that looks the same, and where one is at the
end so is the other. -/
theorem peek (hc : c.tokens = tokens) : Option.Rel C.SameToken c.peek (c.over tokens').peek := by
  subst hc
  exact P.getElem? c.position

/-- A step at a token that starts no construct. -/
theorem runs_plain (hc : c.tokens = tokens) (htoken : c.peek = some token)
    (htoken' : (c.over tokens').peek = some token') (hsame : C.SameToken token token')
    (hframes : framesAt parser.options token.kind = []) (hdraft : C.SameDraft d d') :
    Runs tokens tokens' C.SameDraft (parser.step inner token d c)
      (parser'.step inner' token' d' (c.over tokens')) := by
  subst hc
  have htoken : c.tokens[c.position]? = some token := htoken
  have htoken' : tokens'[c.position]? = some token' := htoken'
  have hends {f f' : Draft → Draft} {q : Nat}
      (hplain : Plain parser.options c.tokens c.position token f q)
      (hplain' : Plain parser'.options tokens' c.position token' f' q)
      (h : C.SameDraft (f d) (f' d')) : Runs c.tokens tokens' C.SameDraft
        (parser.step inner token d c) (parser'.step inner' token' d' (c.over tokens')) := by
    rw [hplain.2.2 parser rfl inner d c rfl rfl,
      hplain'.2.2 parser' rfl inner' d' (c.over tokens') rfl rfl]
    exact ⟨h, rfl, rfl⟩
  by_cases hmarker : ∃ marker : Marker, token.kind = marker.kind
  · obtain ⟨marker, hkind⟩ := hmarker
    obtain ⟨limit, hlimit⟩ : ∃ limit, c.tokens.size - c.position = limit + 1 :=
      ⟨c.tokens.size - c.position - 1, by have := lt_size_of_getElem? htoken; omega⟩
    have hkind' := hsame.kind.trans hkind
    have hrest := P.map_runFrom marker.kind limit (c.position + 1)
    have hlength := congrArg List.length hrest
    rw [List.length_map, List.length_map] at hlength
    have hplain' : Plain parser'.options tokens' c.position token' _ _ :=
      .of_run hkind' (by rw [P.sameKinds.size_eq, hlimit, Cursor.runFrom_of_kindAt htoken' hkind'])
    rw [hlength] at hplain'
    refine hends (.of_run hkind (by rw [hlimit, Cursor.runFrom_of_kindAt htoken hkind])) hplain'
      (hdraft.run ?_ fun htilde => ?_)
    · rw [List.map_cons, List.map_cons, hrest, hsame.token_eq]
    · exact P.strikethrough ⟨token, htoken, by rw [hkind, htilde]; rfl⟩
  · have hmarker (marker : Marker) : token.kind ≠ marker.kind := fun h => hmarker ⟨marker, h⟩
    have hframes' : framesAt parser'.options token'.kind = [] := by
      rw [hsame.kind, P.frames htoken, hframes]
    exact hends (.of_ne_marker hframes hmarker htoken)
      (.of_ne_marker hframes' (hsame.kind ▸ hmarker) htoken')
      (hdraft.own hsame (P.leaf htoken htoken'))

/-! ### Constructs -/

theorem attempts_frame {frame : Frame} (hc : c.tokens = tokens) (htoken : c.peek = some token)
    (hframe : frame ∈ framesAt parser.options token.kind)
    (hparse : Contents C tokens tokens' parse parse') :
    Attempts C tokens tokens' (frame.attempt parse) (frame.attempt parse') c := by
  subst hc
  have hregular := framesAt_regular hframe
  have hopening : frame.opening.view (c.over tokens').tokens (c.over tokens').position =
      frame.opening.view c.tokens c.position := P.opening hframe
  unfold Attempts
  rcases hview : frame.opening.view c.tokens c.position with ⟨_ | _, q⟩ <;> rw [hview] at hopening
  · rw [attempt_of_closed hregular hview, attempt_of_closed hregular hopening]
    exact ⟨.none, rfl, rfl⟩
  · obtain ⟨hcontent, htokens, hcursor⟩ := hparse [.rightBracket] { c with position := q } rfl
    rcases hrun : parse [.rightBracket] { c with position := q } with ⟨content, e⟩
    rcases hrun' : parse' [.rightBracket] (Cursor.over { c with position := q } tokens') with
      ⟨content', e'⟩
    rw [hrun] at hcontent htokens hcursor
    rw [hrun'] at hcontent hcursor
    obtain rfl : e' = e.over tokens' := hcursor
    obtain ⟨hnode, hend⟩ := P.closing htoken hcontent e.position hframe
    rw [attempt_of_open hregular hview hrun, attempt_of_open hregular hopening hrun',
      show e.tokens = c.tokens from htokens]
    exact ⟨hnode, rfl, congrArg (Cursor.mk tokens' · e.failed e.depth e.abandoned e.reports) hend⟩

theorem attempts_firstOf {frames : List Frame} (hc : c.tokens = tokens)
    (htoken : c.peek = some token)
    (hframes : ∀ frame ∈ frames, frame ∈ framesAt parser.options token.kind)
    (hparse : Contents C tokens tokens' parse parse') :
    Attempts C tokens tokens' (firstOf parse frames) (firstOf parse' frames) c := by
  induction frames generalizing c with
  | nil => exact attempts_fail hc
  | cons frame rest ih =>
    have hframe := P.attempts_frame hc htoken (hframes frame (List.mem_cons_self ..)) hparse
    refine (hframe.speculate P.sameKinds.size_eq _).orElse fun hfailed => ?_
    have hback : (speculate frame.construct (frame.attempt parse) c).2.tokens = tokens ∧
        (speculate frame.construct (frame.attempt parse) c).2.peek = some token := by
      have hlt : c.position ≤ tokens.size := hc ▸ Nat.le_of_lt (lt_size_of_peek htoken)
      rcases hframe.cases with ⟨n, n', e, hrun, -⟩ | ⟨e, hrun, -, htokens⟩
      · simp [speculate, hrun] at hfailed
      · simp only [speculate, hrun]
        refine ⟨htokens, ?_⟩
        unfold Cursor.peek at htoken ⊢
        show e.tokens[min c.position e.tokens.size]? = some token
        rw [htokens, Nat.min_eq_left hlt, ← hc]
        exact htoken
    exact ih hback.1 hback.2 fun f hf => hframes f (List.mem_cons_of_mem _ hf)

theorem attempts_at (hinner : Option.Rel (Contents C tokens tokens') inner inner')
    (hc : c.tokens = tokens) (htoken : c.peek = some token) :
    Attempts C tokens tokens' (parser.attemptAt inner token.kind)
      (parser'.attemptAt inner' token.kind) c := by
  have hframes := P.frames (hc ▸ (show c.tokens[c.position]? = some token from htoken))
  by_cases hnil : framesAt parser.options token.kind = []
  · rw [attemptAt_of_framesAt_nil inner hnil, attemptAt_of_framesAt_nil inner' (hframes ▸ hnil)]
    exact attempts_fail hc
  · rw [attemptAt_of_framesAt_ne_nil inner hnil,
      attemptAt_of_framesAt_ne_nil inner' (hframes ▸ hnil), P.search]
    refine Attempts.bracketed P.sameKinds.size_eq _ _ hinner hc fun parse parse' hparse => ?_
    have htoken : c.descend.peek = some token := htoken
    cases hkind : token.kind with
    | exclamation =>
      rw [hkind] at hnil
      have himage : image ∈ framesAt parser.options .exclamation := by
        cases himages : parser.options.images <;> simp [framesAt, himages] at hnil ⊢
      exact P.attempts_frame hc htoken (hkind ▸ himage) hparse
    | leftBracket =>
      rw [hkind] at hframes
      have hsame : bracketFrames parser'.options = bracketFrames parser.options := hframes
      simp only [bodyAt, bracket, hsame]
      exact P.attempts_firstOf hc htoken (fun frame hframe => by rw [hkind]; exact hframe) hparse
    | _ => exact attempts_fail hc

/-! ### Steps and levels -/

theorem runs_step (hinner : Option.Rel (Contents C tokens tokens') inner inner')
    (hc : c.tokens = tokens) (htoken : c.peek = some token)
    (htoken' : (c.over tokens').peek = some token') (hsame : C.SameToken token token')
    (hdraft : C.SameDraft d d') :
    Runs tokens tokens' C.SameDraft (parser.step inner token d c)
      (parser'.step inner' token' d' (c.over tokens')) := by
  by_cases hnil : framesAt parser.options token.kind = []
  · exact P.runs_plain hc htoken htoken' hsame hnil hdraft
  · have hframes := P.frames (hc ▸ (show c.tokens[c.position]? = some token from htoken))
    rw [parser.step_of_framesAt_ne_nil inner d c hnil,
      parser'.step_of_framesAt_ne_nil inner' d' _ (by rw [hsame.kind, hframes]; exact hnil),
      hsame.kind]
    exact (P.attempts_at hinner hc htoken).orText hsame hdraft

theorem runs_steps (hinner : Option.Rel (Contents C tokens tokens') inner inner')
    (stop : List Kind) (limit : Nat) (hc : c.tokens = tokens) (hdraft : C.SameDraft d d') :
    Runs tokens tokens' C.SameDraft (parser.steps inner stop limit d c)
      (parser'.steps inner' stop limit d' (c.over tokens')) := by
  induction limit generalizing d d' c with
  | zero => exact ⟨hdraft, hc, rfl⟩
  | succ limit ih =>
    have hpeek := P.peek hc
    unfold steps
    rcases htoken : c.peek with _ | token <;>
      rcases htoken' : (c.over tokens').peek with _ | token' <;> rw [htoken, htoken'] at hpeek <;>
      cases hpeek
    · exact ⟨hdraft, hc, rfl⟩
    · rename_i hsame
      have hstops : stopsAt stop (c.over tokens') token' = stopsAt stop c token := by
        unfold stopsAt Token.isEof
        rw [hsame.kind]
        rfl
      dsimp only
      rw [hstops]
      split
      · exact ⟨hdraft, hc, rfl⟩
      · obtain ⟨hnext, htokens, hcursor⟩ := P.runs_step hinner hc htoken htoken' hsame hdraft
        rw [hcursor]
        exact ih htokens hnext

theorem contents_level (hinner : Option.Rel (Contents C tokens tokens') inner inner') :
    Contents C tokens tokens' (parser.level inner) (parser'.level inner') := by
  intro stop c hc
  have hremaining : (c.over tokens').remaining = c.remaining := by
    unfold Cursor.remaining
    rw [hc]
    exact congrArg (· - c.position) P.sameKinds.size_eq
  obtain ⟨hdraft, htokens, hcursor⟩ := P.runs_steps hinner stop c.remaining hc .empty
  unfold level
  rw [hremaining]
  exact ⟨hdraft.finish, htokens, hcursor⟩

/-- Where as many levels may be opened, contents end side by side. -/
theorem contents_atRoom (room : Nat) :
    Contents C tokens tokens' (parser.atRoom room) (parser'.atRoom room) := by
  induction room with
  | zero => exact P.contents_level .none
  | succ room ih => exact P.contents_level (.some ih)

/-- Calls from outside end side by side. -/
theorem contents_parse :
    Contents C tokens tokens' parser.parse parser'.parse := by
  intro stop c hc
  unfold InlineParser.parse
  rw [P.search]
  exact P.contents_atRoom _ stop c hc

end Pairing
end InlineParser

/-! ### Lines -/

section Lines
variable {C : Comparison} {options options' : InlineOptions} {queue queue' : List (Token Kind)}
  {nodes : List Node}

/-- What is left of two queues pairs wherever they are cut. -/
def QueuesPair (C : Comparison) (options options' : InlineOptions)
    (queue queue' : List (Token Kind)) : Prop :=
  ∀ n, InlineParser.Pairing C { options } { options := options' } (queue.drop n).toArray
    (queue'.drop n).toArray

namespace QueuesPair
variable (h : QueuesPair C options options' queue queue')
include h

theorem drop (k : Nat) : QueuesPair C options options' (queue.drop k) (queue'.drop k) := by
  intro n
  rw [List.drop_drop, List.drop_drop]
  exact h (k + n)

theorem head? : Option.Rel C.SameToken queue.head? queue'.head? := by
  simpa [List.head?_eq_getElem?] using (h 0).getElem? 0

theorem lineOf : C.SameNodes (lineOf options queue).1 (lineOf options' queue').1 ∧
    (lineOf options' queue').2.position = (lineOf options queue).2.position := by
  obtain ⟨hnodes, -, hcursor⟩ := (h 0).contents_parse lineStop { tokens := queue.toArray } rfl
  have hposition := congrArg Cursor.position hcursor
  exact ⟨hnodes, hposition⟩

end QueuesPair

/-- The lines of queues that pair look the same. -/
theorem Lines.exists_alike (h : Lines options queue nodes)
    (hpair : QueuesPair C options options' queue queue') :
    ∃ nodes', Lines options' queue' nodes' ∧ C.SameNodes nodes nodes' := by
  induction h generalizing queue' with
  | @done queue hend =>
    refine ⟨[], .done fun token' htoken' => ?_, .nil⟩
    have hhead := hpair.head?
    rw [Option.mem_def.1 htoken'] at hhead
    cases hqueue : queue.head? <;> rw [hqueue] at hhead <;> cases hhead
    rename_i hsame
    exact isEof_iff.2 (hsame.kind.trans (isEof_iff.1 (hend _ hqueue)))
  | @softBreak token rest nodes hkind _ ih =>
    have hhead := hpair.head?
    rw [List.head?_cons] at hhead
    cases queue' with
    | nil => cases hhead
    | cons token' rest' =>
      cases hhead with
      | some hsame =>
        obtain ⟨nodes', hlines, hnodes⟩ := ih (hpair.drop 1)
        refine ⟨_, .softBreak (hsame.kind.trans hkind) hlines, ?_⟩
        unfold Comparison.SameNodes
        rw [List.map_cons, List.map_cons, hnodes, Aspect.node_mk, Aspect.node_mk, hsame.span]
        rfl
  | @line token queue nodes hfront heof hkind _ ih =>
    have hhead := hpair.head?
    rw [hfront] at hhead
    obtain ⟨hline, hposition⟩ := hpair.lineOf
    obtain ⟨nodes', hlines, hnodes⟩ := ih (hpair.drop _)
    rw [← hposition] at hlines
    cases hfront' : queue'.head? <;> rw [hfront'] at hhead <;> cases hhead
    rename_i token' hsame
    refine ⟨_, .line hfront' ((congrArg TokenKind.isEof hsame.kind).trans heof)
      (fun h => hkind (hsame.kind.symm.trans h)) hlines, ?_⟩
    unfold Comparison.SameNodes
    rw [List.map_append, List.map_append, hline, hnodes]

end Lines

end InlineMarkdown
