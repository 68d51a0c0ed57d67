import InlineMarkdown.Engine.Script
import InlineMarkdown.Proofs.Runs

/-! Runs of consumers that keep their contract.

A consumer keeps it (`Consumer.Honest`) if it declines without a trace and takes at least
one token for a claim, recording nothing. Then so does every round: what it takes of the
queue is the block that one consumer claims or, if none does, the one token that the driver
records (`Registry.ask_cases`). Round by round the blocks make up the tokens of the run,
what is recorded tells which of them nobody claimed, and the node under construction goes
from claim to claim (`Registry.Accounted`). -/
namespace InlineMarkdown
variable {K N : Type}

/-! ### Honest consumers -/

/-- What a consumer owes when it is asked about the token at the front. -/
structure Consumer.Honest (consumer : Consumer K N) : Prop where
  declines {ctx after : Context K N} {token : Token K} : ctx.front? = some token →
    consumer.consume ctx token = (false, after) →
      after.queue = ctx.queue ∧ after.node = ctx.node ∧ after.diagnostics = ctx.diagnostics
  claims {ctx after : Context K N} {token : Token K} : ctx.front? = some token →
    consumer.consume ctx token = (true, after) →
      after.remaining < ctx.remaining ∧ after.diagnostics = ctx.diagnostics

/-- A consumer that declines by handing the context back keeps the contract if its claims do. -/
theorem Consumer.honest_of_claims {consumer : Consumer K N}
    (h : ∀ {ctx : Context K N} {token : Token K}, ctx.front? = some token →
      consumer.consume ctx token = (false, ctx) ∨
        ∃ after, consumer.consume ctx token = (true, after) ∧
          after.remaining < ctx.remaining ∧ after.diagnostics = ctx.diagnostics) :
    consumer.Honest := by
  constructor <;> intro ctx after token hfront hconsume
  · obtain hkept | ⟨_, htook, -⟩ := h hfront
    · obtain ⟨-, rfl⟩ := Prod.mk.inj (hkept.symm.trans hconsume)
      exact ⟨rfl, rfl, rfl⟩
    · cases (Prod.mk.inj (htook.symm.trans hconsume)).1
  · obtain hkept | ⟨_, htook, hclaim⟩ := h hfront
    · cases (Prod.mk.inj (hkept.symm.trans hconsume)).1
    · obtain ⟨-, rfl⟩ := Prod.mk.inj (htook.symm.trans hconsume)
      exact hclaim

/-- All consumers keep the contract. -/
def Registry.Honest (registry : Registry K N) : Prop :=
  ∀ consumer ∈ registry.consumers, consumer.Honest

namespace Offer

/-- The tokens that are gone when the next round begins. -/
def taken (offer : Offer K N) : List (Token K) :=
  offer.before.queue.take (offer.before.remaining - offer.next.remaining)

/-- The round keeps the contract. -/
structure Fair (offer : Offer K N) : Prop where
  /-- A claim takes a block of tokens, with the offered one in front. -/
  claimed : offer.answer.isSome = true →
    offer.before.queue = offer.taken ++ offer.after.queue ∧
      offer.taken.head? = some offer.token ∧ offer.after.diagnostics = offer.before.diagnostics
  /-- A token that nobody claims is taken alone, with no other trace than its record. -/
  unclaimed : offer.answer.isSome = false →
    offer.before.queue = offer.token :: offer.next.queue ∧ offer.taken = [offer.token] ∧
      offer.after.node = offer.before.node ∧ offer.after.diagnostics = offer.before.diagnostics

theorem next_node (offer : Offer K N) : offer.next.node = offer.after.node := by
  unfold next
  split <;> rfl

theorem next_diagnostics (offer : Offer K N) :
    offer.next.diagnostics.toList = offer.after.diagnostics.toList ++ offer.records := by
  unfold next records
  split
  · exact (List.append_nil _).symm
  · exact Array.toList_push

end Offer

namespace Registry
variable [TokenKind K] {registry : Registry K N} {ctx : Context K N} {token : Token K}

/-- Honest consumers leave no trace, or one of them claims and takes something. -/
theorem offerTo_cases {consumers : List (Consumer K N)}
    (hhonest : ∀ consumer ∈ consumers, consumer.Honest) (hfront : ctx.front? = some token) :
    let result := offerTo token consumers ctx
    (result.1 = none ∧ result.2.queue = ctx.queue ∧ result.2.node = ctx.node ∧
        result.2.diagnostics = ctx.diagnostics) ∨
      (result.1.isSome = true ∧ result.2.remaining < ctx.remaining ∧
        result.2.diagnostics = ctx.diagnostics) := by
  induction consumers generalizing ctx with
  | nil => exact .inl ⟨rfl, rfl, rfl, rfl⟩
  | cons consumer rest ih =>
    obtain ⟨hconsumer, hrest⟩ := List.forall_mem_cons.1 hhonest
    rcases hconsume : consumer.consume ctx token with ⟨_ | _, after⟩ <;>
      simp only [offerTo, hconsume]
    · obtain ⟨hqueue, hnode, hdiagnostics⟩ := hconsumer.declines hfront hconsume
      have hfront' : after.front? = some token := by
        rw [Context.front?, hqueue]
        exact hfront
      have hleft : after.remaining = ctx.remaining := congrArg List.length hqueue
      rw [← hqueue, ← hnode, ← hdiagnostics, ← hleft]
      exact ih hrest hfront'
    · obtain ⟨hless, hdiagnostics⟩ := hconsumer.claims hfront hconsume
      exact .inr ⟨rfl, hless, hdiagnostics⟩

/-- A round of honest consumers keeps the contract. -/
theorem Honest.fair (hhonest : registry.Honest) (hfront : ctx.front? = some token) :
    (registry.ask ctx token).Fair := by
  obtain ⟨rest, hqueue⟩ := List.head?_eq_some_iff.1 hfront
  obtain ⟨hnone, hkept, hnode, hdiagnostics⟩ | ⟨hsome, hless, hdiagnostics⟩ :=
    offerTo_cases hhonest hfront
  · have hnext : (registry.ask ctx token).next.queue = rest := by
      have hafter : (registry.ask ctx token).after.queue = token :: rest := hkept.trans hqueue
      have hanswer : (registry.ask ctx token).answer = none := hnone
      simp [Offer.next, Context.skip, Context.advance, Context.record, Context.report, hanswer,
        hafter]
    refine ⟨fun hsome => by simp [ask, offer, hnone] at hsome, fun _ => ⟨?_, ?_, hnode, hdiagnostics⟩⟩
    · rw [hnext]
      exact hqueue
    · show ctx.queue.take (ctx.queue.length - (registry.ask ctx token).next.queue.length) = [token]
      rw [hnext, hqueue]
      simp
  · obtain ⟨block, hblock⟩ := registry.ask_suffix ctx token
    have hnext : (registry.ask ctx token).next = (registry.ask ctx token).after := if_pos hsome
    have htaken : (registry.ask ctx token).taken = block := by
      show ctx.queue.take (ctx.queue.length - (registry.ask ctx token).next.queue.length) = block
      rw [hnext, ← hblock]
      simp
    refine ⟨fun _ => ⟨?_, ?_, hdiagnostics⟩, fun hnone => absurd hsome (Bool.eq_false_iff.1 hnone)⟩
    · rw [htaken]
      exact hblock.symm
    · rw [htaken]
      cases block with
      | nil =>
        have hsame : (offerTo token registry.consumers ctx).2.remaining = ctx.remaining :=
          congrArg List.length hblock
        omega
      | cons first block =>
        have hfirst : some first = some token := by
          rw [← hfront, Context.front?, ← hblock]
          rfl
        exact hfirst

end Registry

/-! ### Runs -/

/-- The node under construction is what each round leaves for the next, and only claims
change it. -/
def Passes (node : N) : List (Offer K N) → N → Prop
  | [], final => final = node
  | offer :: rest, final =>
    offer.before.node = node ∧
      (offer.answer.isSome = false → offer.after.node = offer.before.node) ∧
      Passes offer.after.node rest final

/-- What became of the tokens of a context, up to where a run ends. -/
structure Accounted (ctx : Context K N) (offers : List (Offer K N)) (final : Context K N) :
    Prop where
  rounds : ∀ offer ∈ offers, offer.Fair
  tokens : ctx.queue = offers.flatMap Offer.taken ++ final.queue
  diagnostics : final.diagnostics.toList = ctx.diagnostics.toList ++ offers.flatMap Offer.records
  nodes : Passes ctx.node offers final.node

namespace Offer.Fair
variable {offer : Offer K N}

/-- What a round takes stands in front of what it leaves. -/
theorem queue (h : offer.Fair) : offer.before.queue = offer.taken ++ offer.next.queue := by
  by_cases hclaimed : offer.answer.isSome = true
  · have hnext : offer.next = offer.after := if_pos hclaimed
    rw [hnext]
    exact (h.claimed hclaimed).1
  · obtain ⟨hqueue, htaken, -⟩ := h.unclaimed (eq_false_of_ne_true hclaimed)
    rw [htaken]
    exact hqueue

theorem taken_ne_nil (h : offer.Fair) : offer.taken ≠ [] := by
  intro hnil
  by_cases hclaimed : offer.answer.isSome = true
  · have hfront := (h.claimed hclaimed).2.1
    rw [hnil] at hfront
    cases hfront
  · have htaken := (h.unclaimed (eq_false_of_ne_true hclaimed)).2.1
    rw [hnil] at htaken
    cases htaken

theorem remaining_lt (h : offer.Fair) : offer.next.remaining < offer.before.remaining := by
  have hlength := congrArg List.length h.queue
  have hpos := List.length_pos_iff.2 h.taken_ne_nil
  rw [List.length_append] at hlength
  simp only [Context.remaining]
  omega

theorem diagnostics (h : offer.Fair) :
    offer.next.diagnostics.toList = offer.before.diagnostics.toList ++ offer.records := by
  have hkept : offer.after.diagnostics = offer.before.diagnostics := by
    by_cases hclaimed : offer.answer.isSome = true
    · exact (h.claimed hclaimed).2.2
    · exact (h.unclaimed (eq_false_of_ne_true hclaimed)).2.2.2
  rw [offer.next_diagnostics, hkept]

/-- A round that keeps the contract accounts for what it takes. -/
theorem accounted (h : offer.Fair) {offers : List (Offer K N)} {final : Context K N}
    (hrest : Accounted offer.next offers final) : Accounted offer.before (offer :: offers) final where
  rounds := List.forall_mem_cons.2 ⟨h, hrest.rounds⟩
  tokens := by
    rw [h.queue, hrest.tokens, List.flatMap_cons, List.append_assoc]
  diagnostics := by
    rw [hrest.diagnostics, h.diagnostics, List.flatMap_cons, List.append_assoc]
  nodes := ⟨rfl, fun hclaimed => (h.unclaimed hclaimed).2.2.1, offer.next_node ▸ hrest.nodes⟩

end Offer.Fair

namespace Registry
variable [TokenKind K] {registry : Registry K N} {previous : Option Nat} {ctx final : Context K N}
  {offers : List (Offer K N)} {stop : Stop K}

/-- Honest consumers never bring the driver to a standstill, and account for all tokens. -/
theorem Runs.accounted (hhonest : registry.Honest)
    (h : registry.Runs previous ctx offers stop final) (hnew : previous ≠ some ctx.remaining) :
    stop = .finished ∧ Accounted ctx offers final := by
  induction h with
  | @finished _ ctx =>
    exact ⟨rfl, fun _ hoffer => absurd hoffer List.not_mem_nil, rfl, (List.append_nil _).symm, rfl⟩
  | stuck _ _ hsame => exact absurd hsame hnew
  | round hfront _ _ _ ih =>
    have hfair := hhonest.fair hfront
    obtain ⟨hstop, hrest⟩ := ih fun hsame => Nat.ne_of_gt hfair.remaining_lt (Option.some.inj hsame)
    exact ⟨hstop, hfair.accounted hrest⟩

end Registry

/-- The tokens in front of the first end of the input are dropped, if that is where the
others begin. -/
theorem dropWhile_isEof [TokenKind K] {passed rest : List (Token K)}
    (hpassed : ∀ token ∈ passed, token.isEof = false)
    (hrest : ∀ token ∈ rest.head?, token.isEof = true) :
    (passed ++ rest).dropWhile (!·.isEof) = rest := by
  rw [List.dropWhile_append_of_pos fun token htoken => by rw [hpassed token htoken]; rfl]
  cases rest with
  | nil => rfl
  | cons token rest => simp [hrest token rfl]

namespace Accounted
variable [TokenKind K] {ctx final : Context K N} {offers : List (Offer K N)}

/-- If no block holds an end of the input, the run goes on to the first one. -/
theorem stops (h : Accounted ctx offers final) (hend : final.AtEnd)
    (hwithin : ∀ offer ∈ offers, ∀ token ∈ offer.taken, token.isEof = false) :
    final.queue = ctx.queue.dropWhile (!·.isEof) := by
  rw [h.tokens, dropWhile_isEof _ hend]
  intro token htoken
  obtain ⟨offer, hoffer, htaken⟩ := List.mem_flatMap.1 htoken
  exact hwithin offer hoffer token htaken

end Accounted

/-- What the driver records, token by token. -/
theorem flatMap_records (offers : List (Offer K N)) :
    offers.flatMap Offer.records =
      (offers.filter (·.answer.isNone)).map fun offer =>
        ⟨.unrecognized offer.token.text, offer.token.span⟩ := by
  induction offers with
  | nil => rfl
  | cons offer rest ih =>
    rw [List.flatMap_cons, ih]
    cases hanswer : offer.answer <;> simp [Offer.records, hanswer]

/-! ### Children -/

section Children
variable [TreeNode N]

/-- The children that a claim puts behind those that were there. -/
def Offer.appended (offer : Offer K N) : List N :=
  (TreeNode.children offer.after.node).drop (TreeNode.children offer.before.node).length

/-- If claims do no more than append, their children follow each other. -/
theorem Passes.children {node final : N} {offers : List (Offer K N)} (h : Passes node offers final)
    (happends : ∀ offer ∈ offers, offer.answer.isSome = true →
      TreeNode.children offer.before.node <+: TreeNode.children offer.after.node) :
    TreeNode.children final =
      TreeNode.children node ++ (offers.filter (·.answer.isSome)).flatMap Offer.appended := by
  induction offers generalizing node with
  | nil =>
    obtain rfl : final = node := h
    simp
  | cons offer rest ih =>
    obtain ⟨rfl, hkept, hrest⟩ := h
    obtain ⟨happend, happends⟩ := List.forall_mem_cons.1 happends
    rw [ih hrest happends]
    cases hclaimed : offer.answer.isSome with
    | false =>
      rw [hkept hclaimed, List.filter_cons_of_neg (by simp [hclaimed])]
    | true =>
      obtain ⟨appended, hchildren⟩ := happend hclaimed
      have hoffer : offer.appended = appended := by
        rw [Offer.appended, ← hchildren, List.drop_left]
      have hfilter : (offer :: rest).filter (·.answer.isSome) =
          offer :: rest.filter (·.answer.isSome) := List.filter_cons_of_pos hclaimed
      rw [hfilter, List.flatMap_cons, hoffer, ← List.append_assoc, hchildren]

end Children

/-! ### Parses -/

/-- Every token of a parse with honest consumers is accounted for: up to the end of the
run the tokens are blocks, each claimed at once, and single tokens that nobody claims and
the diagnostics name, one for one. The root is what the claims make of it. -/
theorem Language.parse_accounts [TokenKind K] [TreeNode N] (language : Language K N)
    (hhonest : language.consumers.Honest) (input : List Char) (root : N) :
    ∃ offers final,
      language.consumers.Runs none { queue := language.tokenize input, node := root } offers
        .finished final ∧
      (∀ offer ∈ offers, offer.Fair) ∧
      language.tokenize input = offers.flatMap Offer.taken ++ final.queue ∧
      final.AtEnd ∧
      ((∀ offer ∈ offers, offer.answer.isSome = true → ∀ token ∈ offer.taken, token.isEof = false) →
        final.queue = (language.tokenize input).dropWhile (!·.isEof)) ∧
      (language.parse input root).diagnostics =
        ((offers.filter (·.answer.isNone)).map fun offer =>
          ⟨.unrecognized offer.token.text, offer.token.span⟩) ∧
      (language.parse input root).isFatal = false ∧
      Passes root offers (language.parse input root).root ∧
      ((∀ offer ∈ offers, offer.answer.isSome = true →
          TreeNode.children offer.before.node <+: TreeNode.children offer.after.node) →
        TreeNode.children (language.parse input root).root =
          TreeNode.children root ++ (offers.filter (·.answer.isSome)).flatMap Offer.appended) := by
  obtain ⟨offers, stop, hrun⟩ :=
    language.consumers.drive_runs { queue := language.tokenize input, node := root }
  obtain ⟨rfl, haccounted⟩ := hrun.accounted hhonest (by simp)
  have hend := hrun.atEnd
  have hdiagnostics : (language.parse input root).diagnostics = offers.flatMap Offer.records :=
    haccounted.diagnostics.trans (List.nil_append _)
  have hrecoverable : (language.parse input root).isFatal = false := by
    unfold Parsed.isFatal
    rw [hdiagnostics, List.any_flatMap]
    simpa using fun offer _ => offer.records_recoverable
  refine ⟨offers, _, hrun, haccounted.rounds, haccounted.tokens, hend, fun hwithin => ?_,
    hdiagnostics.trans (flatMap_records offers), hrecoverable, haccounted.nodes,
    haccounted.nodes.children⟩
  refine haccounted.stops hend fun offer hoffer => ?_
  by_cases hclaimed : offer.answer.isSome = true
  · exact hwithin offer hoffer hclaimed
  · rw [((haccounted.rounds offer hoffer).unclaimed (eq_false_of_ne_true hclaimed)).2.1]
    intro token htoken
    rw [List.mem_singleton.1 htoken]
    exact (hrun.offered offer hoffer).2.2

/-! ### Scripts -/

namespace Action
variable {token : Token Kind} {actions : List Action} {ctx : Context Kind Node}

theorem foldl_run_diagnostics (hquiet : ∀ error, .record error ∉ actions) :
    (actions.foldl (run token) ctx).diagnostics = ctx.diagnostics := by
  induction actions generalizing ctx with
  | nil => rfl
  | cons action rest ih =>
    rw [List.foldl_cons, ih fun error hmem => hquiet error (List.mem_cons_of_mem _ hmem)]
    cases action with
    | record error => exact absurd List.mem_cons_self (hquiet error)
    | advance | popFront | append | nest => rfl

theorem foldl_run_remaining (htakes : popFront ∈ actions) (hsome : 0 < ctx.remaining) :
    (actions.foldl (run token) ctx).remaining < ctx.remaining := by
  obtain ⟨first, rest, rfl⟩ := List.append_of_mem htakes
  rw [List.foldl_append, List.foldl_cons]
  have hfirst := (queue_foldl_run_suffix token first ctx).length_le
  have hrest := (queue_foldl_run_suffix token rest
    (popFront.run token (first.foldl (run token) ctx))).length_le
  have hpop : (popFront.run token (first.foldl (run token) ctx)).queue.length =
      (first.foldl (run token) ctx).queue.length - 1 := List.length_drop
  simp only [Context.remaining] at hsome ⊢
  omega

end Action

/-- A script that claims what it acts on, takes a token and records nothing keeps the
contract. -/
theorem Script.honest (name : String) (priority : Int) {script : Script}
    (hclaim : script.claim = true) (htakes : .popFront ∈ script.actions)
    (hquiet : ∀ error, .record error ∉ script.actions) :
    (script.consumer name priority).Honest := by
  apply Consumer.honest_of_claims
  intro ctx token hfront
  by_cases happlies : script.applies ctx token = true
  · refine .inr ⟨script.actions.foldl (Action.run token) ctx, ?_,
      Action.foldl_run_remaining htakes (Context.remaining_pos hfront),
      Action.foldl_run_diagnostics hquiet⟩
    simp only [consumer, happlies, if_true, hclaim]
  · exact .inl (if_neg happlies)

/-- A language whose only consumer turns text into nodes and leaves all else alone. -/
def textOnly : Language Kind Node where
  name := "text"
  tokenize := InlineMarkdown.tokenize
  consumers := .ofList
    [({ kinds := some [.text], actions := [.append none, .popFront], claim := true } : Script).consumer
      "text" 0]

theorem textOnly_honest : textOnly.consumers.Honest :=
  List.forall_mem_singleton.2 (Script.honest "text" 0 rfl (by simp) (by simp))

/-- What the language above makes of a text with a delimiter in it. -/
theorem parse_accounts_textOnly :
    textOnly.consumers.Honest ∧ ∃ offers : List (Offer Kind Node),
      (∀ offer ∈ offers, offer.Fair) ∧
      (textOnly.parse "a*b".toList Node.emptyDocument).diagnostics =
        ((offers.filter (·.answer.isNone)).map fun offer =>
          ⟨.unrecognized offer.token.text, offer.token.span⟩) ∧
      (textOnly.parse "a*b".toList Node.emptyDocument).isFatal = false := by
  obtain ⟨offers, -, -, hrounds, -, -, -, hdiagnostics, hrecoverable, -⟩ :=
    textOnly.parse_accounts textOnly_honest "a*b".toList Node.emptyDocument
  exact ⟨textOnly_honest, offers, hrounds, hdiagnostics, hrecoverable⟩

example : (textOnly.parse "a*b".toList Node.emptyDocument).diagnostics =
    [⟨.unrecognized ['*'], Span.covering ⟨0, 1, 1⟩ ['*']⟩] := by decide +kernel

end InlineMarkdown
