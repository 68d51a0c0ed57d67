import Mathlib.Data.List.Sort
import InlineMarkdown.Engine.Script

/-! The order in which consumers are asked, and what asking them comes to.

A registry puts each consumer in its place as it is registered. Lists in order of priority
are the same as soon as they have the same consumers of each priority, in the same order
(`eq_of_ordered`), and putting one in its place adds it behind those of its own priority
(`filter_place`). So the order after any registrations is that of sorting them once, stably
(`consumers_ofList`).

An offer is a run of refusals, each on what the one before it left, that ends with the first
claim or with the last consumer (`Dispatched`); there is one such run (`offerTo_eq_iff`). -/
namespace InlineMarkdown.Registry

variable {K N : Type}

/-! ### Order -/

/-- The consumers of one priority, in their order. -/
def ofPriority (priority : Int) (consumers : List (Consumer K N)) : List (Consumer K N) :=
  consumers.filter (·.priority == priority)

theorem mem_ofPriority {priority : Int} {consumers : List (Consumer K N)} {c : Consumer K N} :
    c ∈ ofPriority priority consumers ↔ c ∈ consumers ∧ c.priority = priority := by
  simp [ofPriority]

theorem ofPriority_cons (priority : Int) (c : Consumer K N) (consumers : List (Consumer K N)) :
    ofPriority priority (c :: consumers) =
      if c.priority = priority then c :: ofPriority priority consumers
      else ofPriority priority consumers := by
  simp [ofPriority, List.filter_cons]

@[simp] theorem ofPriority_append (priority : Int) (a b : List (Consumer K N)) :
    ofPriority priority (a ++ b) = ofPriority priority a ++ ofPriority priority b :=
  List.filter_append ..

theorem mem_iff_of_ofPriority {a b : List (Consumer K N)}
    (h : ∀ priority, ofPriority priority a = ofPriority priority b) {c : Consumer K N} :
    c ∈ a ↔ c ∈ b := by
  simpa [mem_ofPriority] using congrArg (c ∈ ·) (h c.priority)

theorem priority_le_of_mem_cons {c d : Consumer K N} {rest : List (Consumer K N)}
    (h : (c :: rest).Pairwise (·.priority ≤ ·.priority)) (hd : d ∈ c :: rest) :
    c.priority ≤ d.priority := by
  rcases List.mem_cons.1 hd with rfl | hd
  · exact Int.le_refl _
  · exact (List.pairwise_cons.1 h).1 d hd

/-- What is in order is told by its consumers of each priority. -/
theorem eq_of_ordered {a b : List (Consumer K N)} (ha : a.Pairwise (·.priority ≤ ·.priority))
    (hb : b.Pairwise (·.priority ≤ ·.priority))
    (h : ∀ priority, ofPriority priority a = ofPriority priority b) : a = b := by
  induction a generalizing b with
  | nil => exact (List.eq_nil_iff_forall_not_mem.2 fun c hc =>
      List.not_mem_nil ((mem_iff_of_ofPriority h).2 hc)).symm
  | cons c a ih =>
    cases b with
    | nil => exact absurd ((mem_iff_of_ofPriority h).1 List.mem_cons_self) List.not_mem_nil
    | cons d b =>
      -- neither of the two in front has a higher priority number than the other
      have hle : c.priority ≤ d.priority :=
        priority_le_of_mem_cons ha ((mem_iff_of_ofPriority h).2 List.mem_cons_self)
      have hge : d.priority ≤ c.priority :=
        priority_le_of_mem_cons hb ((mem_iff_of_ofPriority h).1 List.mem_cons_self)
      have hfront := h c.priority
      rw [ofPriority_cons, ofPriority_cons, if_pos rfl, if_pos (Int.le_antisymm hge hle)] at hfront
      obtain ⟨rfl, -⟩ := List.cons.inj hfront
      refine congrArg (c :: ·) (ih ha.of_cons hb.of_cons fun priority => ?_)
      have hall := h priority
      rw [ofPriority_cons, ofPriority_cons] at hall
      split at hall
      · exact (List.cons.inj hall).2
      · exact hall

/-- A consumer is put behind those of its own priority, and the others stay where they are. -/
theorem ofPriority_place (c : Consumer K N) {consumers : List (Consumer K N)}
    (h : consumers.Pairwise (·.priority ≤ ·.priority)) (priority : Int) :
    ofPriority priority (place c consumers) = ofPriority priority (consumers ++ [c]) := by
  induction consumers with
  | nil => rfl
  | cons other rest ih =>
    unfold place
    split
    · rename_i hlower
      -- nobody here has the priority of the new one
      rw [ofPriority_append, ofPriority_cons, ofPriority_cons priority c []]
      split
      · rename_i hpriority
        have hnone : ofPriority priority (other :: rest) = [] := by
          refine List.filter_eq_nil_iff.2 fun d hd => ?_
          have hle := priority_le_of_mem_cons h hd
          simp only [beq_iff_eq]
          omega
        rw [hnone]
        rfl
      · exact (List.append_nil _).symm
    · rw [List.cons_append, ofPriority_cons, ofPriority_cons, ih h.of_cons]

/-- Whether one consumer may be asked before another. -/
def mayPrecede (a b : Consumer K N) : Bool := decide (a.priority ≤ b.priority)

theorem mayPrecede_trans (a b c : Consumer K N) (hab : mayPrecede a b) (hbc : mayPrecede b c) :
    mayPrecede a c := by
  simp only [mayPrecede, decide_eq_true_eq] at *
  exact Int.le_trans hab hbc

theorem mayPrecede_total (a b : Consumer K N) : mayPrecede a b || mayPrecede b a := by
  simpa [mayPrecede] using Int.le_total a.priority b.priority

theorem ordered_mergeSort (consumers : List (Consumer K N)) :
    (consumers.mergeSort mayPrecede).Pairwise (·.priority ≤ ·.priority) :=
  (List.pairwise_mergeSort mayPrecede_trans mayPrecede_total consumers).imp fun h => by
    simpa [mayPrecede] using h

/-- Sorting is stable. -/
theorem ofPriority_mergeSort (consumers : List (Consumer K N)) (priority : Int) :
    ofPriority priority (consumers.mergeSort mayPrecede) = ofPriority priority consumers := by
  have hsame : (ofPriority priority consumers).Pairwise fun a b => mayPrecede a b = true :=
    List.pairwise_of_forall_mem_list fun a ha b hb => by
      simp [mayPrecede, (mem_ofPriority.1 ha).2, (mem_ofPriority.1 hb).2]
  have hsub := (List.sublist_mergeSort mayPrecede_trans mayPrecede_total hsame
    List.filter_sublist).filter (·.priority == priority)
  have hlength := ((List.mergeSort_perm consumers mayPrecede).filter (·.priority == priority)).length_eq
  refine (hsub.eq_of_length ?_).symm.trans ?_
  · rw [hlength, ofPriority, List.filter_filter]
    simp
  · simp [ofPriority]

/-- A registration is the same as sorting again with the new consumer at the end. -/
theorem consumers_register (registry : Registry K N) (c : Consumer K N) :
    (registry.register c).consumers = (registry.consumers ++ [c]).mergeSort mayPrecede :=
  eq_of_ordered (registry.register c).ordered (ordered_mergeSort _) fun priority => by
    rw [ofPriority_mergeSort]
    exact ofPriority_place c registry.ordered priority

theorem ofPriority_foldl_register (consumers : List (Consumer K N)) (registry : Registry K N)
    (priority : Int) : ofPriority priority (consumers.foldl register registry).consumers =
      ofPriority priority (registry.consumers ++ consumers) := by
  induction consumers generalizing registry with
  | nil => simp
  | cons c rest ih =>
    rw [List.foldl_cons, ih, consumers_register, ofPriority_append, ofPriority_mergeSort,
      ← ofPriority_append, List.append_assoc, List.singleton_append]

/-- Sorting at each registration comes to sorting once. -/
theorem consumers_ofList (consumers : List (Consumer K N)) :
    (ofList consumers).consumers = consumers.mergeSort mayPrecede :=
  eq_of_ordered (ofList consumers).ordered (ordered_mergeSort _) fun priority => by
    rw [ofPriority_mergeSort]
    exact ofPriority_foldl_register consumers {} priority

/-! ### Offers -/

section Offer
variable {token : Token K} {consumers : List (Consumer K N)} {ctx : Context K N}

/-- The consumers decline in turn, each handed what the one before it left. -/
inductive Refused (token : Token K) : List (Consumer K N) → Context K N → Context K N → Prop where
  | nil {ctx : Context K N} : Refused token [] ctx ctx
  | cons {c : Consumer K N} {rest : List (Consumer K N)} {ctx between left : Context K N} :
      c.consume ctx token = (false, between) → Refused token rest between left →
        Refused token (c :: rest) ctx left

/-- What may come of an offer: some consumers decline and the next one claims the token, or all
decline. -/
inductive Dispatched [TokenKind K] (token : Token K) (consumers : List (Consumer K N))
    (ctx : Context K N) : Option String × Context K N → Prop where
  | claimed {before behind : List (Consumer K N)} {c : Consumer K N} {left after : Context K N} :
      consumers = before ++ c :: behind → Refused token before ctx left →
      c.consume left token = (true, after) →
        Dispatched token consumers ctx
          (some c.name, after.report (.claimed c.name (TokenKind.name token.kind) token.text))
  | unclaimed {left : Context K N} :
      Refused token consumers ctx left → Dispatched token consumers ctx (none, left)

variable [TokenKind K]

theorem offerTo_cons_of_declined {c : Consumer K N} {between : Context K N}
    (h : c.consume ctx token = (false, between)) (rest : List (Consumer K N)) :
    offerTo token (c :: rest) ctx = offerTo token rest between := by
  simp only [offerTo, h]

theorem offerTo_cons_of_claimed {c : Consumer K N} {after : Context K N}
    (h : c.consume ctx token = (true, after)) (rest : List (Consumer K N)) :
    offerTo token (c :: rest) ctx =
      (some c.name, after.report (.claimed c.name (TokenKind.name token.kind) token.text)) := by
  simp only [offerTo, h]

theorem Refused.offerTo_append {before : List (Consumer K N)} {left : Context K N}
    (h : Refused token before ctx left) (behind : List (Consumer K N)) :
    offerTo token (before ++ behind) ctx = offerTo token behind left := by
  induction h with
  | nil => rfl
  | cons hdecline _ ih => rw [List.cons_append, offerTo_cons_of_declined hdecline, ih]

theorem Dispatched.cons {c : Consumer K N} {between : Context K N}
    {answer : Option String × Context K N} (hdecline : c.consume ctx token = (false, between))
    (h : Dispatched token consumers between answer) :
    Dispatched token (c :: consumers) ctx answer := by
  cases h with
  | claimed hconsumers hrefused hclaim =>
    exact .claimed (congrArg (c :: ·) hconsumers) (.cons hdecline hrefused) hclaim
  | unclaimed hrefused => exact .unclaimed (.cons hdecline hrefused)

theorem dispatched_offerTo (consumers : List (Consumer K N)) (ctx : Context K N) :
    Dispatched token consumers ctx (offerTo token consumers ctx) := by
  induction consumers generalizing ctx with
  | nil => exact .unclaimed .nil
  | cons c rest ih =>
    cases hconsume : c.consume ctx token with
    | mk claims between =>
      cases claims with
      | false =>
        rw [offerTo_cons_of_declined hconsume]
        exact (ih between).cons hconsume
      | true =>
        rw [offerTo_cons_of_claimed hconsume]
        exact .claimed (List.nil_append _).symm .nil hconsume

theorem offerTo_eq_iff {answer : Option String × Context K N} :
    offerTo token consumers ctx = answer ↔ Dispatched token consumers ctx answer := by
  constructor
  · rintro rfl
    exact dispatched_offerTo consumers ctx
  · rintro (⟨rfl, hrefused, hclaim⟩ | hrefused)
    · rw [hrefused.offerTo_append, offerTo_cons_of_claimed hclaim]
    · have hall := hrefused.offerTo_append []
      rwa [List.append_nil] at hall

theorem offerTo_eq_none_iff :
    (offerTo token consumers ctx).1 = none ↔ ∃ left, Refused token consumers ctx left := by
  constructor
  · intro hnone
    have hdispatched : Dispatched token consumers ctx (offerTo token consumers ctx) :=
      dispatched_offerTo consumers ctx
    generalize offerTo token consumers ctx = answer at hnone hdispatched
    cases hdispatched with
    | claimed => cases hnone
    | unclaimed hrefused => exact ⟨_, hrefused⟩
  · rintro ⟨left, hrefused⟩
    rw [offerTo_eq_iff.2 (.unclaimed hrefused)]

/-- If those that decline change nothing, only the first that claims counts. -/
theorem offerTo_eq_find? (hkeep : ∀ c ∈ consumers, (c.consume ctx token).1 = false →
    (c.consume ctx token).2 = ctx) : offerTo token consumers ctx =
      offerTo token (consumers.find? fun c => (c.consume ctx token).1).toList ctx := by
  induction consumers with
  | nil => rfl
  | cons c rest ih =>
    obtain ⟨hc, hrest⟩ := List.forall_mem_cons.1 hkeep
    cases hclaims : (c.consume ctx token).1 with
    | false =>
      rw [offerTo_cons_of_declined (Prod.ext hclaims (hc hclaims)), ih hrest,
        List.find?_cons_of_neg (by simp [hclaims])]
    | true =>
      have hconsume : c.consume ctx token = (true, (c.consume ctx token).2) :=
        Prod.ext hclaims rfl
      have hfind : (c :: rest).find? (fun c => (c.consume ctx token).1) = some c :=
        List.find?_cons_of_pos hclaims
      rw [hfind, Option.toList_some, offerTo_cons_of_claimed hconsume,
        offerTo_cons_of_claimed hconsume]

end Offer

/-- After any registrations the consumers are asked in the order of one stable sort by priority of
the registrations. An offer asks them in that order, each on the context that the refusals before
it left, and stops at the first claim, with that consumer's name; it has no name exactly if all
refuse. If those that refuse the token change nothing, the outcome is that of the first that claims
it, as if it were the only one. -/
theorem offer_ofList [TokenKind K] (registered : List (Consumer K N)) (ctx : Context K N)
    (token : Token K) :
    let registry := ofList registered
    let claims := fun c : Consumer K N => (c.consume ctx token).1
    registry.consumers = registered.mergeSort (fun a b => decide (a.priority ≤ b.priority)) ∧
    (∀ answer, registry.offer ctx token = answer ↔ Dispatched token registry.consumers ctx answer) ∧
    ((registry.offer ctx token).1 = none ↔ ∃ left, Refused token registry.consumers ctx left) ∧
    ((∀ c ∈ registered, claims c = false → (c.consume ctx token).2 = ctx) →
      registry.offer ctx token = match registry.consumers.find? claims with
        | some c => (ofList [c]).offer ctx token
        | none => (none, ctx)) := by
  refine ⟨consumers_ofList registered, fun answer => offerTo_eq_iff, offerTo_eq_none_iff,
    fun hkeep => ?_⟩
  have hmem : ∀ c ∈ (ofList registered).consumers, c ∈ registered := by
    intro c hc
    rw [consumers_ofList] at hc
    exact List.mem_mergeSort.1 hc
  have hfirst : (ofList registered).offer ctx token = offerTo token _ ctx :=
    offerTo_eq_find? fun c hc => hkeep c (hmem c hc)
  rw [hfirst]
  split <;> rename_i hfind <;> rw [hfind] <;> rfl

/-- Two that claim any token, and one that is registered last, is asked first and declines. -/
theorem offer_ofList_shy :
    let shy := ({} : Script).consumer "shy" (-1)
    let first := ({ claim := true } : Script).consumer "first" 0
    let second := ({ claim := true } : Script).consumer "second" 0
    let ctx : Context Kind Node := { queue := tokenize "a".toList, node := Node.emptyDocument }
    let token : Token Kind := ⟨.text, ['a'], Span.covering {} ['a']⟩
    (ofList [first, second, shy]).names = ["shy", "first", "second"] ∧
      (∀ c ∈ [first, second, shy], (c.consume ctx token).1 = false → (c.consume ctx token).2 = ctx) ∧
      (ofList [first, second, shy]).offer ctx token = (ofList [first]).offer ctx token := by
  intro shy first second ctx token
  have hkeep : ∀ c ∈ [first, second, shy], (c.consume ctx token).1 = false →
      (c.consume ctx token).2 = ctx := by
    intro c hc hdeclines
    simp only [List.mem_cons, List.not_mem_nil, or_false] at hc
    rcases hc with rfl | rfl | rfl
    · cases hdeclines
    · cases hdeclines
    · rfl
  exact ⟨rfl, hkeep, (offer_ofList [first, second, shy] ctx token).2.2.2 hkeep⟩

end InlineMarkdown.Registry
