import InlineMarkdown.Proofs.Descent

/-! Searches with a memory and a bound.

A search goes the way of a descent, gives up when it would need more levels than it has
room for, and passes over attempts that it remembers to have failed. `Explored` says what
such a search comes to, be it of an attempt or of content: it gives up if and only if the
descent itself needs too many levels, it has learnt nothing but what it has seen, and
whatever it remembers is `Safe`, so that passing over it never hides a lack of room.
The lemmas are the steps of such a search. -/
namespace InlineMarkdown
namespace Descent
variable {D : Descent} {go : Nat → Nat} {stop : Nat → Prop} {room p : Nat}
  {known known₁ known₂ : Nat → Prop} {abandoned : Bool}

/-- What is visited at some depth and known to fail has room enough there. -/
def Safe (D : Descent) (room : Nat) (visits : (q d : Nat) → Prop) (known : Nat → Prop) : Prop :=
  ∀ q d, visits q d → known q → ¬ D.Deep (room - d) q

/-- A search that knew of some failures and then knows of others. -/
structure Explored (D : Descent) (room : Nat) (visits : (q d : Nat) → Prop) (seen : Nat → Prop)
    (known known₁ : Nat → Prop) (abandoned : Bool) : Prop where
  deep : abandoned = true ↔ ∃ q d, visits q d ∧ room ≤ d
  learnt (q : Nat) : known₁ q → known q ∨ seen q
  safe : D.Safe room visits known₁

/-- The search of the content at `p`. -/
def ContentExplored (D : Descent) (room p : Nat) : (known known₁ : Nat → Prop) → Bool → Prop :=
  D.Explored room (D.Content p) (D.Seen room p)

/-- The search of the attempt at `p`. -/
def AttemptExplored (D : Descent) (room p : Nat) : (known known₁ : Nat → Prop) → Bool → Prop :=
  D.Explored room (D.Attempts p) (D.SeenBy p room)

/-- One search after another over the same positions. -/
theorem Explored.trans {visits : (q d : Nat) → Prop} {seen : Nat → Prop} {abandoned' : Bool}
    (h : D.Explored room visits seen known known₁ abandoned')
    (h' : D.Explored room visits seen known₁ known₂ abandoned) :
    D.Explored room visits seen known known₂ abandoned :=
  ⟨h'.deep, fun q hq => (h'.learnt q hq).elim (h.learnt q) .inr, h'.safe⟩

/-! ### Attempts -/

/-- Inside an attempt that has room for all its levels, everything is safe. -/
theorem safe_of_fits (h : ¬ D.Deep room p) (known : Nat → Prop) :
    D.Safe room (D.Attempts p) known := by
  rintro q d hq - ⟨r, e, hr, hle⟩
  exact h ⟨r, d + e, hq.trans hr, by omega⟩

theorem deep_succ : D.Deep (room + 1) p ↔
    D.opened p ∧ ∃ q d, D.Content (D.start p) q d ∧ room ≤ d := by
  constructor
  · rintro ⟨q, d, hattempt, hd⟩
    cases hattempt with
    | here => omega
    | @inside _ d hopened hcontent => exact ⟨hopened, q, d, hcontent, by omega⟩
  · rintro ⟨hopened, q, d, hcontent, hd⟩
    exact ⟨q, d + 1, .inside hopened hcontent, by omega⟩

/-- A known failure is passed over, and would not have needed too many levels. -/
theorem attempt_known (htries : D.tries p) (hknown : known p)
    (hsafe : D.Safe room (D.Attempts p) known) : D.AttemptExplored room p known known false := by
  refine ⟨iff_of_false Bool.false_ne_true ?_, fun _ hq => .inl hq, hsafe⟩
  exact hsafe p 0 (.here htries) hknown

/-- Without room the search is given up. -/
theorem attempt_full (htries : D.tries p) (hsafe : D.Safe 0 (D.Attempts p) known) :
    D.AttemptExplored 0 p known known true :=
  ⟨iff_of_true rfl ⟨p, 0, .here htries, Nat.le_refl 0⟩, fun _ hq => .inl hq, hsafe⟩

/-- An attempt that does not get as far as to content needs no room. -/
theorem attempt_closed (hclosed : ¬ D.opened p)
    (hsafe : D.Safe (room + 1) (D.Attempts p) known) :
    D.AttemptExplored (room + 1) p known known false :=
  ⟨iff_of_false Bool.false_ne_true fun hdeep => hclosed (deep_succ.1 hdeep).1, fun _ hq => .inl hq, hsafe⟩

/-- What is safe in an attempt is safe in its content, where there is less room. -/
theorem safe_content (hopened : D.opened p) (hsafe : D.Safe (room + 1) (D.Attempts p) known) :
    D.Safe room (D.Content (D.start p)) known := by
  intro q d hq hknown
  have := hsafe q (d + 1) (.inside hopened hq) hknown
  rwa [Nat.add_sub_add_right] at this

/-- An attempt is searched by searching its content. -/
theorem attempt_opened (hopened : D.opened p) (hnew : ¬ known p)
    (h : D.ContentExplored room (D.start p) known known₁ abandoned) :
    D.AttemptExplored (room + 1) p known known₁ abandoned := by
  refine ⟨h.deep.trans ⟨fun hdeep => deep_succ.2 ⟨hopened, hdeep⟩,
    fun hdeep => (deep_succ.1 hdeep).2⟩, fun q hq => ?_, fun q d hq hknown => ?_⟩
  · exact (h.learnt q hq).imp_right fun hseen => .inside hopened hseen
  · cases hq with
    | here =>
      rcases h.learnt p hknown with hold | hseen
      · exact absurd hold hnew
      · have := hseen.le
        have := lt_start hopened
        omega
    | @inside _ d _ hcontent =>
      rw [Nat.add_sub_add_right]
      exact h.safe q d hcontent hknown

/-- A failure may be remembered if the search was not given up. -/
theorem attempt_failed (h : D.AttemptExplored room p known known₁ false)
    (hrecorded : ∀ q, known₂ q → q = p ∨ known₁ q) : D.AttemptExplored room p known known₂ false := by
  refine ⟨h.deep, fun q hq => ?_, safe_of_fits (fun hdeep => Bool.false_ne_true (h.deep.2 hdeep)) known₂⟩
  rcases hrecorded q hq with rfl | hq
  · exact .inr .here
  · exact h.learnt q hq

/-! ### Levels -/

/-- What the memory holds behind an attempt is safe in the rest of the level. -/
theorem safe_onward (hgo : D.Follows room go) (hp : ¬ stop p)
    (hsafe : D.Safe room (D.Visits go stop p) known)
    (h : D.AttemptExplored room p known known₁ abandoned) :
    D.Safe room (D.Visits go stop (go p)) known₁ := by
  intro q d hq hknown hdeep
  rcases h.learnt q hknown with hold | hseen
  · exact hsafe q d (.onward hp hq) hold hdeep
  · obtain ⟨e, hle, hattempt⟩ := replay hgo hseen hq
    exact h.safe q e hattempt hknown (hdeep.of_le (by omega))

theorem safe_attempt (hp : ¬ stop p) (hsafe : D.Safe room (D.Visits go stop p) known) :
    D.Safe room (D.Attempts p) known :=
  fun q d hq => hsafe q d (.of_attempts hp hq)

theorem content_closed (hp : D.closes p) (known : Nat → Prop) :
    D.ContentExplored room p known known false :=
  ⟨iff_of_false Bool.false_ne_true fun ⟨_, _, hcontent, _⟩ => hcontent.cases.1 hp, fun _ hq => .inl hq,
    fun _ _ hcontent _ => absurd hp hcontent.cases.1⟩

/-- Where no attempt is made, content goes on. -/
theorem content_plain (hp : ¬ D.closes p) (hplain : ¬ D.tries p)
    (h : D.ContentExplored room (D.next p) known known₁ abandoned) :
    D.ContentExplored room p known known₁ abandoned := by
  have hvisits : ∀ {q d}, D.Content p q d → D.Content (D.next p) q d := by
    intro q d hcontent
    rcases hcontent.cases.2 with hattempt | hrest
    · exact absurd hattempt.tries hplain
    · exact hrest
  refine ⟨h.deep.trans ⟨fun ⟨q, d, hcontent, hd⟩ => ⟨q, d, .onward hp hcontent, hd⟩,
    fun ⟨q, d, hcontent, hd⟩ => ⟨q, d, hvisits hcontent, hd⟩⟩, fun q hq => ?_, fun q d hq => ?_⟩
  · refine (h.learnt q hq).imp_right fun hseen => .onward hp ?_ hseen
    rintro ⟨r, e, hattempt, -⟩
    exact hplain hattempt.tries
  · exact h.safe q d (hvisits hq)

theorem seen_of_seenBy {q : Nat} (hp : ¬ D.closes p) (htries : D.tries p)
    (h : D.SeenBy p room q) : D.Seen room p q := by
  cases h with
  | here => exact .here hp htries
  | inside hopened hseen => exact .inside hp hopened hseen

/-- Content is given up with the attempt at hand. -/
theorem content_givenUp (hp : ¬ D.closes p) (htries : D.tries p)
    (hsafe : D.Safe room (D.Content p) known) (h : D.AttemptExplored room p known known₁ true) :
    D.ContentExplored room p known known₁ true := by
  obtain ⟨q, d, hattempt, hd⟩ := h.deep.1 rfl
  refine ⟨iff_of_true rfl ⟨q, d, .of_attempts hp hattempt, hd⟩,
    fun q hq => (h.learnt q hq).imp_right (seen_of_seenBy hp htries), fun q d hq => ?_⟩
  rcases hq.cases.2 with hattempt | hrest
  · exact h.safe q d hattempt
  · exact safe_onward (follows_next room) hp hsafe h q d hrest

/-- Behind an attempt that was not given up, content goes on. -/
theorem content_onward (hp : ¬ D.closes p) (htries : D.tries p)
    (h : D.AttemptExplored room p known known₁ false)
    (h' : D.ContentExplored room (D.next p) known₁ known₂ abandoned) :
    D.ContentExplored room p known known₂ abandoned := by
  have hfits : ¬ D.Deep room p := fun hdeep => Bool.false_ne_true (h.deep.2 hdeep)
  refine ⟨h'.deep.trans ⟨fun ⟨q, d, hcontent, hd⟩ => ⟨q, d, .onward hp hcontent, hd⟩, ?_⟩,
    fun q hq => ?_, fun q d hq hknown => ?_⟩
  · rintro ⟨q, d, hcontent, hd⟩
    rcases hcontent.cases.2 with hattempt | hrest
    · exact absurd ⟨q, d, hattempt, hd⟩ hfits
    · exact ⟨q, d, hrest, hd⟩
  · rcases h'.learnt q hq with hq | hseen
    · exact (h.learnt q hq).imp_right (seen_of_seenBy hp htries)
    · exact .inr (.onward hp hfits hseen)
  · rcases hq.cases.2 with hattempt | hrest
    · exact safe_of_fits hfits known₂ q d hattempt hknown
    · exact h'.safe q d hrest hknown

end Descent
end InlineMarkdown
