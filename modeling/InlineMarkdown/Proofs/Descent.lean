/-! Nested attempts over a line of positions.

A descent goes through positions from left to right. At some of them it makes an
attempt, which goes through the positions behind it first, up to one that closes, and
in the end either takes them all or leaves the descent to go on at the next position.
So positions are visited again and again, at different depths. `replay` says how: an
attempt that has failed has visited what comes behind it before, and no less deep. Hence
whatever is remembered of a position at its first visit is true at the later ones. -/
namespace InlineMarkdown

/-- A descent over positions. Positions at which content ends are `closes`; the content
of an attempt at `p` begins at `start p`, and content that begins at `p` ends at
`ending p`. -/
structure Descent where
  tries : Nat → Prop
  /-- The attempt at this position gets as far as to content. -/
  opened : Nat → Prop
  start : Nat → Nat
  closes : Nat → Prop
  next : Nat → Nat
  ending : Nat → Nat
  tries_of_opened {p : Nat} : opened p → tries p
  lt_next (p : Nat) : p < next p
  le_ending (p : Nat) : p ≤ ending p
  ending_next {p : Nat} : ¬ closes p → ending (next p) = ending p
  /-- Content begins behind the position, or else behind the one after it, where
  another attempt may be made whose content begins at the same place. -/
  start_eq {p : Nat} : opened p → start p = p + 1 ∨
    start p = p + 2 ∧ ¬ closes (p + 1) ∧ (tries (p + 1) → start (p + 1) = p + 2) ∧
      (¬ tries (p + 1) → next (p + 1) = p + 2)
  /-- An attempt fails, or goes beyond the end of its content. -/
  next_eq {p : Nat} : tries p → next p = p + 1 ∨ opened p ∧ ending (start p) < next p

namespace Descent
variable {D : Descent}

/-! ### Visits -/

/-- A level that stops at `stop` and goes on by `go` visits `q` from `p` on, at depth
`d`: it makes attempts there itself, or an attempt of it does. -/
inductive Visits (D : Descent) : (go : Nat → Nat) → (stop : Nat → Prop) → (p q d : Nat) → Prop
  | here {go : Nat → Nat} {stop : Nat → Prop} {p : Nat} : ¬ stop p → D.tries p →
      Visits D go stop p p 0
  | inside {go : Nat → Nat} {stop : Nat → Prop} {p q d : Nat} : ¬ stop p → D.opened p →
      Visits D D.next D.closes (D.start p) q d → Visits D go stop p q (d + 1)
  | onward {go : Nat → Nat} {stop : Nat → Prop} {p q d : Nat} : ¬ stop p →
      Visits D go stop (go p) q d → Visits D go stop p q d

/-- The content that begins at `p` visits `q` at depth `d`. -/
def Content (D : Descent) (p q d : Nat) : Prop := D.Visits D.next D.closes p q d

/-- The attempt at `p` visits `q` at depth `d`. -/
inductive Attempts (D : Descent) (p : Nat) : (q d : Nat) → Prop
  | here : D.tries p → Attempts D p p 0
  | inside {q d : Nat} : D.opened p → D.Content (D.start p) q d → Attempts D p q (d + 1)

/-- The attempt at `p` needs more than `room` levels. -/
def Deep (D : Descent) (room p : Nat) : Prop := ∃ q d, D.Attempts p q d ∧ room ≤ d

/-- A level goes on by `go`: as the descent does, or to the next position behind an
attempt that needs more than `room` levels. -/
def Follows (D : Descent) (room : Nat) (go : Nat → Nat) : Prop :=
  ∀ p, go p = D.next p ∨ go p = p + 1 ∧ D.Deep room p

/-- Content at `p` visits `q` before any attempt needs more than `room` levels. -/
inductive Seen (D : Descent) : (room p q : Nat) → Prop
  | here {room p : Nat} : ¬ D.closes p → D.tries p → Seen D room p p
  | inside {room p q : Nat} : ¬ D.closes p → D.opened p → Seen D room (D.start p) q →
      Seen D (room + 1) p q
  | onward {room p q : Nat} : ¬ D.closes p → ¬ D.Deep room p → Seen D room (D.next p) q →
      Seen D room p q

section Order
variable {go : Nat → Nat} {stop : Nat → Prop} {room less p q r d e : Nat}

theorem Visits.of_attempts (hp : ¬ stop p) (h : D.Attempts p q d) : D.Visits go stop p q d := by
  cases h with
  | here htries => exact .here hp htries
  | inside hopened hcontent => exact .inside hp hopened hcontent

theorem Visits.cases (h : D.Visits go stop p q d) :
    ¬ stop p ∧ (D.Attempts p q d ∨ D.Visits go stop (go p) q d) := by
  cases h with
  | here hp htries => exact ⟨hp, .inl (.here htries)⟩
  | inside hp hopened hcontent => exact ⟨hp, .inl (.inside hopened hcontent)⟩
  | onward hp hrest => exact ⟨hp, .inr hrest⟩

theorem Attempts.tries (h : D.Attempts p q d) : D.tries p := by
  cases h with
  | here htries => exact htries
  | inside hopened _ => exact D.tries_of_opened hopened

/-- Where an attempt is visited, so is what it visits. -/
theorem Visits.trans (h : D.Visits go stop p q d) (h' : D.Attempts q r e) :
    D.Visits go stop p r (d + e) := by
  induction h with
  | here hp _ =>
    rw [Nat.zero_add]
    exact .of_attempts hp h'
  | @inside _ _ _ _ d hp hopened _ ih =>
    rw [Nat.add_right_comm]
    exact .inside hp hopened (ih h')
  | onward hp _ ih => exact .onward hp (ih h')

theorem Attempts.trans (h : D.Attempts p q d) (h' : D.Attempts q r e) :
    D.Attempts p r (d + e) := by
  cases h with
  | here _ =>
    rw [Nat.zero_add]
    exact h'
  | inside hopened hcontent =>
    rw [Nat.add_right_comm]
    exact .inside hopened (hcontent.trans h')

/-! ### Order -/

theorem lt_start (h : D.opened p) : p < D.start p := by
  rcases D.start_eq h with hstart | ⟨hstart, -⟩ <;> omega

theorem Follows.lt (h : D.Follows room go) (p : Nat) : p < go p := by
  have := D.lt_next p
  rcases h p with hgo | ⟨hgo, -⟩ <;> omega

theorem follows_next (room : Nat) : D.Follows room D.next := fun _ => .inl rfl

open Classical in
/-- Goes on as the descent does, save where an attempt needs more than `room` levels. -/
noncomputable def around (D : Descent) (room p : Nat) : Nat :=
  if D.Deep room p then p + 1 else D.next p

theorem follows_around (room : Nat) : D.Follows room (D.around room) := by
  intro p
  unfold around
  split
  · rename_i hdeep
    exact .inr ⟨rfl, hdeep⟩
  · exact .inl rfl

theorem around_of_deep (h : D.Deep room p) : D.around room p = p + 1 := if_pos h

theorem around_of_not_deep (h : ¬ D.Deep room p) : D.around room p = D.next p := if_neg h

theorem Visits.le (hgo : ∀ p, p < go p) (h : D.Visits go stop p q d) : p ≤ q := by
  induction h with
  | here => exact Nat.le_refl _
  | inside _ hopened _ ih =>
    have := lt_start hopened
    have := ih D.lt_next
    omega
  | @onward _ _ p _ _ _ _ ih =>
    have := hgo p
    have := ih hgo
    omega

/-- The content of an attempt ends where the content around it ends, or before. -/
theorem ending_start_le (hp : ¬ D.closes p) (h : D.opened p) :
    D.ending (D.start p) ≤ D.ending p := by
  have hend := D.ending_next hp
  have hle := D.le_ending (D.next p)
  rcases D.next_eq (D.tries_of_opened h) with hnext | ⟨-, hlt⟩
  · rcases D.start_eq h with hstart | ⟨hstart, hopen, hsame, hplain⟩
    · exact Nat.le_of_eq (by rw [hstart, ← hnext, hend])
    · rw [hnext] at hend
      rw [hstart, ← hend, ← D.ending_next hopen]
      by_cases htries : D.tries (p + 1)
      · rcases D.next_eq htries with hnext | ⟨-, hlt⟩
        · exact Nat.le_of_eq (by rw [hnext])
        · rw [hsame htries] at hlt
          exact Nat.le_trans (Nat.le_of_lt hlt) (D.le_ending _)
      · exact Nat.le_of_eq (by rw [hplain htries])
  · omega

/-- Content visits nothing behind its end. -/
theorem Content.lt_ending (h : D.Content p q d) : q < D.ending p := by
  unfold Content at h
  generalize hgo : D.next = go at h
  generalize hstop : D.closes = stop at h
  induction h with
  | @here _ _ p hp _ =>
    subst hgo hstop
    have := D.lt_next p
    have := D.le_ending (D.next p)
    rw [D.ending_next hp] at this
    omega
  | inside hp hopened _ ih =>
    subst hstop
    exact Nat.lt_of_lt_of_le (ih rfl rfl) (ending_start_le hp hopened)
  | onward hp _ ih =>
    subst hgo hstop
    rw [← D.ending_next hp]
    exact ih rfl rfl

theorem Seen.content (h : D.Seen room p q) : ∃ d, D.Content p q d := by
  induction h with
  | here hp htries => exact ⟨0, .here hp htries⟩
  | inside hp hopened _ ih =>
    obtain ⟨d, hd⟩ := ih
    exact ⟨d + 1, .inside hp hopened hd⟩
  | onward hp _ _ ih =>
    obtain ⟨d, hd⟩ := ih
    exact ⟨d, .onward hp hd⟩

theorem Seen.le (h : D.Seen room p q) : p ≤ q := by
  obtain ⟨_, hd⟩ := h.content
  exact Visits.le D.lt_next hd

/-! ### Rooms -/

theorem Deep.of_le (h : D.Deep room p) (hle : less ≤ room) : D.Deep less p := by
  obtain ⟨q, d, hattempts, hd⟩ := h
  exact ⟨q, d, hattempts, Nat.le_trans hle hd⟩

theorem Follows.of_le (h : D.Follows room go) (hle : less ≤ room) : D.Follows less go := fun p =>
  (h p).imp_right fun ⟨hgo, hdeep⟩ => ⟨hgo, hdeep.of_le hle⟩

/-! ### Visiting again -/

/-- Behind a failed attempt that has seen `q`, a level that visits `q` does so from the
content of that attempt too, provided this holds of the positions in between. -/
theorem visits_start (hgo : D.Follows room go) (hopened : D.opened p)
    (hseen : D.Seen less (D.start p) q) (hvisits : D.Visits go stop (go p) q d)
    (ih : ∀ r d, p < r → r ≤ q → D.Seen less r q → D.Visits go stop r q d →
      ∃ e, d ≤ e + 1 ∧ D.Content r q e) :
    ∃ e, d ≤ e + 1 ∧ D.Content (D.start p) q e := by
  have hle := hvisits.le hgo.lt
  obtain ⟨_, hcontent⟩ := hseen.content
  have hlt := hcontent.lt_ending
  have hstep : go p = p + 1 := by
    rcases hgo p with hnext | ⟨hstep, -⟩
    · rcases D.next_eq (D.tries_of_opened hopened) with hfail | ⟨-, hbeyond⟩
      · rw [hnext, hfail]
      · omega
    · exact hstep
  rw [hstep] at hvisits
  rcases D.start_eq hopened with hstart | ⟨hstart, hopen, hsame, hplain⟩
  · rw [hstart] at hseen ⊢
    exact ih (p + 1) d (Nat.lt_succ_self p) hseen.le hseen hvisits
  · rw [hstart] at hseen hlt ⊢
    have hbehind := hseen.le
    have htwo : go (p + 1) = p + 2 → D.Visits go stop (go (p + 1)) q d →
        ∃ e, d ≤ e + 1 ∧ D.Content (p + 2) q e := by
      intro hgo hrest
      rw [hgo] at hrest
      exact ih (p + 2) d (by omega) hbehind hseen hrest
    obtain ⟨-, hattempt | hrest⟩ := hvisits.cases
    · cases hattempt with
      | here => omega
      | @inside _ e hopened' hcontent =>
        rw [hsame (D.tries_of_opened hopened')] at hcontent
        exact ⟨e, Nat.le_refl _, hcontent⟩
    · have hle := hrest.le hgo.lt
      rcases hgo (p + 1) with hnext | ⟨hstep, -⟩
      · by_cases htries : D.tries (p + 1)
        · rcases D.next_eq htries with hfail | ⟨-, hbeyond⟩
          · exact htwo (hnext.trans hfail) hrest
          · rw [hsame htries] at hbeyond
            omega
        · exact htwo (hnext.trans (hplain htries)) hrest
      · exact htwo hstep hrest

/-- A level that visits a position seen by the content from the same place on is there
at most one level deeper. -/
theorem Seen.visits (hseen : D.Seen less p q) (hgo : D.Follows less go)
    (hvisits : D.Visits go stop p q d) : ∃ e, d ≤ e + 1 ∧ D.Content p q e := by
  generalize hn : q + 1 - p = n
  induction n using Nat.strongRecOn generalizing p d less with
  | _ n ih =>
    have hle := hseen.le
    obtain ⟨-, hattempt | hrest⟩ := hvisits.cases
    · have hp : ¬ D.closes p := by
        cases hseen with
        | here hp | inside hp | onward hp => exact hp
      exact ⟨d, Nat.le_succ d, .of_attempts hp hattempt⟩
    · have hback := hrest.le hgo.lt
      have hlt := hgo.lt p
      cases hseen with
      | here => omega
      | @inside room _ _ hp hopened hseen =>
        have hgo' := hgo.of_le (Nat.le_succ room)
        obtain ⟨e, hd, hcontent⟩ := visits_start hgo' hopened hseen hrest
          fun r d hr hq hseen hvisits => ih _ (by omega) hseen hgo' hvisits rfl
        exact ⟨e + 1, by omega, .inside hp hopened hcontent⟩
      | onward hp hdeep hseen =>
        have hnext : go p = D.next p := by
          rcases hgo p with hnext | ⟨-, hdeep'⟩
          · exact hnext
          · exact absurd hdeep' hdeep
        rw [hnext] at hrest hlt
        obtain ⟨e, hd, hcontent⟩ := ih _ (by omega) hseen hgo hrest rfl
        exact ⟨e, hd, .onward hp hcontent⟩

/-- The attempt at `p` with this room comes to `q` before it is given up. -/
inductive SeenBy (D : Descent) (p : Nat) : (room q : Nat) → Prop
  | here {room : Nat} : SeenBy D p room p
  | inside {room q : Nat} : D.opened p → D.Seen room (D.start p) q → SeenBy D p (room + 1) q

/-- What a level visits behind an attempt that has seen it, the attempt has visited no
less deep. -/
theorem replay (hgo : D.Follows room go) (hseen : D.SeenBy p room q)
    (hvisits : D.Visits go stop (go p) q d) : ∃ e, d ≤ e ∧ D.Attempts p q e := by
  cases hseen with
  | here =>
    have := hvisits.le hgo.lt
    have := hgo.lt p
    omega
  | @inside room _ hopened hseen =>
    have hgo' := hgo.of_le (Nat.le_succ room)
    obtain ⟨e, hd, hcontent⟩ := visits_start hgo' hopened hseen hvisits
      fun r d _ _ hseen hvisits => hseen.visits hgo' hvisits
    exact ⟨e + 1, hd, .inside hopened hcontent⟩

end Order
end Descent
end InlineMarkdown
