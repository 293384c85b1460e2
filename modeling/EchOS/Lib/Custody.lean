import Mathlib.Data.List.Basic

/-! Agents that take locks on resources and give them back, one at a time. -/

namespace Custody

open List Function

variable {τ ρ : Type*} {locked locked' : ρ → Prop} {held held' : τ → List ρ} {t : τ}

/-- Every lock an agent holds is set, and nobody holds a lock twice. -/
structure Exclusive (locked : ρ → Prop) (held : τ → List ρ) : Prop where
  isLocked : ∀ t, ∀ x ∈ held t, locked x
  nodup : ∀ t, (held t).Nodup
  disjoint : ∀ t t', t ≠ t' → ∀ x ∈ held t, x ∉ held t'

/-- What a step of one agent may do to the locks, given what the agent holds before and
after it. -/
inductive Move (locked locked' : ρ → Prop) (before after : List ρ) : Prop
  /-- No lock that is set is given up. -/
  | keep (hlocked : ∀ x, locked x → locked' x) (hheld : after = before)
  | take (x : ρ) (hfree : ¬ locked x) (hset : locked' x)
      (hothers : ∀ y, y ≠ x → locked y → locked' y) (hheld : after.Perm (x :: before))
  | drop (x : ρ) (hothers : ∀ y, y ≠ x → locked y → locked' y)
      (hheld : before.Perm (x :: after))

theorem Exclusive.mono (h : Exclusive locked held)
    (hlocked : ∀ t, ∀ x ∈ held t, locked x → locked' x) : Exclusive locked' held :=
  ⟨fun u x hx => hlocked u x hx (h.isLocked u x hx), h.nodup, h.disjoint⟩

variable [DecidableEq τ] {after : List ρ}

theorem Exclusive.update (h : Exclusive locked held) (hnodup : after.Nodup)
    (hafter : ∀ x ∈ after, locked' x) (hothers : ∀ u, u ≠ t → ∀ x ∈ held u, locked' x ∧ x ∉ after) :
    Exclusive locked' (Function.update held t after) := by
  constructor
  · intro u x hx
    by_cases hu : u = t
    · subst hu
      rw [update_self] at hx
      exact hafter x hx
    · rw [update_of_ne hu] at hx
      exact (hothers u hu x hx).1
  · intro u
    by_cases hu : u = t
    · subst hu
      rw [update_self]
      exact hnodup
    · rw [update_of_ne hu]
      exact h.nodup u
  · intro u v huv x hx
    by_cases hu : u = t
    · subst hu
      rw [update_self] at hx
      rw [update_of_ne huv.symm]
      exact fun hx' => (hothers v huv.symm x hx').2 hx
    · rw [update_of_ne hu] at hx
      by_cases hv : v = t
      · subst hv
        rw [update_self]
        exact (hothers u hu x hx).2
      · rw [update_of_ne hv]
        exact h.disjoint u v huv x hx

theorem Exclusive.move (h : Exclusive locked held) (hmove : Move locked locked' (held t) after) :
    Exclusive locked' (Function.update held t after) := by
  cases hmove with
  | keep hlocked hheld =>
    rw [hheld, update_eq_self]
    exact ⟨fun u x hx => hlocked x (h.isLocked u x hx), h.nodup, h.disjoint⟩
  | take x hfree hset hothers hheld =>
    have hnew : ∀ u, x ∉ held u := fun u hx => hfree (h.isLocked u x hx)
    have hkept : ∀ u, ∀ y ∈ held u, y ≠ x ∧ locked' y := by
      intro u y hy
      have hne : y ≠ x := fun heq => hnew u (heq ▸ hy)
      exact ⟨hne, hothers y hne (h.isLocked u y hy)⟩
    apply h.update
    · rw [hheld.nodup_iff]
      exact nodup_cons.mpr ⟨hnew t, h.nodup t⟩
    · intro y hy
      rcases mem_cons.mp (hheld.mem_iff.mp hy) with rfl | hy
      · exact hset
      · exact (hkept t y hy).2
    · intro u hu y hy
      constructor
      · exact (hkept u y hy).2
      · intro hy'
        rcases mem_cons.mp (hheld.mem_iff.mp hy') with rfl | hy'
        · exact hnew u hy
        · exact h.disjoint u t hu y hy hy'
  | drop x hothers hheld =>
    have hsub : ∀ y ∈ after, y ∈ held t :=
      fun y hy => hheld.mem_iff.mpr (mem_cons_of_mem x hy)
    have hx : x ∈ held t := hheld.mem_iff.mpr mem_cons_self
    have hnodup := nodup_cons.mp (hheld.nodup_iff.mp (h.nodup t))
    apply h.update hnodup.2
    · intro y hy
      have hne : y ≠ x := fun heq => hnodup.1 (heq ▸ hy)
      exact hothers y hne (h.isLocked t y (hsub y hy))
    · intro u hu y hy
      have hne : y ≠ x := fun heq => h.disjoint u t hu y hy (heq ▸ hx)
      exact ⟨hothers y hne (h.isLocked u y hy), fun hy' => h.disjoint u t hu y hy (hsub y hy')⟩

end Custody
