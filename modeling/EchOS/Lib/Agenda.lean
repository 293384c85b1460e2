import Mathlib.Algebra.Order.Group.Multiset

/-! A timer without a data structure: items with the time at which each is due, and a clock
that hands out, at every tick, exactly what is due. -/

structure Agenda (α : Type*) where
  now : ℕ
  items : Multiset (α × ℕ)

namespace Agenda

open Multiset Function

variable {α : Type*} {a : Agenda α} {handedOut : ℕ → Multiset α} {added : Multiset (α × ℕ)}

def empty : Agenda α := ⟨0, 0⟩

def add (a : Agenda α) (x : α) (due : ℕ) : Agenda α :=
  { a with items := (x, due) ::ₘ a.items }

def ready (a : Agenda α) : Multiset α :=
  (a.items.filter fun item => item.2 = a.now).map Prod.fst

def tick (a : Agenda α) : Agenda α :=
  ⟨a.now + 1, a.items.filter fun item => item.2 ≠ a.now⟩

theorem ready_tick_of_split {later : Multiset (α × ℕ)} {due : Multiset α}
    (hitems : a.items = later + due.map fun x => (x, a.now))
    (hlater : ∀ item ∈ later, item.2 ≠ a.now) : a.ready = due ∧ a.tick = ⟨a.now + 1, later⟩ := by
  have hdue : ∀ item ∈ due.map fun x => (x, a.now), item.2 = a.now := by
    intro item hitem
    obtain ⟨x, -, rfl⟩ := mem_map.mp hitem
    rfl
  constructor
  · rw [ready, hitems, filter_add, filter_eq_nil.mpr hlater,
      filter_eq_self.mpr hdue, zero_add, map_map]
    exact map_id due
  · rw [tick, hitems, filter_add, filter_eq_self.mpr hlater,
      filter_eq_nil.mpr fun item hitem => not_not.mpr (hdue item hitem), add_zero]

/-- The agenda holds what was added and is not due yet; each past tick handed out exactly
what was due then. -/
structure Accounts (a : Agenda α) (added : Multiset (α × ℕ)) (handedOut : ℕ → Multiset α) :
    Prop where
  items_eq : a.items = added.filter fun item => a.now ≤ item.2
  past : ∀ n < a.now, handedOut n = (added.filter fun item => item.2 = n).map Prod.fst
  future : ∀ n, a.now ≤ n → handedOut n = 0

theorem accounts_empty : Accounts (empty : Agenda α) 0 fun _ => 0 :=
  ⟨rfl, fun _ h => absurd h (Nat.not_lt_zero _), fun _ _ => rfl⟩

theorem Accounts.add (h : Accounts a added handedOut) (x : α) {due : ℕ} (hdue : a.now ≤ due) :
    Accounts (a.add x due) ((x, due) ::ₘ added) handedOut := by
  refine ⟨?_, ?_, h.future⟩
  · change (x, due) ::ₘ a.items =
      Multiset.filter (fun item : α × ℕ => a.now ≤ item.2) ((x, due) ::ₘ added)
    rw [filter_cons_of_pos (p := fun item : α × ℕ => a.now ≤ item.2) added hdue,
      h.items_eq]
  · intro n hn
    have hne : ¬ due = n := fun he => absurd (he ▸ hdue) (Nat.not_le_of_lt hn)
    rw [filter_cons_of_neg (p := fun item : α × ℕ => item.2 = n) added hne]
    exact h.past n hn

theorem Accounts.tick (h : Accounts a added handedOut) :
    Accounts a.tick added (Function.update handedOut a.now a.ready) := by
  refine ⟨?_, ?_, ?_⟩
  · rw [Agenda.tick, h.items_eq, filter_filter]
    refine filter_congr fun item _ => ?_
    change _ ↔ a.now + 1 ≤ item.2
    omega
  · intro n hn
    rcases Nat.lt_succ_iff_lt_or_eq.mp hn with hn | rfl
    · rw [update_of_ne (Nat.ne_of_lt hn)]
      exact h.past n hn
    · rw [update_self, ready, h.items_eq, filter_filter]
      congr 1
      refine filter_congr fun item _ => ?_
      omega
  · intro n hn
    rw [update_of_ne (Nat.ne_of_gt hn)]
    exact h.future n (Nat.le_of_succ_le hn)

end Agenda
