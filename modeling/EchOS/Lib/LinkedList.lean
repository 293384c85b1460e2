import EchOS.Lib.Loop
import Mathlib.Data.List.Basic

/-! Singly linked lists in a store of cells: segments of a list, how they compose and how
they change when a cell is relinked. -/

namespace LinkedList

open List

variable {α : Type*} {next next' : α → Option α} {p q : Option α} {l r : List α} {x : α}

/-- The cells of a list lead from one pointer to another. -/
def Seg (next : α → Option α) : Option α → List α → Option α → Prop
  | p, [], q => p = q
  | p, a :: l, q => p = some a ∧ Seg next (next a) l q

theorem seg_append : Seg next p (l ++ r) q ↔ ∃ s, Seg next p l s ∧ Seg next s r q := by
  induction l generalizing p with
  | nil => simp [Seg]
  | cons a l ih => simp [Seg, ih, and_assoc]

theorem Seg.head_eq (h : Seg next p l q) : p = l.head?.or q := by
  cases l with
  | nil => exact h
  | cons a l => exact h.1

theorem Seg.congr (h : Seg next p l q) (heq : ∀ a ∈ l, next' a = next a) : Seg next' p l q := by
  induction l generalizing p with
  | nil => exact h
  | cons a l ih =>
    obtain ⟨hp, hl⟩ := h
    refine ⟨hp, ?_⟩
    rw [heq a mem_cons_self]
    exact ih hl fun b hb => heq b (mem_cons_of_mem a hb)

theorem Seg.from_last (h : Seg next (some x) (x :: (l ++ r)) q) :
    Seg next (some (l.getLastD x)) (l.getLastD x :: r) q := by
  induction l generalizing x with
  | nil => exact h
  | cons a l ih =>
    obtain ⟨-, -, hl⟩ := h
    rw [getLastD_cons]
    exact ih ⟨rfl, hl⟩

theorem exists_split_getLastD (x : α) (l : List α) :
    ∃ first, ∀ tail, x :: (l ++ tail) = first ++ l.getLastD x :: tail := by
  obtain rfl | ⟨l, y, rfl⟩ := eq_nil_or_concat' l
  · exact ⟨[], fun _ => rfl⟩
  · exact ⟨x :: l, by simp⟩

theorem Seg.next_eq (h : Seg next p (l ++ x :: r) none) : next x = r.head? := by
  obtain ⟨s, -, -, hr⟩ := seg_append.mp h
  rw [hr.head_eq, Option.or_none]

theorem Seg.run_walk {σ β : Type*} {step : σ → Option (σ ⊕ β)} {f : α → σ} {rounds : ℕ} {b : β}
    (h : Seg next (some x) (x :: (l ++ r)) q)
    (hstep : ∀ y ∈ x :: l, ∀ z ∈ l, next y = some z → step (f y) = some (.inl (f z)))
    (hlast : step (f (l.getLastD x)) = some (.inr b)) (hr : l.length < rounds) :
    Loop.run step rounds (f x) = some b := by
  induction l generalizing x rounds with
  | nil => exact Loop.run_done hlast hr
  | cons a l ih =>
    obtain ⟨-, hnext, hl⟩ := h
    obtain ⟨rounds, rfl⟩ := Nat.exists_eq_add_one.mpr (Nat.zero_lt_of_lt hr)
    rw [Loop.run_next (hstep x mem_cons_self a mem_cons_self hnext)]
    rw [getLastD_cons] at hlast
    exact ih ⟨rfl, hl⟩ (fun y hy z hz => hstep y (mem_cons_of_mem x hy) z
      (mem_cons_of_mem a hz)) hlast (Nat.lt_of_succ_lt_succ hr)

/-- Replace the cells after one of a list: the cells before and behind keep their pointers,
and the new cells lead from it to those behind. -/
theorem Seg.splice {mid mid' : List α} (h : Seg next p (l ++ x :: (mid ++ r)) none)
    (hl : ∀ a ∈ l, next' a = next a) (hr : ∀ a ∈ r, next' a = next a)
    (hmid : Seg next' (next' x) mid' r.head?) : Seg next' p (l ++ x :: (mid' ++ r)) none := by
  obtain ⟨s, hpre, hx, hrest⟩ := seg_append.mp h
  obtain ⟨t, -, hbehind⟩ := seg_append.mp hrest
  have ht : t = r.head? := by rw [hbehind.head_eq, Option.or_none]
  subst ht
  exact seg_append.mpr ⟨s, hpre.congr hl, hx, seg_append.mpr ⟨_, hmid, hbehind.congr hr⟩⟩

end LinkedList
