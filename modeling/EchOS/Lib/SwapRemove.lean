import Mathlib.Algebra.GroupWithZero.Nat
import Mathlib.Data.List.Perm.Basic

/-! Removal from a list by moving the last element into the freed place. -/

namespace SwapRemove

open List

variable {α : Type*} {l : List α}

def swapRemove (l : List α) (i : ℕ) : List α :=
  match l.getLast? with
  | none => []
  | some x => (l.set i x).dropLast

theorem swapRemove_concat (l : List α) (x : α) (i : ℕ) :
    swapRemove (l ++ [x]) i = ((l ++ [x]).set i x).dropLast := by
  simp [swapRemove]

theorem perm_swapRemove {i : ℕ} (h : i < l.length) : l.Perm (l[i] :: swapRemove l i) := by
  obtain rfl | ⟨l, x, rfl⟩ := l.eq_nil_or_concat'
  · simp at h
  rw [swapRemove_concat]
  rw [length_append, length_singleton] at h
  by_cases hi : i < l.length
  · rw [getElem_append_left hi, set_append_left _ _ hi, dropLast_concat]
    have hx : (x :: l).Perm (l[i] :: x :: l.eraseIdx i) :=
      ((getElem_cons_eraseIdx_perm hi).symm.cons x).trans (List.Perm.swap _ _ _)
    exact (perm_append_singleton x l).trans
      (hx.trans ((set_perm_cons_eraseIdx hi x).symm.cons _))
  · obtain rfl : i = l.length := by omega
    simp

theorem length_swapRemove_le (l : List α) (i : ℕ) : (swapRemove l i).length ≤ l.length := by
  unfold swapRemove
  split
  · simp
  · simp

theorem mem_of_mem_swapRemove {i : ℕ} {x : α} (h : x ∈ swapRemove l i) : x ∈ l := by
  obtain rfl | ⟨l, y, rfl⟩ := l.eq_nil_or_concat'
  · simp [swapRemove] at h
  rw [swapRemove_concat] at h
  rcases mem_or_eq_of_mem_set ((dropLast_sublist _).subset h) with h | h
  · exact h
  · simp [h]

end SwapRemove
