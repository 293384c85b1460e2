import Mathlib.Algebra.BigOperators.Group.Finset.Sigma
import Mathlib.Tactic.Abel
import Mathlib.Data.Fintype.Basic

/-! Families of lists, and the multiset of everything they hold. -/

namespace Buckets

open Finset Multiset Function

variable {ι α β : Type*} [DecidableEq ι] {b : ι → List α}

def push (b : ι → List α) (i : ι) (x : α) : ι → List α :=
  Function.update b i (b i ++ [x])

def clear (b : ι → List α) (i : ι) : ι → List α := Function.update b i []

theorem mem_push {i j : ι} {x y : α} : y ∈ push b i x j ↔ y ∈ b j ∨ (j = i ∧ y = x) := by
  by_cases h : j = i
  · subst h
    simp [push]
  · simp [push, h]

theorem mem_clear {i j : ι} {y : α} : y ∈ clear b i j ↔ y ∈ b j ∧ j ≠ i := by
  by_cases h : j = i
  · subst h
    simp [clear]
  · simp [clear, h]

variable [Fintype ι]

variable (label : ι → α → β)

/-- All elements, each under the label its bucket gives it. -/
@[irreducible] def contents (b : ι → List α) : Multiset β :=
  ∑ i, (b i : Multiset α).map (label i)

theorem contents_update (b : ι → List α) (i : ι) (l : List α) :
    contents label (update b i l) + (b i : Multiset α).map (label i) =
      contents label b + (l : Multiset α).map (label i) := by
  have hrest : ∀ j ∈ Finset.univ.erase i,
      ((update b i l j : List α) : Multiset α).map (label j) =
        (b j : Multiset α).map (label j) := by
    intro j hj
    rw [update_of_ne (ne_of_mem_erase hj)]
  unfold contents
  rw [← add_sum_erase _ _ (mem_univ i), sum_congr rfl hrest,
    ← add_sum_erase _ (fun j => (b j : Multiset α).map (label j)) (mem_univ i),
    update_self]
  abel

theorem contents_push (b : ι → List α) (i : ι) (x : α) :
    contents label (push b i x) = label i x ::ₘ contents label b := by
  have h := contents_update label b i (b i ++ [x])
  rw [← coe_add, Multiset.map_add, ← add_assoc, add_right_comm] at h
  have h' := add_right_cancel h
  rw [push, h', Multiset.coe_singleton, Multiset.map_singleton, add_comm,
    singleton_add]

theorem contents_clear (b : ι → List α) (i : ι) :
    contents label (clear b i) + (b i : Multiset α).map (label i) = contents label b := by
  have h := contents_update label b i []
  rwa [coe_nil, Multiset.map_zero, add_zero] at h

omit [DecidableEq ι] in
theorem contents_congr {label label' : ι → α → β}
    (h : ∀ i, ∀ x ∈ b i, label i x = label' i x) : contents label b = contents label' b := by
  unfold contents
  exact sum_congr rfl fun i _ => Multiset.map_congr rfl (h i)

omit [DecidableEq ι] in
theorem mem_contents {label : ι → α → β} {y : β} :
    y ∈ contents label b ↔ ∃ i, ∃ x ∈ b i, label i x = y := by
  simp [contents, mem_sum]

end Buckets
