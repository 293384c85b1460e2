import Mathlib.Data.List.AList

/-! Finite tables with at most one value for each key. -/

/-- A finite map, as an association list without repeated keys. -/
abbrev Table (α β : Type*) := AList fun _ : α => β

namespace Table

variable {α β : Type*} [DecidableEq α] {t : Table α β}

theorem lookup_insert_eq (t : Table α β) (a a' : α) (b : β) :
    (AList.insert a b t).lookup a' = if a' = a then some b else t.lookup a' := by
  by_cases h : a' = a
  · subst h
    rw [AList.lookup_insert, if_pos rfl]
  · rw [AList.lookup_insert_ne h, if_neg h]

theorem lookup_erase_eq (t : Table α β) (a a' : α) :
    (AList.erase a t).lookup a' = if a' = a then none else t.lookup a' := by
  by_cases h : a' = a
  · subst h
    rw [AList.lookup_erase, if_pos rfl]
  · rw [AList.lookup_erase_ne h, if_neg h]

theorem mem_iff_exists {a : α} : a ∈ t ↔ ∃ b, t.lookup a = some b := by
  rw [← AList.lookup_isSome, Option.isSome_iff_exists]

def size (t : Table α β) : ℕ := t.keys.length

theorem size_erase_lt {a : α} (h : a ∈ t) : size (AList.erase a t) < size t := by
  have hkeys : a ∈ t.keys := AList.mem_keys.mp h
  have hpos : 0 < t.keys.length := List.length_pos_of_mem hkeys
  show (AList.erase a t).keys.length < t.keys.length
  rw [AList.keys_erase, List.length_erase_of_mem hkeys]
  omega

theorem size_erase_le (t : Table α β) (a : α) : size (AList.erase a t) ≤ size t := by
  show (AList.erase a t).keys.length ≤ t.keys.length
  rw [AList.keys_erase]
  exact List.length_erase_le

end Table
