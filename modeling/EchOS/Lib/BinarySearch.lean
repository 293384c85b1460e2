import Mathlib.Tactic.Common

/-! Binary search for the last entry of a table that passes a test, where the entries that pass
come first. -/

namespace BinarySearch

variable {α : Type*}

/-- Searches the entries from `lo` up to `hi` and keeps the last one that passed. The search is
given up at an entry that cannot be read. -/
def last (entry : ℕ → Option α) (test : α → Bool) : ℕ → ℕ → ℕ → Option α → Option α
  | 0, _, _, found => found
  | rounds + 1, lo, hi, found =>
    if lo < hi then
      let mid := lo + (hi - 1 - lo) / 2
      match entry mid with
      | none => found
      | some e =>
        if test e then last entry test rounds (mid + 1) hi (some e)
        else last entry test rounds lo mid found
    else found

variable {entry : ℕ → Option α} {test : α → Bool} {found : Option α} {rounds lo hi : ℕ}

theorem last_eq {k : ℕ}
    (hentry : ∀ i, i < hi → ∃ e, entry i = some e ∧ (test e = true ↔ i < k)) (hlo : lo ≤ k)
    (hhi : k ≤ hi) (hrounds : hi - lo ≤ rounds) :
    last entry test rounds lo hi found = if lo < k then entry (k - 1) else found := by
  induction rounds generalizing lo hi found with
  | zero =>
    have hnot : ¬ lo < k := by omega
    rw [last, if_neg hnot]
  | succ rounds ih =>
    rw [last]
    by_cases hlt : lo < hi
    · have hmid : lo + (hi - 1 - lo) / 2 < hi := by omega
      obtain ⟨e, he, htest⟩ := hentry _ hmid
      rw [if_pos hlt]
      simp only [he]
      by_cases hk : lo + (hi - 1 - lo) / 2 < k
      · rw [if_pos (htest.mpr hk), ih hentry (by omega) hhi (by omega), if_pos (by omega : lo < k)]
        by_cases hlast : lo + (hi - 1 - lo) / 2 + 1 < k
        · rw [if_pos hlast]
        · have hprev : k - 1 = lo + (hi - 1 - lo) / 2 := by omega
          rw [if_neg hlast, hprev, he]
      · rw [if_neg (mt htest.mp hk)]
        exact ih (fun i hi' => hentry i (by omega)) hlo (by omega) (by omega)
    · have hnot : ¬ lo < k := by omega
      rw [if_neg hlt, if_neg hnot]

theorem last_sound {e : α} (h : last entry test rounds lo hi found = some e) :
    found = some e ∨ ∃ i, entry i = some e ∧ test e = true := by
  fun_induction last entry test rounds lo hi found with
  | case1 | case2 | case5 => exact .inl h
  | case3 rounds lo hi found hlt mid x hmid htest ih =>
    rcases ih h with hx | hfound
    · obtain rfl : x = e := Option.some.inj hx
      exact .inr ⟨_, hmid, htest⟩
    · exact .inr hfound
  | case4 rounds lo hi found hlt mid x hmid htest ih => exact ih h

end BinarySearch
