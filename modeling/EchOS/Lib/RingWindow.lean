import Mathlib.Algebra.GroupWithZero.Nat
import Mathlib.Data.Fin.Basic
import Mathlib.Data.List.Basic

/-! A buffer of fixed size read through indices that run on: the entries between two
indices, and what writing or moving an end does to them. -/

namespace RingWindow

open List Function

variable {n : ℕ} [NeZero n] {α : Type*} {b lo hi : ℤ}

def slot (n : ℕ) [NeZero n] (k : ℤ) : Fin n :=
  ⟨(k % n).toNat, by
    have hn : (0 : ℤ) < n := Int.natCast_pos.mpr (Nat.pos_of_ne_zero (NeZero.ne n))
    have := Int.emod_lt_of_pos k hn
    have := Int.emod_nonneg k (ne_of_gt hn)
    omega⟩

theorem slot_ne {k : ℤ} (hlt : k < b) (hle : b < k + n) : slot n k ≠ slot n b := by
  intro h
  have hn : (0 : ℤ) < n := Int.natCast_pos.mpr (Nat.pos_of_ne_zero (NeZero.ne n))
  have hk := Int.emod_nonneg k (ne_of_gt hn)
  have hb := Int.emod_nonneg b (ne_of_gt hn)
  have hval := Fin.mk.inj h
  have hmod : b % n = k % n := by omega
  have hzero : (b - k) % n = 0 := Int.emod_eq_emod_iff_emod_sub_eq_zero.mp hmod
  rw [Int.emod_eq_of_lt (by omega) (by omega)] at hzero
  omega

variable (buf : Fin n → α)

def window (lo hi : ℤ) : List α :=
  (List.range (hi - lo).toNat).map fun i : ℕ => buf (slot n (lo + i))

theorem window_of_le (h : hi ≤ lo) : window buf lo hi = [] := by
  have hz : (hi - lo).toNat = 0 := by omega
  simp [window, hz]

theorem window_cons (h : lo < hi) :
    window buf lo hi = buf (slot n lo) :: window buf (lo + 1) hi := by
  have hlen : (hi - lo).toNat = (hi - (lo + 1)).toNat + 1 := by omega
  rw [window, hlen, range_succ_eq_map, map_cons, map_map]
  congr 1
  · simp
  · refine map_congr_left fun i _ => ?_
    have hi : lo + ((i + 1 : ℕ) : ℤ) = lo + 1 + i := by omega
    simp only [comp_apply, Nat.succ_eq_add_one, hi]

theorem window_concat (h : lo ≤ hi) :
    window buf lo (hi + 1) = window buf lo hi ++ [buf (slot n hi)] := by
  have hlen : (hi + 1 - lo).toNat = (hi - lo).toNat + 1 := by omega
  have hlast : lo + ((hi - lo).toNat : ℤ) = hi := by omega
  rw [window, hlen, range_succ, map_append, map_singleton, hlast, window]

theorem window_update (hle : hi ≤ b) (hlt : b < lo + n) (x : α) :
    window (update buf (slot n b) x) lo hi = window buf lo hi := by
  refine map_congr_left fun i hi => ?_
  have := mem_range.mp hi
  have hpast : lo + (i : ℤ) < b := by omega
  have hturn : b < lo + (i : ℤ) + n := by omega
  exact update_of_ne (slot_ne hpast hturn) x buf

end RingWindow
