import Mathlib.Algebra.GroupWithZero.Nat
import Mathlib.Tactic.Common

/-! Byte-addressed memory with little-endian reads and writes of any width. -/

namespace ByteStore

def readLe (m : ℕ → BitVec 8) (a : ℕ) : ℕ → ℕ
  | 0 => 0
  | n + 1 => (m a).toNat + 256 * readLe m (a + 1) n

def writeLe (m : ℕ → BitVec 8) (a n v : ℕ) : ℕ → BitVec 8 := fun k =>
  if a ≤ k ∧ k < a + n then BitVec.ofNat 8 (v / 256 ^ (k - a)) else m k

variable {m' m : ℕ → BitVec 8} {a n b : ℕ}

theorem readLe_eq (h : ∀ i < n, m (a + i) = m' (b + i)) : readLe m a n = readLe m' b n := by
  induction n generalizing a b with
  | zero => rfl
  | succ n ih =>
    have htail : readLe m (a + 1) n = readLe m' (b + 1) n := by
      refine ih fun i hi => ?_
      rw [Nat.add_assoc, Nat.add_assoc, Nat.add_comm 1]
      exact h (i + 1) (by omega)
    have hhead : m a = m' b := h 0 (Nat.succ_pos n)
    rw [readLe, readLe, htail, hhead]

theorem readLe_congr (h : ∀ k, a ≤ k → k < a + n → m k = m' k) : readLe m a n = readLe m' a n :=
  readLe_eq fun i hi => h (a + i) (Nat.le_add_right a i) (by omega)

theorem readLe_writeLe (m : ℕ → BitVec 8) (a n v : ℕ) :
    readLe (writeLe m a n v) a n = v % 256 ^ n := by
  induction n generalizing m a v with
  | zero => simp [readLe, Nat.mod_one]
  | succ n ih =>
    have hhead : (writeLe m a (n + 1) v a).toNat = v % 256 := by simp [writeLe]
    have htail : readLe (writeLe m a (n + 1) v) (a + 1) n =
        readLe (writeLe m (a + 1) n (v / 256)) (a + 1) n := by
      refine readLe_congr fun k hk hlt => ?_
      have hsub : k - a = (k - (a + 1)) + 1 := by omega
      have hin : a ≤ k ∧ k < a + (n + 1) := by omega
      rw [writeLe, writeLe, if_pos hin, if_pos ⟨hk, hlt⟩, hsub, Nat.pow_succ, Nat.mul_comm,
        Nat.div_div_eq_div_mul]
    rw [readLe, hhead, htail, ih, Nat.pow_succ, Nat.mul_comm (256 ^ n), Nat.mod_mul]

theorem readLe_writeLe_disjoint (m : ℕ → BitVec 8) {k v : ℕ}
    (h : a + n ≤ b ∨ b + k ≤ a) : readLe (writeLe m a n v) b k = readLe m b k := by
  refine readLe_congr fun j hj hlt => ?_
  rw [writeLe, if_neg (by omega)]

end ByteStore
