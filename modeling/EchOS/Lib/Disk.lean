import Mathlib.Algebra.GroupWithZero.Nat
import Mathlib.Tactic.Common
import Mathlib.Data.List.GetD

/-! Byte images of storage devices, buffers that are written to them, and numbers in big-endian
order in those buffers. -/

namespace Disk

open List

abbrev Image := ℕ → BitVec 8

def read (image : Image) (a n : ℕ) : List (BitVec 8) := (List.range n).map fun k => image (a + k)

def write (image : Image) (a : ℕ) (bytes : List (BitVec 8)) : Image := fun k =>
  if a ≤ k ∧ k < a + bytes.length then bytes.getD (k - a) 0 else image k

section Image

variable {image image' : Image} {a n k : ℕ} {bytes : List (BitVec 8)}

@[simp] theorem length_read (image : Image) (a n : ℕ) : (read image a n).length = n := by
  simp [read]

theorem write_outside (h : k < a ∨ a + bytes.length ≤ k) : write image a bytes k = image k :=
  if_neg (by omega)

theorem write_inside (hle : a ≤ k) (hlt : k < a + bytes.length) :
    write image a bytes k = bytes.getD (k - a) 0 :=
  if_pos ⟨hle, hlt⟩

theorem read_congr (h : ∀ k, a ≤ k → k < a + n → image k = image' k) :
    read image a n = read image' a n := by
  apply map_congr_left
  intro k hk
  have hlt := mem_range.mp hk
  exact h (a + k) (by omega) (by omega)

theorem read_write (k : ℕ) (h : k + n ≤ bytes.length) :
    read (write image a bytes) (a + k) n = (bytes.drop k).take n := by
  apply ext_getElem
  · simp only [length_read, length_take, length_drop]
    omega
  · intro i hi _
    rw [length_read] at hi
    have hin : k + i < bytes.length := by omega
    simp only [read, getElem_map, getElem_range, getElem_take, getElem_drop]
    rw [write_inside (by omega) (by omega), ← getD_eq_getElem _ 0 hin]
    congr 1
    omega

theorem read_append (image : Image) (a n m : ℕ) :
    read image a n ++ read image (a + n) m = read image a (n + m) := by
  simp only [read, range_add, map_append, map_map, Function.comp_def, Nat.add_assoc]

theorem getD_read (h : k < n) : (read image a n).getD k 0 = image (a + k) := by
  simp [read, h]

theorem read_inj (h : read image a n = read image' a n) (hk : k < n) :
    image (a + k) = image' (a + k) := by
  have hbyte := congrArg (fun l => l.getD k 0) h
  simpa only [getD_read hk] using hbyte

theorem read_take (m : ℕ) (h : m ≤ n) : (read image a n).take m = read image a m := by
  apply ext_getElem
  · simp [h]
  · intro k _ _
    simp [read]

theorem drop_read (image : Image) (a n k : ℕ) :
    (read image a n).drop k = read image (a + k) (n - k) := by
  apply ext_getElem
  · simp
  · intro i _ _
    simp [read, Nat.add_assoc]

theorem write_read_self (image : Image) (a n : ℕ) : write image a (read image a n) = image := by
  funext k
  by_cases hk : a ≤ k ∧ k < a + n
  · have hlt : k - a < (read image a n).length := by rw [length_read]; omega
    rw [write_inside hk.1 (by rw [length_read]; exact hk.2), getD_eq_getElem _ 0 hlt]
    simp only [read, getElem_map, getElem_range]
    congr 1
    omega
  · exact write_outside (by rw [length_read]; omega)

end Image

def patch (buf : List (BitVec 8)) (offset : ℕ) (bytes : List (BitVec 8)) : List (BitVec 8) :=
  buf.take offset ++ bytes ++ buf.drop (offset + bytes.length)

variable {bytes buf : List (BitVec 8)} {offset n : ℕ}

theorem length_patch (hbuf : buf.length = n)
    (h : offset + bytes.length ≤ n) : (patch buf offset bytes).length = n := by
  simp only [patch, length_append, length_take, length_drop]
  omega

theorem take_patch (h : offset ≤ buf.length) :
    (patch buf offset bytes).take offset = buf.take offset := by
  rw [patch, append_assoc, take_append_of_le_length (by simp [h]), take_take,
    Nat.min_self]

theorem getD_patch (h : offset + bytes.length ≤ buf.length) (k : ℕ) :
    (patch buf offset bytes).getD k 0
      = if offset ≤ k ∧ k < offset + bytes.length then bytes.getD (k - offset) 0
        else buf.getD k 0 := by
  have hfront : (buf.take offset).length = offset := length_take_of_le (by omega)
  rw [patch, append_assoc]
  by_cases hbefore : k < offset
  · rw [if_neg (by omega), getD_append _ _ _ _ (by omega), List.getD_eq_getElem?_getD,
      List.getElem?_take_of_lt hbefore, ← List.getD_eq_getElem?_getD]
  · rw [getD_append_right _ _ _ _ (by omega), hfront]
    by_cases hinside : k < offset + bytes.length
    · rw [if_pos ⟨by omega, hinside⟩, getD_append _ _ _ _ (by omega)]
    · rw [if_neg (fun hboth => hinside hboth.2), getD_append_right _ _ _ _ (by omega),
        List.getD_eq_getElem?_getD, List.getElem?_drop, ← List.getD_eq_getElem?_getD]
      congr 1
      omega

theorem drop_patch (hfits : offset + bytes.length ≤ buf.length) (h : offset + bytes.length ≤ n) :
    (patch buf offset bytes).drop n = buf.drop n := by
  have hlength : (buf.take offset ++ bytes).length = offset + bytes.length := by
    simp only [length_append, length_take]
    omega
  rw [patch, drop_append, drop_eq_nil_of_le (by omega), nil_append, drop_drop]
  congr 1
  omega

def toBe (n v : ℕ) : List (BitVec 8) :=
  (List.range n).map fun i => BitVec.ofNat 8 (v / 256 ^ (n - 1 - i))

def ofBe (bytes : List (BitVec 8)) : ℕ := bytes.foldl (fun acc byte => acc * 256 + byte.toNat) 0

@[simp] theorem length_toBe (n v : ℕ) : (toBe n v).length = n := by
  simp [toBe]

end Disk
