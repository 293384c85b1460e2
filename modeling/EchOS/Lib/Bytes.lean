import EchOS.Lib.Disk

/-! Byte strings: numbers in little-endian and big-endian order, slices, and arrays of a fixed
length that are cut out of a longer string. -/

namespace Bytes

def toLe : ℕ → ℕ → List (BitVec 8)
  | 0, _ => []
  | n + 1, v => BitVec.ofNat 8 v :: toLe n (v / 256)

def ofLe : List (BitVec 8) → ℕ
  | [] => 0
  | byte :: bytes => byte.toNat + 256 * ofLe bytes

@[simp] theorem length_toLe (n v : ℕ) : (toLe n v).length = n := by
  induction n generalizing v with
  | zero => rfl
  | succ n ih => simp [toLe, ih]

theorem ofLe_toLe_mod (n v : ℕ) : ofLe (toLe n v) = v % 256 ^ n := by
  induction n generalizing v with
  | zero =>
    rw [Nat.pow_zero, Nat.mod_one]
    rfl
  | succ n ih =>
    have hbyte : (BitVec.ofNat 8 v).toNat = v % 256 := BitVec.toNat_ofNat v 8
    rw [toLe, ofLe, ih, hbyte, Nat.pow_succ', Nat.mod_mul]

variable {n v a b : ℕ} {bytes : List (BitVec 8)}

theorem ofLe_toLe (h : v < 256 ^ n) : ofLe (toLe n v) = v := by
  rw [ofLe_toLe_mod, Nat.mod_eq_of_lt h]

def toBe (n v : ℕ) : List (BitVec 8) := (toLe n v).reverse

def ofBe (bytes : List (BitVec 8)) : ℕ := ofLe bytes.reverse

@[simp] theorem length_toBe (n v : ℕ) : (toBe n v).length = n := by
  rw [toBe, List.length_reverse, length_toLe]

theorem ofBe_toBe (h : v < 256 ^ n) : ofBe (toBe n v) = v := by
  rw [ofBe, toBe, List.reverse_reverse, ofLe_toLe h]

def slice (bytes : List (BitVec 8)) (a b : ℕ) : List (BitVec 8) := (bytes.drop a).take (b - a)

theorem length_slice (h : b ≤ bytes.length) : (slice bytes a b).length = b - a := by
  rw [slice, List.length_take, List.length_drop]
  omega

theorem getD_slice {k : ℕ} (h : a + k < b) : (slice bytes a b).getD k 0 = bytes.getD (a + k) 0 := by
  rw [slice, List.getD_eq_getElem?_getD, List.getElem?_take_of_lt (by omega), List.getElem?_drop,
    ← List.getD_eq_getElem?_getD]

theorem slice_middle {front rest : List (BitVec 8)} (hfront : front.length = a)
    (hbytes : a + bytes.length = b) : slice (front ++ (bytes ++ rest)) a b = bytes := by
  have hwidth : b - a = bytes.length := by omega
  rw [slice, hwidth, ← hfront, List.drop_left, List.take_left]

section Patch

variable {buf bytes : List (BitVec 8)} {offset a b : ℕ}

theorem slice_patch_self (h : offset + bytes.length ≤ buf.length)
    (hb : offset + bytes.length = b) : slice (Disk.patch buf offset bytes) offset b = bytes := by
  rw [Disk.patch, List.append_assoc]
  exact slice_middle (List.length_take_of_le (by omega)) hb

theorem slice_patch_of_disjoint (h : offset + bytes.length ≤ buf.length)
    (hab : b ≤ offset ∨ offset + bytes.length ≤ a) :
    slice (Disk.patch buf offset bytes) a b = slice buf a b := by
  rcases hab with hbefore | hbehind
  · have htake : (Disk.patch buf offset bytes).take offset = buf.take offset := by
      rw [Disk.patch, List.append_assoc]
      exact List.take_left' (List.length_take_of_le (by omega))
    have hslice : ∀ l : List (BitVec 8), slice l a b = slice (l.take offset) a b := by
      intro l
      rw [slice, slice, List.drop_take, List.take_take]
      congr 1
      omega
    rw [hslice, htake, ← hslice]
  · rw [slice, slice, Disk.drop_patch h hbehind]

end Patch

def array (n : ℕ) (bytes : List (BitVec 8)) : Vector (BitVec 8) n :=
  Vector.ofFn fun i => bytes.getD i 0

@[simp] theorem array_toList (v : Vector (BitVec 8) n) : array n v.toList = v := by
  apply Vector.ext
  intro i hi
  rw [array, Vector.getElem_ofFn, List.getD_eq_getElem _ _ (by simpa using hi)]
  exact Vector.getElem_toList (by simpa using hi)

theorem toList_array (h : bytes.length = n) : (array n bytes).toList = bytes := by
  apply List.ext_getElem
  · rw [Vector.length_toList, h]
  · intro i _ hi
    simp only [Vector.getElem_toList, array, Vector.getElem_ofFn]
    exact List.getD_eq_getElem _ _ hi

end Bytes
