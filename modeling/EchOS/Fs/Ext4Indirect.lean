import EchOS.Fs.Ext4FileBlocks

/-! Files without extents: the pointers on the way to a block of a file, and what
`map_block_indirect` makes of them. -/

namespace EchOS.Fs.Ext4

open Bytes Option List

/-- A power of two from 1024 to 4096. -/
def Supported (blockSize : UInt32) : Prop := ∃ k, 10 ≤ k ∧ k ≤ 12 ∧ blockSize.toNat = 2 ^ k

/-- The slot of the inode and the places in the pointer blocks on the way to a block of a file. -/
def blockPath (ptrs l : ℕ) : Option (ℕ × List ℕ) :=
  if l < 12 then some (l, [])
  else if l - 12 < ptrs then some (12, [l - 12])
  else if l - 12 - ptrs < ptrs ^ 2 then
    let r := l - 12 - ptrs
    some (13, [r / ptrs, r % ptrs])
  else if l - 12 - ptrs - ptrs ^ 2 < ptrs ^ 3 then
    let r := l - 12 - ptrs - ptrs ^ 2
    some (14, [r / ptrs ^ 2, r / ptrs % ptrs, r % ptrs])
  else none

namespace Volume

variable {vol : Volume} {block i : ℕ}

def pointer (vol : Volume) (block i : ℕ) : Option ℕ :=
  if block = 0 ∨ vol.storage.length < block * vol.fs.blockSize.toNat + vol.fs.blockSize.toNat then
    none
  else some (ofLe (slice (vol.block block) (i * 4) (i * 4 + 4)))

/-- Where the way to a block of a file leads, if the pointer blocks on it are all there. -/
def lastPointer (vol : Volume) (inode : Ext4Inode) (l : ℕ) : Option ℕ :=
  (blockPath (vol.fs.blockSize.toNat / 4) l).bind fun way =>
    way.2.foldlM vol.pointer (inode.indirectBlocks way.1)

/-- A block is mapped to the last pointer on its way exactly if none on the way, that one
included, is zero. -/
def MapsExactly (vol : Volume) (inode : Ext4Inode) (l : ℕ) : Prop :=
  vol.mapBlockIndirect inode l = (vol.lastPointer inode l).filter (· ≠ 0)

theorem ofLe_lt (bytes : List (BitVec 8)) : ofLe bytes < 256 ^ bytes.length := by
  induction bytes with
  | nil => exact Nat.one_pos
  | cons byte bytes ih =>
    have hbyte := byte.isLt
    rw [ofLe, length_cons, Nat.pow_succ]
    omega

theorem ofLe_slice_lt (bytes : List (BitVec 8)) (a : ℕ) :
    ofLe (slice bytes a (a + 4)) < 2 ^ 32 := by
  have hlength : (slice bytes a (a + 4)).length ≤ 4 := by
    rw [slice, Nat.add_sub_cancel_left]
    exact length_take_le 4 _
  exact Nat.lt_of_lt_of_le (ofLe_lt _) (Nat.pow_le_pow_right (n := 256) (by decide) hlength)

theorem toNat_and_not (x m : UInt64) : (x &&& ~~~m).toNat = x.toNat - (x &&& m).toNat := by
  have hapart : x.toBitVec &&& ~~~m.toBitVec &&& (x.toBitVec &&& m.toBitVec) = 0#64 := by
    ext i hi
    simp
    tauto
  have hor : x.toBitVec &&& ~~~m.toBitVec ||| x.toBitVec &&& m.toBitVec = x.toBitVec := by
    ext i hi
    cases hbit : m.toBitVec[i] <;> simp [hbit]
  have hsum := BitVec.toNat_add_of_and_eq_zero hapart
  rw [BitVec.add_eq_or_of_and_eq_zero _ _ hapart, hor] at hsum
  exact Nat.eq_sub_of_add_eq hsum.symm

theorem indirectPointer_eq (hsize : Supported vol.fs.blockSize) (hblock : block < 2 ^ 32)
    (hi : i < vol.fs.blockSize.toNat / 4) : vol.indirectPointer block i = vol.pointer block i := by
  obtain ⟨k, hk, hk', hsize⟩ := hsize
  have hpow : 2 ^ k ≤ 2 ^ 12 := Nat.pow_le_pow_right (by decide) hk'
  have hle := Nat.mul_le_mul (Nat.le_of_lt hblock) hpow
  rw [hsize] at hi
  have hoffset : (UInt64.ofNat (block * 2 ^ k + i * 4)).toNat = block * 2 ^ k + i * 4 :=
    UInt64.toNat_ofNat_of_lt' (by simp only [UInt64.size]; omega)
  have hmask : (vol.fs.blockSize.toUInt64 - 1).toNat = 2 ^ k - 1 := by
    have hone : (1 : UInt64) ≤ vol.fs.blockSize.toUInt64 := by
      rw [UInt64.le_iff_toNat_le, UInt32.toNat_toUInt64, hsize]
      exact Nat.two_pow_pos k
    rw [UInt64.toNat_sub_of_le _ _ hone, UInt32.toNat_toUInt64, hsize]
    rfl
  have hinner : (UInt64.ofNat (block * 2 ^ k + i * 4) &&&
      (vol.fs.blockSize.toUInt64 - 1)).toNat = i * 4 := by
    rw [UInt64.toNat_and, hoffset, hmask, Nat.and_two_pow_sub_one_eq_mod,
      Nat.mul_add_mod', Nat.mod_eq_of_lt (by omega)]
  have houter : (UInt64.ofNat (block * 2 ^ k + i * 4) &&&
      ~~~(vol.fs.blockSize.toUInt64 - 1)).toNat = block * 2 ^ k := by
    rw [toNat_and_not, hinner, hoffset, Nat.add_sub_cancel]
  rw [indirectPointer, pointer, readU32FromStorage, Volume.block, hsize]
  simp only [hinner, houter, readExact]
  by_cases hzero : block = 0
  · rw [if_pos hzero, if_pos (.inl hzero)]
  by_cases hshort : vol.storage.length < block * 2 ^ k + 2 ^ k
  · simp only [hzero, hshort, if_true, if_false, or_true]
  · have hfits :
      ¬(slice vol.storage (block * 2 ^ k) (block * 2 ^ k + 2 ^ k)).length < i * 4 + 4 := by
      rw [length_slice (Nat.le_of_not_lt hshort)]
      omega
    rw [if_neg hzero, if_neg hshort, if_neg (not_or.mpr ⟨hzero, hshort⟩)]
    exact if_neg hfits

theorem foldlM_indirectPointer (hsize : Supported vol.fs.blockSize) {path : List ℕ}
    (hpath : ∀ i ∈ path, i < vol.fs.blockSize.toNat / 4) (hblock : block < 2 ^ 32) :
    path.foldlM vol.indirectPointer block = path.foldlM vol.pointer block := by
  induction path generalizing block with
  | nil => rfl
  | cons i path ih =>
    obtain ⟨hi, hpath⟩ := forall_mem_cons.mp hpath
    rw [foldlM_cons, foldlM_cons, indirectPointer_eq hsize hblock hi]
    cases hnext : vol.pointer block i with
    | none => rfl
    | some next =>
      refine ih hpath ?_
      rw [pointer] at hnext
      split_ifs at hnext
      exact some.inj hnext ▸ ofLe_slice_lt _ _

theorem indirectBlocks_lt (inode : Ext4Inode) (i : ℕ) : inode.indirectBlocks i < 2 ^ 32 := by
  rw [Ext4Inode.indirectBlocks]
  split_ifs
  · decide
  · exact ofLe_slice_lt _ _

theorem mapBlockIndirect_eq (hsize : Supported vol.fs.blockSize) (inode : Ext4Inode) (l : ℕ) :
    vol.mapBlockIndirect inode l =
      if l < 12 then (vol.lastPointer inode l).filter (· ≠ 0) else vol.lastPointer inode l := by
  have hway : ∀ slot (path : List ℕ), (∀ i ∈ path, i < vol.fs.blockSize.toNat / 4) →
      path.foldlM vol.pointer (inode.indirectBlocks slot) =
        path.foldlM vol.indirectPointer (inode.indirectBlocks slot) := fun slot path hpath =>
    (foldlM_indirectPointer hsize hpath (indirectBlocks_lt inode slot)).symm
  obtain ⟨k, hk, hk', hsize⟩ := hsize
  have hpow := hsize ▸ Nat.pow_le_pow_right (by decide) hk'
  have hpos := hsize ▸ Nat.pow_le_pow_right (by decide) hk
  rw [mapBlockIndirect, lastPointer, blockPath]
  obtain ⟨ptrs, hptrs⟩ : ∃ ptrs, vol.fs.blockSize.toNat / 4 = ptrs := ⟨_, rfl⟩
  rw [hptrs] at hway ⊢
  have hle : ptrs ≤ 2 ^ 10 := by omega
  have hpos : 0 < ptrs := by omega
  have hdouble : ptrs * ptrs % 2 ^ 32 = ptrs ^ 2 := by
    rw [← Nat.pow_two]
    exact Nat.mod_eq_of_lt (Nat.lt_of_le_of_lt (Nat.pow_le_pow_left hle 2) (by decide))
  have htriple : ptrs * ptrs * ptrs % 2 ^ 32 = ptrs ^ 3 := by
    rw [← Nat.pow_two, ← Nat.pow_succ]
    exact Nat.mod_eq_of_lt (Nat.lt_of_le_of_lt (Nat.pow_le_pow_left hle 3) (by decide))
  simp only [hdouble, htriple]
  have hlow : ∀ r, r % ptrs < ptrs := fun r => Nat.mod_lt r hpos
  split_ifs with hdirect hzero hsingle hsecond hthird
  · simp [hzero, filter_some]
  · simp [hzero, filter_some]
  · have hread := hway 12 [l - 12] (forall_mem_singleton.mpr hsingle)
    simpa using hread.symm
  · rw [Nat.pow_two] at hsecond
    have hread := hway 13 [(l - 12 - ptrs) / ptrs, (l - 12 - ptrs) % ptrs] (by
      simp [Nat.div_lt_of_lt_mul hsecond, hlow])
    simpa using hread.symm
  · generalize l - 12 - ptrs - ptrs ^ 2 = r at hthird ⊢
    have hhigh : r / ptrs ^ 2 < ptrs := Nat.div_lt_of_lt_mul (by rwa [← Nat.pow_succ])
    have hmiddle : r % ptrs ^ 2 / ptrs = r / ptrs % ptrs := by
      rw [Nat.pow_two, Nat.mod_mul_right_div_self]
    have hlast : r % ptrs ^ 2 % ptrs = r % ptrs := by
      rw [Nat.pow_two, Nat.mod_mul_right_mod]
    have hread := hway 14 [r / ptrs ^ 2, r / ptrs % ptrs, r % ptrs] (by simp [hhigh, hlow])
    rw [hmiddle, hlast]
    simpa using hread.symm
  · rfl

/-- The code takes the last pointer as it is, except in the inode. -/
theorem mapsExactly_iff (hsize : Supported vol.fs.blockSize) (inode : Ext4Inode) (l : ℕ) :
    vol.MapsExactly inode l ↔ l < 12 ∨ vol.lastPointer inode l ≠ some 0 := by
  rw [MapsExactly, mapBlockIndirect_eq hsize]
  split_ifs with hl
  · exact iff_of_true rfl (.inl hl)
  · rw [or_iff_right hl]
    cases vol.lastPointer inode l with
    | none => simp
    | some p => by_cases hp : p = 0 <;> simp [hp, filter_some]

def holeInode : Ext4Inode where
  iSizeLo := 13312
  iSizeHi := 0
  iFlags := 0
  iBlock := (Vector.replicate 60 0).set 48 5

theorem hole_mapped_to_block_zero :
    (twoGroups 0 0 8 8).mapBlockIndirect holeInode 12 = some 0 ∧
      ¬(twoGroups 0 0 8 8).MapsExactly holeInode 12 := by
  unfold MapsExactly
  decide +kernel

/-- The doubly indirect block is 5, which leads to block 6, and that one to block 7. -/
def farInode : Ext4Inode := { holeInode with iBlock := (Vector.replicate 60 0).set 52 5 }

def chained : Volume :=
  { twoGroups 0 0 8 8 with
    storage := Disk.patch (Disk.patch (twoGroups 0 0 8 8).storage 5120 [6]) 6144 [7] }

theorem mapsExactly_iff_chained :
    chained.MapsExactly farInode 268 ∧ chained.mapBlockIndirect farInode 268 = some 7 :=
  ⟨(mapsExactly_iff ⟨10, by decide, by decide, rfl⟩ farInode 268).mpr (.inr (by decide +kernel)),
    by decide +kernel⟩

end Volume

end EchOS.Fs.Ext4
