import EchOS.Fs.Ext4

/-! What the calls on the block bitmaps do: the scan of a bitmap, the bytes that a changed bitmap
and its descriptor are written to, and the bits and counters after an allocation or a release. -/

namespace EchOS.Fs.Ext4

open List Bool

open Bytes Ext4GroupDescriptor

theorem bitmapScan_cases (bitmap : List (BitVec 8)) (i n : ℕ) :
    (∃ j, i ≤ j ∧ j < i + n ∧ j < 8 * bitmap.length ∧ WordBits.bit bitmap j = false ∧
      (∀ k, i ≤ k → k < j → WordBits.bit bitmap k = true) ∧
      bitmapScan bitmap i n = some (j, WordBits.set bitmap j)) ∨
    bitmapScan bitmap i n = none ∧
      ∀ k, i ≤ k → k < i + n → k < 8 * bitmap.length → WordBits.bit bitmap k = true := by
  fun_induction bitmapScan bitmap i n with
  | case1 | case2 => exact .inr ⟨rfl, fun k _ _ _ => by omega⟩
  | case3 i n hin hclear =>
    exact .inl ⟨i, le_refl i, by omega, by omega, (WordBits.and_mask_eq_zero (by decide)).mp hclear,
      fun k _ _ => by omega, rfl⟩
  | case4 i n hin hclear ih =>
    have hset := eq_true_of_not_eq_false (mt (WordBits.and_mask_eq_zero (by decide)).mpr hclear)
    rcases ih with ⟨j, hge, hlt, hlen, hj, hbefore, hscan⟩ | ⟨hscan, hnone⟩
    · refine .inl ⟨j, by omega, by omega, hlen, hj, fun k hk hkj => ?_, hscan⟩
      rcases Nat.eq_or_lt_of_le hk with rfl | hk
      · exact hset
      · exact hbefore k hk hkj
    · refine .inr ⟨hscan, fun k hk hlt hlen => ?_⟩
      rcases Nat.eq_or_lt_of_le hk with rfl | hk
      · exact hset
      · exact hnone k hk (by omega) hlen

section Counter

variable (gd : Ext4GroupDescriptor) (is64bit : Bool) (count : UInt32)

theorem toNat_halves (lo hi : UInt16) :
    (hi.toUInt32 <<< 16 ||| lo.toUInt32).toNat = hi.toNat * 65536 + lo.toNat := by
  have hlo := lo.toNat_lt
  have hhi := hi.toNat_lt
  have hshift : (hi.toUInt32 <<< 16).toNat = hi.toNat <<< 16 := by
    have hsmall : hi.toNat <<< 16 < 2 ^ 32 := by
      omega
    exact Nat.mod_eq_of_lt hsmall
  rw [UInt32.toNat_or, hshift, UInt16.toNat_toUInt32, ← Nat.shiftLeft_add_eq_or_of_lt hlo,
    Nat.shiftLeft_eq]

/-- The counter that was stored is read back; without the high half only its low 16 bits are. -/
theorem toNat_withFreeBlocks :
    ((gd.withFreeBlocks is64bit count).freeBlocksCount is64bit).toNat
      = if is64bit then count.toNat else count.toNat % 65536 := by
  have hcount := count.toNat_lt
  have hlo : (count &&& 0xFFFF).toUInt16.toNat = count.toNat % 65536 := by
    rw [UInt32.toNat_toUInt16, UInt32.toNat_and]
    have hmask := Nat.and_two_pow_sub_one_eq_mod count.toNat 16
    have hlit : (0xFFFF : UInt32).toNat = 2 ^ 16 - 1 := rfl
    rw [hlit, hmask, Nat.mod_mod]
  have hhi : (count >>> 16).toUInt16.toNat = count.toNat / 65536 := by
    rw [UInt32.toNat_toUInt16, UInt32.toNat_shiftRight]
    have hlit : (16 : UInt32).toNat % 32 = 16 := rfl
    rw [hlit]
    omega
  cases is64bit with
  | true =>
    have hread := toNat_halves (count &&& 0xFFFF).toUInt16 (count >>> 16).toUInt16
    refine hread.trans ?_
    simp only [if_true]
    omega
  | false =>
    exact hlo

@[simp] theorem blockBitmap_withFreeBlocks (wide : Bool) :
    (gd.withFreeBlocks is64bit count).blockBitmap wide = gd.blockBitmap wide := by
  cases is64bit <;> rfl

@[simp] theorem isBlockUninit_withFreeBlocks :
    (gd.withFreeBlocks is64bit count).isBlockUninit = gd.isBlockUninit := by
  cases is64bit <;> rfl

end Counter

@[simp] theorem length_descriptorBytes (fs : Ext4FileSystem) (gd : Ext4GroupDescriptor) :
    (fs.descriptorBytes gd).length = if 64 ≤ fs.gdSize then 64 else 32 := by
  unfold Ext4FileSystem.descriptorBytes
  split_ifs
  · simp [serialize64, serialize32]
  · simp [serialize32]

namespace Volume

def bitmapAt (vol : Volume) (g : ℕ) : ℕ :=
  ((vol.fs.groupDescriptors[g]?).map vol.bitmapOffset).getD 0

def bitmapOf (vol : Volume) (g : ℕ) : List (BitVec 8) :=
  slice vol.storage (vol.bitmapAt g) (vol.bitmapAt g + vol.fs.blockSize.toNat)

def bit (vol : Volume) (g i : ℕ) : Bool := WordBits.bit (vol.bitmapOf g) i

def counter (vol : Volume) (g : ℕ) : ℕ :=
  ((vol.fs.groupDescriptors[g]?).map fun gd => (gd.freeBlocksCount vol.fs.is64bit).toNat).getD 0

def entrySize (vol : Volume) : ℕ := if 64 ≤ vol.fs.gdSize then 64 else 32

def perGroup (vol : Volume) : ℕ := vol.fs.superblock.sBlocksPerGroup.toNat

/-- A volume mounted for writing, with a descriptor for each of its groups, all of them
initialised. The bitmaps have their blocks to themselves, and one is long enough for a group. -/
structure Layout (vol : Volume) : Prop where
  writable : vol.fs.readOnly = false
  perGroup_pos : 0 < vol.perGroup
  perGroup_le : vol.perGroup ≤ 8 * vol.fs.blockSize.toNat
  described : vol.fs.groups ≤ vol.fs.groupDescriptors.length
  initialised : ∀ gd ∈ vol.fs.groupDescriptors, gd.isBlockUninit = false
  table_inside : ∀ g, g < vol.fs.groups →
    vol.fs.descriptorOffset g + vol.entrySize ≤ vol.storage.length
  bitmap_inside : ∀ g, g < vol.fs.groups →
    vol.bitmapAt g + vol.fs.blockSize.toNat ≤ vol.storage.length
  apart : ∀ g h, g < vol.fs.groups → h < vol.fs.groups → g ≠ h →
    vol.bitmapAt g + vol.fs.blockSize.toNat ≤ vol.bitmapAt h ∨
      vol.bitmapAt h + vol.fs.blockSize.toNat ≤ vol.bitmapAt g
  off_table : ∀ g h, g < vol.fs.groups → h < vol.fs.groups →
    vol.bitmapAt g + vol.fs.blockSize.toNat ≤ vol.fs.descriptorOffset h ∨
      vol.fs.descriptorOffset h + vol.entrySize ≤ vol.bitmapAt g

instance (vol : Volume) : Decidable vol.Layout :=
  decidable_of_iff
    (vol.fs.readOnly = false ∧ 0 < vol.perGroup ∧ vol.perGroup ≤ 8 * vol.fs.blockSize.toNat ∧
      vol.fs.groups ≤ vol.fs.groupDescriptors.length ∧
      (∀ gd ∈ vol.fs.groupDescriptors, gd.isBlockUninit = false) ∧
      ∀ g, g < vol.fs.groups →
        vol.fs.descriptorOffset g + vol.entrySize ≤ vol.storage.length ∧
        vol.bitmapAt g + vol.fs.blockSize.toNat ≤ vol.storage.length ∧
        ∀ h, h < vol.fs.groups →
          (g ≠ h → vol.bitmapAt g + vol.fs.blockSize.toNat ≤ vol.bitmapAt h ∨
            vol.bitmapAt h + vol.fs.blockSize.toNat ≤ vol.bitmapAt g) ∧
          (vol.bitmapAt g + vol.fs.blockSize.toNat ≤ vol.fs.descriptorOffset h ∨
            vol.fs.descriptorOffset h + vol.entrySize ≤ vol.bitmapAt g))
    ⟨fun ⟨hw, hpos, hle, hdescribed, hinit, hgroups⟩ =>
      ⟨hw, hpos, hle, hdescribed, hinit, fun g hg => (hgroups g hg).1,
        fun g hg => (hgroups g hg).2.1, fun g h hg hh => ((hgroups g hg).2.2 h hh).1,
        fun g h hg hh => ((hgroups g hg).2.2 h hh).2⟩,
    fun hl => ⟨hl.writable, hl.perGroup_pos, hl.perGroup_le, hl.described, hl.initialised,
      fun g hg => ⟨hl.table_inside g hg, hl.bitmap_inside g hg,
        fun h hh => ⟨hl.apart g h hg hh, hl.off_table g h hg hh⟩⟩⟩⟩

structure SameShape (vol vol' : Volume) : Prop where
  frame : ∃ gds, vol'.fs = { vol.fs with groupDescriptors := gds }
  placed : ∀ h, vol'.bitmapAt h = vol.bitmapAt h
  length_eq : vol'.storage.length = vol.storage.length

section Shape

variable {vol vol' : Volume} (h : vol.SameShape vol')
include h

theorem SameShape.blockSize_eq : vol'.fs.blockSize = vol.fs.blockSize := by
  obtain ⟨gds, hfs⟩ := h.frame
  rw [hfs]

theorem SameShape.groups_eq : vol'.fs.groups = vol.fs.groups := by
  obtain ⟨gds, hfs⟩ := h.frame
  rw [hfs]
  rfl

theorem SameShape.perGroup_eq : vol'.perGroup = vol.perGroup := by
  obtain ⟨gds, hfs⟩ := h.frame
  rw [perGroup, hfs]
  rfl

theorem SameShape.table_eq :
    (∀ g, vol'.fs.descriptorOffset g = vol.fs.descriptorOffset g) ∧
      vol'.entrySize = vol.entrySize := by
  obtain ⟨gds, hfs⟩ := h.frame
  constructor
  · intro g
    rw [hfs]
    rfl
  · rw [entrySize, hfs]
    rfl

theorem SameShape.trans {vol'' : Volume} (h' : vol'.SameShape vol'') : vol.SameShape vol'' where
  frame := by
    obtain ⟨gds, hfs⟩ := h.frame
    obtain ⟨gds', hfs'⟩ := h'.frame
    exact ⟨gds', by rw [hfs', hfs]⟩
  placed := fun g => (h'.placed g).trans (h.placed g)
  length_eq := h'.length_eq.trans h.length_eq

theorem SameShape.symm : vol'.SameShape vol where
  frame := by
    obtain ⟨gds, hfs⟩ := h.frame
    exact ⟨vol.fs.groupDescriptors, by rw [hfs]⟩
  placed := fun g => (h.placed g).symm
  length_eq := h.length_eq.symm

theorem SameShape.layout (hl : vol.Layout)
    (hdescribed : vol'.fs.groupDescriptors.length = vol.fs.groupDescriptors.length)
    (hinit : ∀ gd ∈ vol'.fs.groupDescriptors, gd.isBlockUninit = false) : vol'.Layout := by
  have hgroups := h.groups_eq
  have hsize := h.blockSize_eq
  obtain ⟨hoffset, hentry⟩ := h.table_eq
  refine ⟨?_, by rw [h.perGroup_eq]; exact hl.perGroup_pos,
    by rw [h.perGroup_eq, hsize]; exact hl.perGroup_le,
    by rw [hgroups, hdescribed]; exact hl.described, hinit, ?_, ?_, ?_, ?_⟩
  · obtain ⟨gds, hfs⟩ := h.frame
    rw [hfs]
    exact hl.writable
  · intro g hg
    rw [hoffset, hentry, h.length_eq]
    exact hl.table_inside g (hgroups ▸ hg)
  · intro g hg
    rw [h.placed, hsize, h.length_eq]
    exact hl.bitmap_inside g (hgroups ▸ hg)
  · intro g k hg hk hne
    rw [h.placed, h.placed, hsize]
    exact hl.apart g k (hgroups ▸ hg) (hgroups ▸ hk) hne
  · intro g k hg hk
    rw [h.placed, hsize, hoffset, hentry]
    exact hl.off_table g k (hgroups ▸ hg) (hgroups ▸ hk)

end Shape

/-- `vol'` is `vol` after the bitmap of one group and its descriptor's counter were written. -/
structure Stored (vol vol' : Volume) (g : ℕ) (gd : Ext4GroupDescriptor) (count : UInt32)
    (bitmap : List (BitVec 8)) : Prop where
  fs_eq : vol'.fs = { vol.fs with
    groupDescriptors := vol.fs.groupDescriptors.set g (gd.withFreeBlocks vol.fs.is64bit count) }
  length_eq : vol'.storage.length = vol.storage.length
  outside : ∀ a b, (b ≤ vol.bitmapAt g ∨ vol.bitmapAt g + vol.fs.blockSize.toNat ≤ a) →
    (b ≤ vol.fs.descriptorOffset g ∨ vol.fs.descriptorOffset g + vol.entrySize ≤ a) →
    slice vol'.storage a b = slice vol.storage a b
  here : slice vol'.storage (vol.bitmapAt g) (vol.bitmapAt g + vol.fs.blockSize.toNat) = bitmap

section Descriptors

variable {vol : Volume} {g : ℕ} {gd : Ext4GroupDescriptor}

theorem bitmapAt_eq (hgd : vol.fs.groupDescriptors[g]? = some gd) :
    vol.bitmapAt g = vol.bitmapOffset gd := by
  rw [bitmapAt, hgd]
  rfl

theorem counter_eq (hgd : vol.fs.groupDescriptors[g]? = some gd) :
    vol.counter g = (gd.freeBlocksCount vol.fs.is64bit).toNat := by
  rw [counter, hgd]
  rfl

section

variable (hl : vol.Layout) (hg : g < vol.fs.groups)
include hl hg

theorem Layout.exists_descriptor :
    ∃ gd, vol.fs.groupDescriptors[g]? = some gd ∧ gd.isBlockUninit = false := by
  have hlt := Nat.lt_of_lt_of_le hg hl.described
  refine ⟨_, List.getElem?_eq_getElem hlt, hl.initialised _ (getElem_mem hlt)⟩

theorem Layout.length_bitmapOf : (vol.bitmapOf g).length = vol.fs.blockSize.toNat := by
  rw [bitmapOf, length_slice (hl.bitmap_inside g hg)]
  omega

theorem Layout.readBlockBitmap_eq : vol.readBlockBitmap g = .ok (vol.bitmapOf g) := by
  obtain ⟨gd, hgd, -⟩ := hl.exists_descriptor hg
  have hinside := hl.bitmap_inside g hg
  rw [bitmapAt_eq hgd] at hinside
  rw [readBlockBitmap, hgd, bitmapOf, bitmapAt_eq hgd]
  exact if_neg (by omega)

end

end Descriptors

section Storing

variable {vol vol' : Volume} {g h : ℕ} {gd : Ext4GroupDescriptor} {count : UInt32}
  {bitmap : List (BitVec 8)}

variable (count bitmap) in
theorem Layout.storeBitmap_eq (hl : vol.Layout) (hg : g < vol.fs.groups)
    (hgd : vol.fs.groupDescriptors[g]? = some gd) (hlen : bitmap.length = vol.fs.blockSize.toNat) :
    ∃ vol', vol.storeBitmap g gd (gd.withFreeBlocks vol.fs.is64bit count) bitmap = (.ok (), vol') ∧
      vol.Stored vol' g gd count bitmap := by
  have hat := bitmapAt_eq hgd
  have hbitmap := hl.bitmap_inside g hg
  have htable := hl.table_inside g hg
  have hoff := hl.off_table g g hg hg
  have hlt := Nat.lt_of_lt_of_le hg hl.described
  -- first the bitmap's block
  have hfirst : writeExact vol.storage (vol.bitmapOffset gd) bitmap
      = .ok (Disk.patch vol.storage (vol.bitmapAt g) bitmap) := by
    rw [← hat]
    exact if_neg (by omega)
  have hlength : (Disk.patch vol.storage (vol.bitmapAt g) bitmap).length = vol.storage.length :=
    Disk.length_patch rfl (by omega)
  -- then the descriptor, which has the new counter by now
  have hbytes : (vol.fs.descriptorBytes (gd.withFreeBlocks vol.fs.is64bit count)).length
      = vol.entrySize := length_descriptorBytes _ _
  have hsecond : writeGroupDescriptor (setDescriptor
      { vol with storage := Disk.patch vol.storage (vol.bitmapAt g) bitmap } g
      (gd.withFreeBlocks vol.fs.is64bit count)) g
      = .ok (Disk.patch (Disk.patch vol.storage (vol.bitmapAt g) bitmap)
        (vol.fs.descriptorOffset g)
        (vol.fs.descriptorBytes (gd.withFreeBlocks vol.fs.is64bit count))) := by
    simp only [writeGroupDescriptor, setDescriptor, List.getElem?_set_self hlt]
    refine if_neg ?_
    change ¬ (Disk.patch vol.storage (vol.bitmapAt g) bitmap).length
      < vol.fs.descriptorOffset g
        + (vol.fs.descriptorBytes (gd.withFreeBlocks vol.fs.is64bit count)).length
    omega
  have hroom : vol.fs.descriptorOffset g
      + (vol.fs.descriptorBytes (gd.withFreeBlocks vol.fs.is64bit count)).length
      ≤ (Disk.patch vol.storage (vol.bitmapAt g) bitmap).length := by
    rw [hlength, hbytes]
    exact htable
  refine ⟨{ vol.setDescriptor g (gd.withFreeBlocks vol.fs.is64bit count) with
    storage := Disk.patch (Disk.patch vol.storage (vol.bitmapAt g) bitmap)
      (vol.fs.descriptorOffset g)
      (vol.fs.descriptorBytes (gd.withFreeBlocks vol.fs.is64bit count)) }, ?_, ?_⟩
  · rw [storeBitmap, hfirst]
    simp only [hsecond]
    rfl
  · refine ⟨rfl, ?_, ?_, ?_⟩
    · rw [← hlength]
      exact Disk.length_patch rfl hroom
    · intro a b hab hab'
      refine (slice_patch_of_disjoint hroom (by rw [hbytes]; exact hab')).trans ?_
      exact slice_patch_of_disjoint (by omega) (by rw [hlen]; exact hab)
    · refine (slice_patch_of_disjoint hroom ?_).trans ?_
      · rw [hbytes]
        exact hoff
      · exact slice_patch_self (by omega) (by omega)

namespace Stored

variable (hs : vol.Stored vol' g gd count bitmap) (hgd : vol.fs.groupDescriptors[g]? = some gd)

include hs

include hgd

theorem bitmapAt_eq (h : ℕ) : vol'.bitmapAt h = vol.bitmapAt h := by
  unfold bitmapAt bitmapOffset
  rw [hs.fs_eq]
  by_cases hgh : g = h
  · subst hgh
    have hlt : g < vol.fs.groupDescriptors.length := (List.getElem?_eq_some_iff.mp hgd).1
    simp only [List.getElem?_set_self hlt, hgd, Option.map_some, blockBitmap_withFreeBlocks]
    rfl
  · simp only [List.getElem?_set_ne hgh]
    rfl

theorem bitmapOf_self : vol'.bitmapOf g = bitmap := by
  rw [bitmapOf, hs.bitmapAt_eq hgd, hs.fs_eq]
  exact hs.here

theorem bitmapOf_other (hl : vol.Layout) (hg : g < vol.fs.groups) (hh : h < vol.fs.groups)
    (hne : h ≠ g) : vol'.bitmapOf h = vol.bitmapOf h := by
  rw [bitmapOf, hs.bitmapAt_eq hgd, hs.fs_eq]
  exact hs.outside _ _ (hl.apart h g hh hg hne) (hl.off_table h g hh hg)

theorem counter_self :
    vol'.counter g = if vol.fs.is64bit then count.toNat else count.toNat % 65536 := by
  have hlt : g < vol.fs.groupDescriptors.length := (List.getElem?_eq_some_iff.mp hgd).1
  unfold counter
  rw [hs.fs_eq]
  simp only [List.getElem?_set_self hlt, Option.map_some, Option.getD_some]
  exact toNat_withFreeBlocks gd vol.fs.is64bit count

theorem sameShape : vol.SameShape vol' :=
  ⟨⟨_, hs.fs_eq⟩, hs.bitmapAt_eq hgd, hs.length_eq⟩

theorem layout (hl : vol.Layout) : vol'.Layout := by
  refine (hs.sameShape hgd).layout hl (by rw [hs.fs_eq, length_set]) ?_
  intro gd' hmem
  rw [hs.fs_eq] at hmem
  rcases mem_or_eq_of_mem_set hmem with hold | rfl
  · exact hl.initialised gd' hold
  · rw [isBlockUninit_withFreeBlocks]
    exact hl.initialised gd (List.mem_of_getElem? hgd)

end Stored

end Storing

/-- `vol'` is `vol` with one bit of one group's bitmap and that group's counter given values. -/
structure Changed (vol vol' : Volume) (g i : ℕ) (b : Bool) (c : ℕ) : Prop
    extends SameShape vol vol' where
  layout : vol'.Layout
  bits : ∀ h, h < vol.fs.groups → ∀ j,
    vol'.bit h j = if h = g ∧ j = i then b else vol.bit h j
  counters : ∀ h, vol'.counter h = if h = g then c else vol.counter h
  outside : ∀ a b, (b ≤ vol.bitmapAt g ∨ vol.bitmapAt g + vol.fs.blockSize.toNat ≤ a) →
    (b ≤ vol.fs.descriptorOffset g ∨ vol.fs.descriptorOffset g + vol.entrySize ≤ a) →
    slice vol'.storage a b = slice vol.storage a b

section Changing

variable {vol vol' : Volume} {g i : ℕ} {gd : Ext4GroupDescriptor} {count : UInt32}
  {bitmap : List (BitVec 8)} {b : Bool}

theorem Stored.changed (hs : vol.Stored vol' g gd count bitmap) (hl : vol.Layout)
    (hg : g < vol.fs.groups) (hgd : vol.fs.groupDescriptors[g]? = some gd)
    (hbits : ∀ j, WordBits.bit bitmap j = if j = i then b else vol.bit g j) :
    vol.Changed vol' g i b
      (if vol.fs.is64bit then count.toNat else count.toNat % 65536) where
  toSameShape := hs.sameShape hgd
  layout := hs.layout hgd hl
  bits := by
    intro h hh j
    by_cases hne : h = g
    · subst hne
      rw [bit, hs.bitmapOf_self hgd, hbits]
      simp
    · rw [bit, hs.bitmapOf_other hgd hl hg hh hne, if_neg (fun hboth => hne hboth.1)]
      rfl
  counters := by
    intro h
    by_cases hne : h = g
    · subst hne
      rw [hs.counter_self hgd, if_pos rfl]
    · unfold counter
      rw [if_neg hne, hs.fs_eq]
      simp only [List.getElem?_set_ne (Ne.symm hne)]
  outside := hs.outside

theorem counter_lt (vol : Volume) (g : ℕ) :
    vol.counter g < if vol.fs.is64bit then 2 ^ 32 else 65536 := by
  unfold counter
  cases hgd : vol.fs.groupDescriptors[g]? with
  | none => cases vol.fs.is64bit <;> decide
  | some gd =>
    cases hwide : vol.fs.is64bit with
    | true => exact (gd.freeBlocksCount true).toNat_lt
    | false =>
      have hlo := gd.bgFreeBlocksCountLo.toNat_lt
      simpa [freeBlocksCount] using hlo

end Changing

section Allocating

variable {vol : Volume} {g i : ℕ}

def Scanned (vol : Volume) (g i : ℕ) : Prop :=
  (vol.fs.scanStart g).toNat ≤ i ∧ i < (vol.fs.scanEnd g).toNat ∧
    i < 8 * vol.fs.blockSize.toNat ∧ vol.bit g i = false

/-- The allocation stops at a group that it believes to have a free block and finds one in. -/
def Hit (vol : Volume) (g : ℕ) : Prop := vol.counter g ≠ 0 ∧ ∃ i, vol.Scanned g i

theorem Layout.bitmapAlloc_cases (hl : vol.Layout) (hg : g < vol.fs.groups) :
    (∃ i, vol.Scanned g i ∧
      (∀ k, (vol.fs.scanStart g).toNat ≤ k → k < i → vol.bit g k = true) ∧
      bitmapAlloc (vol.bitmapOf g) (vol.fs.scanStart g) (vol.fs.scanEnd g)
        = some (i, WordBits.set (vol.bitmapOf g) i)) ∨
    bitmapAlloc (vol.bitmapOf g) (vol.fs.scanStart g) (vol.fs.scanEnd g) = none ∧
      ¬ ∃ i, vol.Scanned g i := by
  have hlen := hl.length_bitmapOf hg
  rcases bitmapScan_cases (vol.bitmapOf g) _ _ with
    ⟨i, hge, hlt, hroom, hclear, hbefore, hscan⟩ | ⟨hscan, hnone⟩
  · exact .inl ⟨i, ⟨hge, by omega, by omega, hclear⟩, hbefore, hscan⟩
  · refine .inr ⟨hscan, ?_⟩
    rintro ⟨i, hge, hlt, hroom, hclear⟩
    rw [bit, hnone i hge (by omega) (by omega)] at hclear
    exact absurd hclear (by decide)

/-- The outcome of an allocation that stops at a group: the first clear bit of the scan is taken,
and the counter goes down by one. -/
def Takes (vol : Volume) (g : ℕ) (outcome : Except Ext4Fault UInt64 × Volume) : Prop :=
  vol.counter g ≠ 0 ∧
    ∃ i, vol.Scanned g i ∧ (∀ k, (vol.fs.scanStart g).toNat ≤ k → k < i → vol.bit g k = true) ∧
      outcome.1 = .ok (UInt64.ofNat i) ∧ vol.Changed outcome.2 g i true (vol.counter g - 1)

theorem Layout.allocGroup_of_not_hit (hl : vol.Layout) (hg : g < vol.fs.groups)
    (hno : ¬ vol.Hit g) :
    vol.allocGroup g = (none, vol) := by
  obtain ⟨gd, hgd, hinit⟩ := hl.exists_descriptor hg
  have hcounter := counter_eq hgd
  rw [allocGroup, hgd]
  simp only [hinit, false_eq_true, if_false]
  by_cases hzero : gd.freeBlocksCount vol.fs.is64bit = 0
  · rw [if_pos hzero]
  · have hne : vol.counter g ≠ 0 := by
      rw [hcounter]
      exact fun h => hzero (UInt32.toNat_inj.mp h)
    obtain ⟨i, hi, -⟩ | ⟨hnone, -⟩ := hl.bitmapAlloc_cases hg
    · exact absurd ⟨hne, i, hi⟩ hno
    rw [if_neg hzero, allocScan, hl.readBlockBitmap_eq hg]
    simp only [hnone]

theorem Layout.allocGroup_of_hit (hl : vol.Layout) (hg : g < vol.fs.groups) (hhit : vol.Hit g) :
    ∃ outcome, vol.allocGroup g = (some outcome.1, outcome.2) ∧ vol.Takes g outcome := by
  obtain ⟨hne, hscan⟩ := hhit
  obtain ⟨gd, hgd, hinit⟩ := hl.exists_descriptor hg
  obtain ⟨i, hi, hfirst, halloc⟩ | ⟨-, hnone⟩ := hl.bitmapAlloc_cases hg
  swap
  · exact absurd hscan hnone
  have hcounter := counter_eq hgd
  have hzero : ¬ gd.freeBlocksCount vol.fs.is64bit = 0 := by
    intro h
    rw [hcounter, h] at hne
    exact hne rfl
  have hlen := hl.length_bitmapOf hg
  obtain ⟨vol', hstore, hs⟩ := hl.storeBitmap_eq (gd.freeBlocksCount vol.fs.is64bit - 1)
    (WordBits.set (vol.bitmapOf g) i) hg hgd (by rw [WordBits.length_set, hlen])
  refine ⟨(.ok (UInt64.ofNat i), vol'), ?_, hne, i, hi, hfirst, rfl, ?_⟩
  · rw [allocGroup, hgd]
    simp only [hinit, false_eq_true, if_false]
    rw [if_neg hzero, allocScan, hl.readBlockBitmap_eq hg]
    simp only [halloc, hstore]
    rfl
  · have hbits : ∀ j, WordBits.bit (WordBits.set (vol.bitmapOf g) i) j
        = if j = i then true else vol.bit g j := by
      intro j
      rw [WordBits.bit_set (by rw [hlen]; exact hi.2.2.1)]
      by_cases hj : j = i
      · simp [hj]
      · simp [hj, bit]
    have hchanged := hs.changed hl hg hgd hbits
    have hone : (gd.freeBlocksCount vol.fs.is64bit - 1).toNat = vol.counter g - 1 := by
      have hle : (1 : UInt32) ≤ gd.freeBlocksCount vol.fs.is64bit := by
        rw [UInt32.le_iff_toNat_le, ← hcounter]
        exact Nat.one_le_iff_ne_zero.mpr hne
      rw [UInt32.toNat_sub_of_le _ _ hle, hcounter]
      rfl
    have hlt := counter_lt vol g
    have hkept : (if vol.fs.is64bit then (gd.freeBlocksCount vol.fs.is64bit - 1).toNat
        else (gd.freeBlocksCount vol.fs.is64bit - 1).toNat % 65536) = vol.counter g - 1 := by
      rw [hone]
      split_ifs with hwide
      · rfl
      · rw [if_neg hwide] at hlt
        exact Nat.mod_eq_of_lt (by omega)
    rwa [hkept] at hchanged

theorem Layout.allocFrom_cases (hl : vol.Layout) {gs : List ℕ} (hsub : ∀ g ∈ gs, g < vol.fs.groups)
    (hsorted : gs.Pairwise (· < ·)) :
    (∃ g ∈ gs, (∀ h ∈ gs, h < g → ¬ vol.Hit h) ∧ vol.Takes g (vol.allocFrom gs)) ∨
      (∀ g ∈ gs, ¬ vol.Hit g) ∧ vol.allocFrom gs = (.error (.error .outOfMemory), vol) := by
  induction gs with
  | nil => exact .inr ⟨fun _ hmem => (nomatch hmem), rfl⟩
  | cons g gs ih =>
    have hg := hsub g mem_cons_self
    obtain ⟨hleast, hrest⟩ := pairwise_cons.mp hsorted
    by_cases hhit : vol.Hit g
    · obtain ⟨outcome, hgroup, htakes⟩ := hl.allocGroup_of_hit hg hhit
      have hfrom : vol.allocFrom (g :: gs) = outcome := by rw [allocFrom, hgroup]
      refine .inl ⟨g, mem_cons_self, ?_, hfrom ▸ htakes⟩
      intro h hmem hlt
      rcases mem_cons.mp hmem with rfl | hmem
      · omega
      · have hgt := hleast h hmem
        omega
    · have hfrom : vol.allocFrom (g :: gs) = vol.allocFrom gs := by
        rw [allocFrom, hl.allocGroup_of_not_hit hg hhit]
      rw [hfrom]
      rcases ih (fun h hmem => hsub h (mem_cons_of_mem g hmem)) hrest with
        ⟨g', hmem, hbefore, htakes⟩ | ⟨hnone, hfail⟩
      · refine .inl ⟨g', mem_cons_of_mem g hmem, ?_, htakes⟩
        intro h hin hlt
        rcases mem_cons.mp hin with rfl | hin
        · exact hhit
        · exact hbefore h hin hlt
      · refine .inr ⟨fun h hin => ?_, hfail⟩
        rcases mem_cons.mp hin with rfl | hin
        · exact hhit
        · exact hnone h hin

theorem Layout.allocBlock_cases (hl : vol.Layout) :
    (∃ g, g < vol.fs.groups ∧ (∀ h, h < g → ¬ vol.Hit h) ∧ vol.Takes g vol.allocBlock) ∨
      (∀ g, g < vol.fs.groups → ¬ vol.Hit g) ∧
        vol.allocBlock = (.error (.error .outOfMemory), vol) := by
  have hper : ¬ vol.fs.superblock.sBlocksPerGroup = 0 := by
    intro h
    have hpos := hl.perGroup_pos
    rw [perGroup, h] at hpos
    exact Nat.lt_irrefl 0 hpos
  have hcall : vol.allocBlock = vol.allocFrom (List.range vol.fs.groups) := by
    rw [allocBlock, hl.writable, if_neg (by decide), if_neg hper]
  rw [hcall]
  rcases hl.allocFrom_cases (fun g hg => mem_range.mp hg) pairwise_lt_range with
    ⟨g, hg, hbefore, htakes⟩ | ⟨hnone, hfail⟩
  · have hlt := mem_range.mp hg
    exact .inl ⟨g, hlt, fun h hh => hbefore h (mem_range.mpr (by omega)) hh, htakes⟩
  · exact .inr ⟨fun g hg => hnone g (mem_range.mpr hg), hfail⟩

end Allocating

section Freeing

variable {vol : Volume} {block : UInt64}

def groupOf (vol : Volume) (block : ℕ) : ℕ := block / vol.perGroup

def indexOf (vol : Volume) (block : ℕ) : ℕ := block % vol.perGroup

theorem Layout.freeBlock_spec (hl : vol.Layout) (hg : vol.groupOf block.toNat < vol.fs.groups) :
    (vol.freeBlock block).1 = .ok () ∧
      vol.Changed (vol.freeBlock block).2 (vol.groupOf block.toNat) (vol.indexOf block.toNat) false
        (if vol.fs.is64bit then (vol.counter (vol.groupOf block.toNat) + 1) % 2 ^ 32
          else (vol.counter (vol.groupOf block.toNat) + 1) % 65536) := by
  have hpos := hl.perGroup_pos
  have hper : vol.fs.superblock.sBlocksPerGroup.toUInt64.toNat = vol.perGroup :=
    UInt32.toNat_toUInt64 _
  have hne : ¬ vol.fs.superblock.sBlocksPerGroup.toUInt64 = 0 := by
    intro h
    rw [h] at hper
    exact absurd hper.symm (Nat.ne_of_gt hpos)
  -- the group and the index fit the 32 bits they are kept in
  have hgroup : (block / vol.fs.superblock.sBlocksPerGroup.toUInt64).toUInt32.toNat
      = vol.groupOf block.toNat := by
    have hsmall : vol.fs.groups < 2 ^ 32 := UInt32.toNat_lt _
    exact Nat.mod_eq_of_lt (Nat.lt_trans hg hsmall)
  have hindex : (block % vol.fs.superblock.sBlocksPerGroup.toUInt64).toUInt32.toNat
      = vol.indexOf block.toNat := by
    have hsmall : vol.perGroup < 2 ^ 32 := UInt32.toNat_lt _
    exact Nat.mod_eq_of_lt (Nat.lt_trans (Nat.mod_lt _ hpos) hsmall)
  have hin : vol.indexOf block.toNat < 8 * vol.fs.blockSize.toNat :=
    Nat.lt_of_lt_of_le (Nat.mod_lt _ hpos) hl.perGroup_le
  generalize vol.groupOf block.toNat = g at *
  generalize vol.indexOf block.toNat = i at *
  obtain ⟨gd, hgd, -⟩ := hl.exists_descriptor hg
  have hlen := hl.length_bitmapOf hg
  have hfree : bitmapFree (vol.bitmapOf g) i = WordBits.clear (vol.bitmapOf g) i :=
    if_pos (by omega)
  obtain ⟨vol', hstore, hs⟩ := hl.storeBitmap_eq (gd.freeBlocksCount vol.fs.is64bit + 1)
    (WordBits.clear (vol.bitmapOf g) i) hg hgd (by rw [WordBits.length_clear, hlen])
  have hcall : vol.freeBlock block = (.ok (), vol') := by
    rw [freeBlock, hl.writable]
    simp only [false_eq_true, if_false, hne, hgroup, hindex, hl.readBlockBitmap_eq hg, hgd,
      hfree, hstore]
  have hbits : ∀ j, WordBits.bit (WordBits.clear (vol.bitmapOf g) i) j
      = if j = i then false else vol.bit g j := by
    intro j
    rw [WordBits.bit_clear (by rw [hlen]; exact hin)]
    by_cases hj : j = i
    · simp [hj]
    · simp [hj, bit]
  have hchanged := hs.changed hl hg hgd hbits
  have hcount : (gd.freeBlocksCount vol.fs.is64bit + 1).toNat = (vol.counter g + 1) % 2 ^ 32 := by
    rw [counter_eq hgd]
    rfl
  have hmod : (vol.counter g + 1) % 2 ^ 32 % 65536 = (vol.counter g + 1) % 65536 := by omega
  rw [hcount, hmod] at hchanged
  rw [hcall]
  exact ⟨rfl, hchanged⟩

end Freeing

end Volume

end EchOS.Fs.Ext4
