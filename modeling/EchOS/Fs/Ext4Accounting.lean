import EchOS.Fs.Ext4Alloc
import EchOS.Lib.Run

/-! The accounting of an ext4 volume's blocks over whole runs of allocations and releases: which
bit a call changes, and whether the free counters keep up with the bitmaps. -/

namespace EchOS.Fs.Ext4.Volume

open WordBits

def Agrees (vol : Volume) : Prop :=
  ∀ g, g < vol.fs.groups → vol.counter g = clearCount (vol.bitmapOf g) vol.perGroup

def Full (vol : Volume) : Prop :=
  ∀ g, g < vol.fs.groups → ∀ i, 2 ≤ i → i < vol.perGroup → vol.bit g i = true

def Sets (vol vol' : Volume) (block : UInt64) (b : Bool) : Prop :=
  ∀ h, h < vol.fs.groups → ∀ j, vol'.bit h j =
    if h = vol.groupOf block.toNat ∧ j = vol.indexOf block.toNat then b else vol.bit h j

inductive Op
  | alloc
  | free (block : UInt64)

def step (vol : Volume) : Op → Volume
  | .alloc => vol.allocBlock.2
  | .free block => (vol.freeBlock block).2

def Allowed (vol : Volume) : Op → Prop
  | .alloc => True
  | .free block => vol.groupOf block.toNat < vol.fs.groups ∧
      vol.bit (vol.groupOf block.toNat) (vol.indexOf block.toNat) = true

def AllocRight (vol vol' : Volume) : Except Ext4Fault UInt64 → Prop
  | .ok block => vol.groupOf block.toNat < vol.fs.groups ∧
      vol.bit (vol.groupOf block.toNat) (vol.indexOf block.toNat) = false ∧ vol.Sets vol' block true
  | .error _ => vol.Full

/-- A call changes the bit of its block and no other, an allocation fails only on a full volume,
and the counters still agree with the bitmaps. -/
def Right (vol : Volume) : Op → Prop
  | .alloc => vol.AllocRight vol.allocBlock.2 vol.allocBlock.1 ∧ vol.allocBlock.2.Agrees
  | .free block => (vol.freeBlock block).1 = .ok () ∧
      vol.Sets (vol.freeBlock block).2 block false ∧ (vol.freeBlock block).2.Agrees

/-- An allocation needs a free block in the first group, or a volume that is full and also looks
full where the scans of the later groups look; a release needs a counter that can go up. -/
def Served (vol : Volume) : Op → Prop
  | .alloc => (0 < vol.fs.groups ∧ ∃ i, 2 ≤ i ∧ i < vol.perGroup ∧ vol.bit 0 i = false) ∨
      (vol.Full ∧ ∀ g, 0 < g → g < vol.fs.groups → vol.counter g ≠ 0 → ∀ i, ¬ vol.Scanned g i)
  | .free block => vol.fs.is64bit ∨ vol.counter (vol.groupOf block.toNat) + 1 < 65536

section Frame

variable {vol vol' : Volume} {g i c : ℕ} {b : Bool}

theorem Changed.agrees_iff (hc : vol.Changed vol' g i b c) (ha : vol.Agrees)
    (hg : g < vol.fs.groups) : vol'.Agrees ↔ c = clearCount (vol'.bitmapOf g) vol.perGroup := by
  constructor
  · intro h
    have hcount := h g (by rw [hc.groups_eq]; exact hg)
    rwa [hc.counters, if_pos rfl, hc.perGroup_eq] at hcount
  · intro h k hk
    rw [hc.groups_eq] at hk
    rw [hc.counters, hc.perGroup_eq]
    split_ifs with hkg
    · rw [hkg, h]
    · rw [ha k hk]
      refine clearCount_congr fun j _ => ?_
      have hbit := hc.bits k hk j
      rw [if_neg (fun hboth => hkg hboth.1)] at hbit
      exact hbit.symm

theorem Changed.clearCount_marked (hc : vol.Changed vol' g i true c) (hg : g < vol.fs.groups)
    (hi : i < vol.perGroup) (hclear : vol.bit g i = false) :
    clearCount (vol'.bitmapOf g) vol.perGroup + 1
      = clearCount (vol.bitmapOf g) vol.perGroup := by
  refine clearCount_of_marked hi hclear fun j => ?_
  have hbit := hc.bits g hg j
  unfold bit at hbit
  rw [hbit]
  by_cases hj : j = i
  · simp [hj]
  · simp [hj]

theorem Changed.clearCount_cleared (hc : vol.Changed vol' g i false c) (hg : g < vol.fs.groups)
    (hi : i < vol.perGroup) (hset : vol.bit g i = true) :
    clearCount (vol'.bitmapOf g) vol.perGroup
      = clearCount (vol.bitmapOf g) vol.perGroup + 1 := by
  have hclear : vol'.bit g i = false := by
    rw [hc.bits g hg, if_pos ⟨rfl, rfl⟩]
  refine (clearCount_of_marked hi hclear fun j => ?_).symm
  have hbit := hc.bits g hg j
  unfold bit at hbit hset
  rw [hbit]
  by_cases hj : j = i
  · simp [hj, hset]
  · simp [hj]

end Frame

section Step

variable {vol : Volume} {i g : ℕ} {op : Op}

theorem scanStart_zero (fs : Ext4FileSystem) : (fs.scanStart 0).toNat = 2 := by
  have hfirst : UInt32.ofNat 0 * fs.superblock.sBlocksPerGroup = 0 := UInt32.zero_mul
  rw [Ext4FileSystem.scanStart, hfirst]
  rfl

theorem scanEnd_zero (vol : Volume) : (vol.fs.scanEnd 0).toNat = vol.perGroup := by
  have hfirst : UInt32.ofNat 0 * vol.fs.superblock.sBlocksPerGroup = 0 := UInt32.zero_mul
  have hcancel : (0 : UInt32) + 1 + (vol.fs.superblock.sBlocksPerGroup - 1)
      = vol.fs.superblock.sBlocksPerGroup := by grind
  rw [Ext4FileSystem.scanEnd, hfirst, hcancel]
  rfl

theorem Layout.scanned_zero_iff (hl : vol.Layout) (i : ℕ) :
    vol.Scanned 0 i ↔ 2 ≤ i ∧ i < vol.perGroup ∧ vol.bit 0 i = false := by
  have hle := hl.perGroup_le
  rw [Scanned, scanStart_zero, scanEnd_zero]
  constructor
  · rintro ⟨hge, hlt, -, hclear⟩
    exact ⟨hge, hlt, hclear⟩
  · rintro ⟨hge, hlt, hclear⟩
    exact ⟨hge, hlt, by omega, hclear⟩

theorem hit_zero (hl : vol.Layout) (ha : vol.Agrees) (hg : 0 < vol.fs.groups)
    (hge : 2 ≤ i) (hlt : i < vol.perGroup) (hclear : vol.bit 0 i = false) : vol.Hit 0 := by
  refine ⟨?_, i, (hl.scanned_zero_iff i).mpr ⟨hge, hlt, hclear⟩⟩
  rw [ha 0 hg]
  exact Nat.ne_of_gt (clearCount_pos hlt hclear)

theorem toNat_block (hi : i < 8 * vol.fs.blockSize.toNat) : (UInt64.ofNat i).toNat = i := by
  have hsize : vol.fs.blockSize.toNat < 2 ^ 32 := UInt32.toNat_lt _
  have hword : i < 2 ^ 64 := by omega
  exact UInt64.toNat_ofNat_of_lt' hword

theorem groupOf_of_lt (hi : i < vol.perGroup) : vol.groupOf i = 0 := Nat.div_eq_of_lt hi

theorem allocRight_of_takes_zero (hl : vol.Layout) (ha : vol.Agrees) (hg : 0 < vol.fs.groups)
    (htakes : vol.Takes 0 vol.allocBlock) : vol.Right .alloc := by
  obtain ⟨hne, i, hscan, -, hresult, hchanged⟩ := htakes
  have htoNat := toNat_block hscan.2.2.1
  obtain ⟨hge, hlt, hclear⟩ := (hl.scanned_zero_iff i).mp hscan
  have hcount := hchanged.clearCount_marked hg hlt hclear
  have hcounter := ha 0 hg
  refine ⟨?_, (hchanged.agrees_iff ha hg).mpr (by omega)⟩
  rw [hresult]
  simp only [AllocRight, Sets, htoNat, groupOf_of_lt hlt, indexOf, Nat.mod_eq_of_lt hlt]
  exact ⟨hg, hclear, hchanged.bits⟩

/-- A block from a later group is marked in the wrong place: its number is taken for an index. -/
theorem not_right_of_takes_pos (hg : 0 < g)
    (htakes : vol.Takes g vol.allocBlock) : ¬ vol.Right .alloc := by
  obtain ⟨-, i, hscan, -, hresult, hchanged⟩ := htakes
  have htoNat := toNat_block hscan.2.2.1
  rintro ⟨hright, -⟩
  rw [hresult] at hright
  simp only [AllocRight, Sets, htoNat] at hright
  obtain ⟨hgroup, hclear, hsets⟩ := hright
  have hset := hsets _ hgroup (vol.indexOf i)
  rw [if_pos ⟨rfl, rfl⟩, hchanged.bits _ hgroup] at hset
  have hother : ¬ (vol.groupOf i = g ∧ vol.indexOf i = i) := by
    rintro ⟨hgroup, hindex⟩
    rcases Nat.eq_zero_or_pos vol.perGroup with hzero | hpos
    · rw [groupOf, hzero] at hgroup
      omega
    · have hlt : i < vol.perGroup := by
        rw [← hindex]
        exact Nat.mod_lt _ hpos
      rw [groupOf_of_lt hlt] at hgroup
      omega
  rw [if_neg hother, hclear] at hset
  cases hset

theorem right_alloc_iff (hl : vol.Layout) (ha : vol.Agrees) :
    vol.Right .alloc ↔ vol.Served .alloc := by
  rcases hl.allocBlock_cases with ⟨g, hg, hbefore, htakes⟩ | ⟨hnone, hfail⟩
  · rcases Nat.eq_zero_or_pos g with rfl | hpos
    · have hserved : vol.Served .alloc := by
        obtain ⟨-, i, hscan, -⟩ := htakes
        exact .inl ⟨hg, i, (hl.scanned_zero_iff i).mp hscan⟩
      exact iff_of_true (allocRight_of_takes_zero hl ha hg htakes) hserved
    · refine iff_of_false (not_right_of_takes_pos hpos htakes) ?_
      obtain ⟨hne, i, hscan, -⟩ := htakes
      rintro (⟨hgroups, j, hge, hlt, hclear⟩ | ⟨-, hquiet⟩)
      · exact hbefore 0 hpos (hit_zero hl ha hgroups hge hlt hclear)
      · exact hquiet g hpos hg hne i hscan
  · have hright : vol.Right .alloc ↔ vol.Full := by
      rw [Right, hfail]
      exact and_iff_left ha
    rw [hright]
    constructor
    · intro hfull
      exact .inr ⟨hfull, fun g _ hg hne i hscan => hnone g hg ⟨hne, i, hscan⟩⟩
    · rintro (⟨hgroups, j, hge, hlt, hclear⟩ | ⟨hfull, -⟩)
      · exact absurd (hit_zero hl ha hgroups hge hlt hclear) (hnone 0 hgroups)
      · exact hfull

theorem right_free_iff (hl : vol.Layout) (ha : vol.Agrees) {block : UInt64}
    (hop : vol.Allowed (.free block)) : vol.Right (.free block) ↔ vol.Served (.free block) := by
  obtain ⟨hg, hset⟩ := hop
  obtain ⟨hresult, hchanged⟩ := hl.freeBlock_spec hg
  have hindex : vol.indexOf block.toNat < vol.perGroup := Nat.mod_lt _ hl.perGroup_pos
  have hcount := hchanged.clearCount_cleared hg hindex hset
  have hcounter := ha _ hg
  have hagrees := hchanged.agrees_iff ha hg
  -- the released block was not among the clear ones, so the counter was below the group's size
  have hbound := clearCount_le ((vol.freeBlock block).2.bitmapOf (vol.groupOf block.toNat))
    vol.perGroup
  have hper : vol.perGroup < 2 ^ 32 := UInt32.toNat_lt _
  have hiff : vol.Right (.free block) ↔ (vol.freeBlock block).2.Agrees :=
    ⟨fun h => h.2.2, fun h => ⟨hresult, hchanged.bits, h⟩⟩
  rw [hiff, hagrees, hcount, ← hcounter, Served]
  have hlt := counter_lt vol (vol.groupOf block.toNat)
  cases hwide : vol.fs.is64bit with
  | true =>
    simp only [if_true, true_or, iff_true]
    exact Nat.mod_eq_of_lt (by omega)
  | false =>
    simp only [Bool.false_eq_true, if_false, false_or]
    omega

theorem right_iff (hl : vol.Layout) (ha : vol.Agrees) (hop : vol.Allowed op) :
    vol.Right op ↔ vol.Served op := by
  cases op with
  | alloc => exact right_alloc_iff hl ha
  | free block => exact right_free_iff hl ha hop

theorem layout_step (hl : vol.Layout) (hop : vol.Allowed op) : (vol.step op).Layout := by
  cases op with
  | alloc =>
    rcases hl.allocBlock_cases with ⟨g, hg, -, -, i, -, -, -, hchanged⟩ | ⟨-, hfail⟩
    · exact hchanged.layout
    · rw [step, hfail]
      exact hl
  | free block => exact (hl.freeBlock_spec hop.1).2.layout

theorem Right.agrees (h : vol.Right op) : (vol.step op).Agrees := by
  cases op with
  | alloc => exact h.2
  | free block => exact h.2.2

end Step

section TwoGroups

/-- The bitmap of a group of eight blocks. The rest of its block is padding. -/
def eightBlocks (first : BitVec 8) : List (BitVec 8) := first :: List.replicate 1023 0xFF

def eightBlocksDescriptor (bitmap : UInt32) (count : UInt16) : Ext4GroupDescriptor where
  bgBlockBitmapLo := bitmap
  bgInodeBitmapLo := 5
  bgInodeTableLo := 6
  bgFreeBlocksCountLo := count
  bgFreeInodesCountLo := 8
  bgUsedDirsLo := 0
  bgFlags := 0
  bgExcludeBitmapLo := 0
  bgBlockBitmapCsumLo := 0
  bgInodeBitmapCsumLo := 0
  bgItableUnusedLo := 0
  bgChecksum := 0
  bgBlockBitmapHi := 0
  bgInodeBitmapHi := 0
  bgInodeTableHi := 0
  bgFreeBlocksCountHi := 0
  bgFreeInodesCountHi := 0
  bgUsedDirsHi := 0
  bgItableUnusedHi := 0
  bgExcludeBitmapHi := 0
  bgBlockBitmapCsumHi := 0
  bgInodeBitmapCsumHi := 0
  bgReserved := 0

def sixteenBlocks : Ext4Superblock where
  sBlocksCountLo := 16
  sBlocksCountHi := 0
  sBlocksPerGroup := 8
  sInodesPerGroup := 8
  sInodeSize := 128
  sDescSize := 32

def twoBitmaps (first second : BitVec 8) : Ext4Storage :=
  List.replicate 3072 0 ++ (eightBlocks first ++ (eightBlocks second ++ List.replicate 11264 0))

/-- Sixteen blocks of 1024 bytes in two groups, whose bitmaps are in the blocks 3 and 4. -/
def twoGroups (first second : BitVec 8) (count count' : UInt16) : Volume where
  fs :=
    { superblock := sixteenBlocks
      blockSize := 1024
      is64bit := false
      groupDescriptors := [eightBlocksDescriptor 3 count, eightBlocksDescriptor 4 count']
      readOnly := false }
  storage := twoBitmaps first second

end TwoGroups

/-- The first group is full and all eight blocks of the second are free, but there is no block. -/
theorem alloc_fails_beside_free_group :
    (twoGroups 0xFF 0x00 0 8).Layout ∧ (twoGroups 0xFF 0x00 0 8).Agrees ∧
      (twoGroups 0xFF 0x00 0 8).allocBlock.1 = .error (.error .outOfMemory) ∧
      ∀ i, i < 8 → (twoGroups 0xFF 0x00 0 8).bit 1 i = false := by
  unfold Agrees
  decide +kernel

/-- A run keeps the bitmaps and the counters right at every step exactly when every step is one
that the code serves. -/
theorem right_along_iff {vol : Volume} (hl : vol.Layout) (ha : vol.Agrees) {ops : List Op}
    (hops : Run.Along step Allowed vol ops) :
    Run.Along step Right vol ops ↔ Run.Along step Served vol ops := by
  induction ops generalizing vol with
  | nil => exact Iff.rfl
  | cons op ops ih =>
    obtain ⟨hop, hrest⟩ := hops
    have hstep := right_iff hl ha hop
    have hlayout := layout_step hl hop
    rw [Run.along_cons, hstep]
    refine and_congr_right fun hserved => ?_
    exact ih hlayout (hstep.mpr hserved).agrees hrest

/-- The first free block of the first group is taken and given back. -/
theorem right_along_alloc_free :
    Run.Along step Right (twoGroups 0x0F 0x00 4 8) [.alloc, .free 4] := by
  have hfour : (twoGroups 0x0F 0x00 4 8).bit 0 4 = false := by decide +kernel
  have hops : Run.Along step Allowed (twoGroups 0x0F 0x00 4 8) [.alloc, .free 4] := by
    refine ⟨trivial, ?_, trivial⟩
    unfold Allowed
    decide +kernel
  refine (right_along_iff (by decide +kernel) (by unfold Agrees; decide +kernel) hops).mpr
    ⟨.inl ⟨by decide, 4, by decide, by decide, hfour⟩, .inr ?_, trivial⟩
  decide +kernel

end EchOS.Fs.Ext4.Volume
