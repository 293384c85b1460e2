import EchOS.Fs.Ext4ExtentMap
import EchOS.Lib.Run

/-! Blocks that are inserted one after the other into an inode that starts out empty, and the map
of its logical blocks along the way. -/

namespace EchOS.Fs.Ext4

open List

namespace Ext4Inode

variable (inode : Ext4Inode) (logicalBlock : ℕ)

def mapBlockExtentTree : Option ℕ :=
  match Ext4ExtentHeader.parse inode.iBlock.toList with
  | none => none
  | some header =>
    -- the nodes below the inode cannot be read without the storage
    if header.ehDepth = 0 then findExtentInLeafData inode.iBlock.toList logicalBlock else none

def mapBlockIndirectStub : Option ℕ :=
  if logicalBlock < 12 then
    let blk := inode.indirectBlocks logicalBlock
    if blk = 0 then none else some blk
  else none

def mapBlock : Option ℕ :=
  if inode.usesExtents then inode.mapBlockExtentTree logicalBlock
  else inode.mapBlockIndirectStub logicalBlock

end Ext4Inode

section Steps

def placed (M : ℕ → Option ℕ) (l p x : ℕ) : Option ℕ := if x = l then some p else M x

/-- No 32768 blocks follow each other both in the file and on the volume. -/
def NoLongRun (M : ℕ → Option ℕ) : Prop := ∀ l p, ∃ i, i < 32768 ∧ M (l + i) ≠ some (p + i)

structure Ext4Extent.Follows (M : ℕ → Option ℕ) (e : Ext4Extent) : Prop where
  pos : 0 < e.eeLen
  end_lt : e.eeBlock + e.eeLen < 2 ^ 32
  start_le : e.eeStart + e.eeLen ≤ 2 ^ 48
  maps : ∀ i, i < e.eeLen → M (e.eeBlock + i) = some (e.eeStart + i)

structure Ext4Inode.Tracked (inode : Ext4Inode) : Prop where
  map_eq : inode.mapBlock = inode.blockMap
  extents : ∃ es, Holds inode es ∧ Valid (Ext4Extent.Follows inode.mapBlock) es

structure Ext4Inode.Empty (inode : Ext4Inode) : Prop where
  holds : Holds inode []
  unmapped : ∀ l, inode.mapBlock l = none

variable {M : ℕ → Option ℕ} {inode inode' : Ext4Inode} {l p : ℕ}

theorem merges_follows (hM : NoLongRun M) : Merges (Ext4Extent.Follows M) where
  fits := by
    intro e he
    refine ⟨he.pos, ?_, he.end_lt, he.start_le⟩
    by_contra hlong
    obtain ⟨i, hi, hne⟩ := hM e.eeBlock e.eeStart
    exact hne (he.maps i (by omega))
  join := by
    intro a b ha hb hblock hstart
    have hpos := ha.pos
    have hend := hb.end_lt
    have hle := hb.start_le
    refine ⟨by dsimp only; omega, by dsimp only; omega, by dsimp only; omega, ?_⟩
    intro i hi
    dsimp only at hi ⊢
    by_cases hfirst : i < a.eeLen
    · exact ha.maps i hfirst
    · have hnext := hb.maps (i - a.eeLen) (by omega)
      rwa [← hblock, ← hstart, Nat.add_assoc, Nat.add_assoc,
        Nat.add_sub_cancel' (by omega)] at hnext

theorem Ext4Extent.Follows.placed {e : Ext4Extent} (he : e.Follows M) (hnone : M l = none) :
    e.Follows (Ext4.placed M l p) where
  pos := he.pos
  end_lt := he.end_lt
  start_le := he.start_le
  maps := by
    intro i hi
    have hold := he.maps i hi
    rw [Ext4.placed, if_neg ?_, hold]
    rintro rfl
    rw [hnone] at hold
    cases hold

theorem Ext4Inode.Flat.mapBlock_eq (h : inode.Flat) : inode.mapBlock = inode.blockMap := by
  funext l
  rw [Ext4Inode.mapBlock, if_pos h.extents, Ext4Inode.mapBlockExtentTree, Ext4Inode.blockMap]
  cases hheader : Ext4ExtentHeader.parse inode.iBlock.toList with
  | none => simp only [findExtentInLeafData, hheader]
  | some header => simp only [h.depth header hheader, if_true]

theorem Ext4Inode.Empty.tracked (h : inode.Empty) : inode.Tracked where
  map_eq := by
    funext l
    rw [h.unmapped, Ext4Inode.blockMap]
    refine (Option.eq_none_iff_forall_ne_some.mpr fun p hsome => ?_).symm
    rcases h.holds with hleaf | ⟨hnone, -⟩
    · obtain ⟨e, he, -⟩ := (hleaf.find_eq_some_iff .nil (forall_mem_nil _)).mp hsome
      cases he
    · rw [findExtentInLeafData, hnone] at hsome
      cases hsome
  extents := ⟨[], h.holds, .nil, forall_mem_nil _⟩

theorem Ext4Inode.Tracked.insertExtent_ok (ht : inode.Tracked) (hl : l + 1 < 2 ^ 32)
    (hp : p < 2 ^ 48) (hnone : inode.mapBlock l = none)
    (hrun : NoLongRun (placed inode.mapBlock l p)) (h : insertExtent inode l p 1 = .ok inode') :
    inode'.Tracked ∧ inode'.mapBlock = placed inode.mapBlock l p := by
  obtain ⟨es, hholds, hvalid⟩ := ht.extents
  have hold : Valid (Ext4Extent.Follows (placed inode.mapBlock l p)) es :=
    ⟨hvalid.apart, fun e he => (hvalid.each e he).placed hnone⟩
  have hadded : Ext4Extent.Follows (placed inode.mapBlock l p) ⟨l, 1, p⟩ := by
    refine ⟨Nat.one_pos, hl, hp, fun i hi => ?_⟩
    obtain rfl := Nat.lt_one_iff.mp hi
    exact if_pos rfl
  obtain ⟨hextents, hmap, -⟩ := hholds.insertExtent_ok (merges_follows hrun) hold hadded
    (ht.map_eq ▸ hnone) h
  have heq := (flat_of_insertExtent h).mapBlock_eq
  have hplaced : inode'.mapBlock = placed inode.mapBlock l p := by
    rw [heq, ht.map_eq]
    exact funext hmap
  exact ⟨⟨heq, hplaced ▸ hextents⟩, hplaced⟩

end Steps

section Runs

/-- The inode after a call, which a call that fails leaves as it was. -/
def insertBlock (inode : Ext4Inode) (call : ℕ × ℕ) : Ext4Inode :=
  match insertExtent inode call.1 call.2 1 with
  | .ok inode' => inode'
  | .error _ => inode

/-- A call that succeeds adds its block to the map and one that fails does not change it. -/
def Places (inode : Ext4Inode) (call : ℕ × ℕ) : Prop :=
  (insertBlock inode call).mapBlock = match insertExtent inode call.1 call.2 1 with
    | .ok _ => placed inode.mapBlock call.1 call.2
    | .error _ => inode.mapBlock

/-- The block is not the last one a file can have, and does not complete a run that is too long for
the length field of an extent. -/
def Admissible (inode : Ext4Inode) (call : ℕ × ℕ) : Prop :=
  call.1 + 1 < 2 ^ 32 ∧ NoLongRun (placed inode.mapBlock call.1 call.2)

theorem Ext4Inode.Tracked.insertBlock {inode : Ext4Inode} (ht : inode.Tracked) {call : ℕ × ℕ}
    (hp : call.2 < 2 ^ 48) (hnone : inode.mapBlock call.1 = none) (ha : Admissible inode call) :
    (Ext4.insertBlock inode call).Tracked ∧ Places inode call := by
  unfold Places Ext4.insertBlock
  cases h : insertExtent inode call.1 call.2 1 with
  | ok inode' => exact ht.insertExtent_ok ha.1 hp hnone ha.2 h
  | error e => exact ⟨ht, rfl⟩

theorem Ext4Inode.Tracked.along_places {inode : Ext4Inode} (ht : inode.Tracked)
    {calls : List (ℕ × ℕ)} (hdistinct : (calls.map Prod.fst).Nodup)
    (hphys : ∀ call ∈ calls, call.2 < 2 ^ 48) (hnone : ∀ call ∈ calls, inode.mapBlock call.1 = none)
    (hrun : Run.Along Ext4.insertBlock Admissible inode calls) :
    Run.Along Ext4.insertBlock Places inode calls := by
  induction calls generalizing inode with
  | nil => trivial
  | cons call calls ih =>
    obtain ⟨hfirst, hrest⟩ := nodup_cons.mp hdistinct
    obtain ⟨hp, hps⟩ := forall_mem_cons.mp hphys
    obtain ⟨hn, hns⟩ := forall_mem_cons.mp hnone
    obtain ⟨htracked, hplaces⟩ := ht.insertBlock hp hn hrun.1
    refine ⟨hplaces, ih htracked hrest hps (fun other hmem => ?_) hrun.2⟩
    -- the other calls are for other logical blocks, which stay without a block
    have hne : other.1 ≠ call.1 := fun heq => hfirst (heq ▸ mem_map_of_mem hmem)
    rw [hplaces]
    split
    · rw [placed, if_neg hne, hns other hmem]
    · exact hns other hmem

/-- Whatever blocks are inserted into an empty inode, each call does what it should. -/
theorem Ext4Inode.Empty.along_insertBlock {inode : Ext4Inode} (h : inode.Empty)
    {calls : List (ℕ × ℕ)} (hdistinct : (calls.map Prod.fst).Nodup)
    (hphys : ∀ call ∈ calls, call.2 < 2 ^ 48)
    (hrun : Run.Along Ext4.insertBlock Admissible inode calls) :
    Run.Along Ext4.insertBlock Places inode calls :=
  h.tracked.along_places hdistinct hphys (fun call _ => h.unmapped call.1) hrun

def freshInode : Ext4Inode where
  iSizeLo := 0
  iSizeHi := 0
  iFlags := 0
  iBlock := Vector.replicate 60 0

theorem freshInode_empty : freshInode.Empty where
  holds := .inr ⟨by decide +kernel, rfl⟩
  unmapped := by
    intro l
    have hpointers : ∀ i, i < 12 → freshInode.indirectBlocks i = 0 := by decide +kernel
    have hstub : freshInode.mapBlock l = freshInode.mapBlockIndirectStub l := rfl
    rw [hstub, Ext4Inode.mapBlockIndirectStub]
    split_ifs with hl
    · simp only [hpointers l hl, if_true]
    · rfl

/-- Two neighbours that are joined, a block of its own, and one that is joined in front. -/
def fourBlocks : List (ℕ × ℕ) := [(7, 50), (8, 51), (20, 90), (6, 49)]

theorem admissible_fourBlocks : Run.Along insertBlock Admissible freshInode fourBlocks := by
  have hcalls : Run.Along insertBlock (fun inode call =>
      call.1 < 100 ∧ call.2 < 2 ^ 48 ∧ inode.mapBlock call.1 = none) freshInode fourBlocks := by
    decide +kernel
  have hadmissible {inode : Ext4Inode} {call : ℕ × ℕ} (hcall : call.1 < 100)
      (hhigh : ∀ x, 100 ≤ x → inode.mapBlock x = none) : Admissible inode call := by
    refine ⟨by omega, fun l p => ⟨100, by decide, ?_⟩⟩
    rw [placed, if_neg (by omega), hhigh _ (by omega)]
    exact (Option.some_ne_none _).symm
  refine hcalls.safety
    (I := fun inode => inode.Tracked ∧ ∀ x, 100 ≤ x → inode.mapBlock x = none) ?_
    (fun _ _ h hcall => hadmissible hcall.1 h.2)
    ⟨freshInode_empty.tracked, fun x _ => freshInode_empty.unmapped x⟩
  rintro inode call ⟨htracked, hhigh⟩ ⟨hcall, hphys, hnone⟩
  obtain ⟨hnext, hplaces⟩ := htracked.insertBlock hphys hnone (hadmissible hcall hhigh)
  refine ⟨hnext, fun x hx => ?_⟩
  rw [hplaces]
  split
  · rw [placed, if_neg (by omega), hhigh x hx]
  · exact hhigh x hx

theorem along_insertBlock_fourBlocks :
    Run.Along insertBlock Places freshInode fourBlocks ∧ ∀ call ∈ fourBlocks,
      (Run.exec insertBlock freshInode fourBlocks).mapBlock call.1 = some call.2 :=
  ⟨freshInode_empty.along_insertBlock (by decide) (by decide) admissible_fourBlocks,
    by decide +kernel⟩

def longInode : Ext4Inode :=
  { freshInode with
    iFlags := Ext4Inode.extentsFl
    iBlock := Bytes.array 60 (encodeLeaf [⟨0, 32767, 100⟩]) }

/-- The end of the last block wraps to 0, and an extent of 32768 blocks is read as an empty one: the
calls succeed, and the block has no place in the map, nor has the run it was joined to. -/
theorem insertBlock_loses_blocks :
    ¬ Run.Along insertBlock Places freshInode [(2 ^ 32 - 1, 50)] ∧
      longInode.mapBlock 0 = some 100 ∧ ¬ Places longInode (32767, 32867) := by
  refine ⟨fun h => ?_, by decide +kernel, fun h => ?_⟩
  · exact absurd (congrFun h.1 (2 ^ 32 - 1)) (by decide +kernel)
  · exact absurd (congrFun h 0) (by decide +kernel)

end Runs

end EchOS.Fs.Ext4
