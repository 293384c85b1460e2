import EchOS.Fs.Ext4Accounting
import EchOS.Fs.Ext4ExtentMap
import EchOS.Fs.Ext4File

/-! What one round of a write does to a file: the block it goes to, the extents of the inode, and
the bytes of this and of every other block. -/

namespace EchOS.Fs.Ext4

open Bytes Except Prod

namespace Volume

def block (vol : Volume) (p : ℕ) : List (BitVec 8) :=
  slice vol.storage (p * vol.fs.blockSize.toNat)
    (p * vol.fs.blockSize.toNat + vol.fs.blockSize.toNat)

def byte (vol : Volume) (p j : ℕ) : BitVec 8 := (vol.block p).getD j 0

/-- A block inside the storage that is neither a bitmap nor a part of the descriptor table. -/
structure DataBlock (vol : Volume) (p : ℕ) : Prop where
  inside : p * vol.fs.blockSize.toNat + vol.fs.blockSize.toNat ≤ vol.storage.length
  off_bitmaps : ∀ g, g < vol.fs.groups →
    p * vol.fs.blockSize.toNat + vol.fs.blockSize.toNat ≤ vol.bitmapAt g ∨
      vol.bitmapAt g + vol.fs.blockSize.toNat ≤ p * vol.fs.blockSize.toNat
  off_table : ∀ g, g < vol.fs.groups →
    p * vol.fs.blockSize.toNat + vol.fs.blockSize.toNat ≤ vol.fs.descriptorOffset g ∨
      vol.fs.descriptorOffset g + vol.entrySize ≤ p * vol.fs.blockSize.toNat

def Free (vol : Volume) (p : ℕ) : Prop := 2 ≤ p ∧ p < vol.perGroup ∧ vol.bit 0 p = false

def FirstFree (vol : Volume) (p : ℕ) : Prop :=
  vol.Free p ∧ ∀ q, 2 ≤ q → q < p → vol.bit 0 q = true

/-- A volume with its metadata marked as in use. Its groups are small enough for one extent, and
where the scans of the later groups look, there is nothing for them. -/
structure Ready (vol : Volume) : Prop where
  layout : vol.Layout
  groups_pos : 0 < vol.fs.groups
  perGroup_le : vol.perGroup ≤ 32769
  quiet : ∀ g, 0 < g → g < vol.fs.groups → ∀ i, ¬ vol.Scanned g i
  free : ∀ p, vol.Free p → vol.DataBlock p

section Shape

variable {vol vol' : Volume} {p : ℕ}

theorem SameShape.dataBlock (h : vol.SameShape vol') (hp : vol.DataBlock p) : vol'.DataBlock p where
  inside := by
    rw [h.blockSize_eq, h.length_eq]
    exact hp.inside
  off_bitmaps := by
    intro g hg
    rw [h.groups_eq] at hg
    rw [h.blockSize_eq, h.placed]
    exact hp.off_bitmaps g hg
  off_table := by
    intro g hg
    rw [h.groups_eq] at hg
    rw [h.blockSize_eq, h.table_eq.1, h.table_eq.2]
    exact hp.off_table g hg

theorem Ready.of_sameShape (hr : vol.Ready) (h : vol.SameShape vol') (hlayout : vol'.Layout)
    (hbits : ∀ g, g < vol.fs.groups → ∀ i, vol'.bit g i = false → vol.bit g i = false) :
    vol'.Ready where
  layout := hlayout
  groups_pos := by
    rw [h.groups_eq]
    exact hr.groups_pos
  perGroup_le := by
    rw [h.perGroup_eq]
    exact hr.perGroup_le
  quiet := by
    rintro g hpos hlt i ⟨hge, hend, hroom, hclear⟩
    rw [h.groups_eq] at hlt
    rw [h.blockSize_eq] at hroom
    obtain ⟨gds, hfs⟩ := h.frame
    rw [hfs] at hge hend
    exact hr.quiet g hpos hlt i ⟨hge, hend, hroom, hbits g hlt i hclear⟩
  free := by
    rintro q ⟨hge, hlt, hclear⟩
    rw [h.perGroup_eq] at hlt
    exact h.dataBlock (hr.free q ⟨hge, hlt, hbits 0 hr.groups_pos q hclear⟩)

theorem DataBlock.length_block (hp : vol.DataBlock p) :
    (vol.block p).length = vol.fs.blockSize.toNat := by
  rw [block, length_slice hp.inside]
  omega

theorem blockOffset_eq (fs : Ext4FileSystem) (hp : p < 2 ^ 32) :
    fs.blockOffset (UInt64.ofNat p) = p * fs.blockSize.toNat := by
  have hsize : fs.blockSize.toNat < 2 ^ 32 := UInt32.toNat_lt _
  have hword : p < 2 ^ 64 := by omega
  have hprod : p * fs.blockSize.toNat < 2 ^ 64 := by
    calc p * fs.blockSize.toNat < 2 ^ 32 * 2 ^ 32 := Nat.mul_lt_mul_of_lt_of_lt hp hsize
      _ = 2 ^ 64 := by decide
  rw [Ext4FileSystem.blockOffset, UInt64.toNat_mul, UInt64.toNat_ofNat_of_lt' hword]
  exact Nat.mod_eq_of_lt hprod

end Shape

/-- An allocation of a block: its bit is set, and no block of data changes. -/
structure Allocates (vol vol' : Volume) (p : ℕ) : Prop where
  first : vol.FirstFree p
  ready : vol'.Ready
  shape : vol.SameShape vol'
  bits : ∀ q, vol'.bit 0 q = if q = p then true else vol.bit 0 q
  block_eq : ∀ q, vol.DataBlock q → vol'.block q = vol.block q

section Allocating

variable {vol vol' : Volume} {p : ℕ}

theorem FirstFree.unique {q : ℕ} (hp : vol.FirstFree p) (hq : vol.FirstFree q) : p = q := by
  have hno : ∀ x y, vol.FirstFree x → vol.FirstFree y → ¬ x < y := by
    intro x y hx hy hlt
    have hset := hy.2 x hx.1.1 hlt
    rw [hx.1.2.2] at hset
    cases hset
  have hle := hno p q hp hq
  have hge := hno q p hq hp
  omega

theorem Ready.allocBlock_ok (hr : vol.Ready) {block : UInt64}
    (h : vol.allocBlock = (.ok block, vol')) : vol.Allocates vol' block.toNat := by
  rcases hr.layout.allocBlock_cases with
    ⟨g, hg, -, -, i, hscan, hfirst, hresult, hchanged⟩ | ⟨-, hfail⟩
  · have hzero : g = 0 := by
      by_contra hne
      exact hr.quiet g (Nat.pos_of_ne_zero hne) hg i hscan
    subst hzero
    rw [h] at hresult hchanged
    have hblock : block.toNat = i := by
      rw [ok.inj hresult]
      exact toNat_block hscan.2.2.1
    have hfree := (hr.layout.scanned_zero_iff i).mp hscan
    rw [scanStart_zero] at hfirst
    rw [hblock]
    refine ⟨⟨hfree, hfirst⟩,
      hr.of_sameShape hchanged.toSameShape hchanged.layout fun h hh j hclear => ?_,
      hchanged.toSameShape, ?_, ?_⟩
    · rw [hchanged.bits h hh] at hclear
      split_ifs at hclear
      exact hclear
    · intro q
      rw [hchanged.bits 0 hg]
      simp only [true_and]
    · intro q hq
      rw [Volume.block, hchanged.toSameShape.blockSize_eq]
      exact hchanged.outside _ _ (hq.off_bitmaps 0 hg) (hq.off_table 0 hg)
  · rw [h] at hfail
    exact absurd (congrArg Prod.fst hfail) (by simp)

end Allocating

section Patching

variable {vol : Volume} {p q : ℕ} {data : List (BitVec 8)}

def setBlock (vol : Volume) (p : ℕ) (data : List (BitVec 8)) : Volume :=
  { vol with storage := Disk.patch vol.storage (p * vol.fs.blockSize.toNat) data }

section

variable (hp : vol.DataBlock p) (hdata : data.length = vol.fs.blockSize.toNat)
include hp hdata

theorem DataBlock.room : p * vol.fs.blockSize.toNat + data.length ≤ vol.storage.length := by
  rw [hdata]
  exact hp.inside

theorem DataBlock.sameShape_setBlock : vol.SameShape (vol.setBlock p data) where
  frame := ⟨_, rfl⟩
  placed := fun _ => rfl
  length_eq := Disk.length_patch rfl (hp.room hdata)

theorem DataBlock.bit_setBlock {g : ℕ} (hg : g < vol.fs.groups) (i : ℕ) :
    (vol.setBlock p data).bit g i = vol.bit g i := by
  have hoff := hp.off_bitmaps g hg
  have hbitmap : (vol.setBlock p data).bitmapOf g = vol.bitmapOf g := by
    refine slice_patch_of_disjoint (hp.room hdata) ?_
    rw [hdata]
    exact hoff.symm
  rw [bit, hbitmap]
  rfl

theorem DataBlock.block_setBlock_self : (vol.setBlock p data).block p = data :=
  slice_patch_self (hp.room hdata) (by rw [hdata]; rfl)

theorem DataBlock.block_setBlock_other (hne : q ≠ p) :
    (vol.setBlock p data).block q = vol.block q := by
  refine slice_patch_of_disjoint (hp.room hdata) ?_
  rw [hdata]
  rcases Nat.lt_or_gt_of_ne hne with hlt | hgt
  · exact .inl (by rw [← Nat.succ_mul]; exact Nat.mul_le_mul_right _ hlt)
  · exact .inr (by rw [← Nat.succ_mul]; exact Nat.mul_le_mul_right _ hgt)

end

theorem Ready.setBlock (hr : vol.Ready) (hp : vol.DataBlock p)
    (hdata : data.length = vol.fs.blockSize.toNat) : (vol.setBlock p data).Ready := by
  have hshape := hp.sameShape_setBlock hdata
  refine hr.of_sameShape hshape (hshape.layout hr.layout rfl hr.layout.initialised) ?_
  intro g hg i hclear
  rwa [hp.bit_setBlock hdata hg] at hclear

end Patching

end Volume

section Extents

structure InGroup (n : ℕ) (e : Ext4Extent) : Prop where
  pos : 0 < e.eeLen
  end_lt : e.eeBlock + e.eeLen < 2 ^ 32
  start_ge : 2 ≤ e.eeStart
  start_le : e.eeStart + e.eeLen ≤ n

theorem merges_inGroup {n : ℕ} (hn : n ≤ 32769) : Merges (InGroup n) where
  fits := by
    intro e he
    have hge := he.start_ge
    have hle := he.start_le
    exact ⟨he.pos, by omega, he.end_lt, by omega⟩
  join := by
    intro a b ha hb hblock hstart
    have hpos := ha.pos
    have hend := hb.end_lt
    have hle := hb.start_le
    exact ⟨by dsimp only; omega, by dsimp only; omega, ha.start_ge, by dsimp only; omega⟩

theorem hasFlag_or {inode inode' : Ext4Inode} {set flag : UInt32}
    (hflags : inode'.iFlags = inode.iFlags ||| set) (hother : set &&& flag = 0) :
    inode'.hasFlag flag = inode.hasFlag flag := by
  have hand : (inode.iFlags ||| set) &&& flag = inode.iFlags &&& flag := by
    apply UInt32.eq_of_toBitVec_eq
    ext i hi
    have hbit := congrArg (fun word : UInt32 => word.toBitVec[i]) hother
    simp only [UInt32.toBitVec_and, UInt32.toBitVec_or, BitVec.getElem_and, BitVec.getElem_or]
      at hbit ⊢
    rw [Bool.and_or_distrib_right, hbit]
    simp
  rw [Ext4Inode.hasFlag, Ext4Inode.hasFlag, hflags, hand]

end Extents

namespace File

/-- A file in good order: its blocks are in use, are its own, and no two of its logical blocks
share one. -/
structure Sound (file : File) : Prop where
  ready : file.vol.Ready
  flat : file.inode.Flat
  plain : file.inode.hasFlag Ext4Inode.inlineDataFl = false
  unverified : file.inode.hasFlag Ext4Inode.verityFl = false
  extents : ∃ es, Holds file.inode es ∧ Valid (InGroup file.vol.perGroup) es
  injective : ∀ l l' p, file.inode.blockMap l = some p → file.inode.blockMap l' = some p → l = l'
  used : ∀ l p, file.inode.blockMap l = some p → file.vol.bit 0 p = true ∧ file.vol.DataBlock p

structure Gains (file file' : File) (b p : ℕ) : Prop where
  sound : file'.Sound
  map_eq : ∀ l, file'.inode.blockMap l = if l = b then some p else file.inode.blockMap l
  origin : file.inode.blockMap b = some p ∨
    file.inode.blockMap b = none ∧ file.vol.FirstFree p
  shape : file.vol.SameShape file'.vol
  free : ∀ q, file'.vol.Free q → file.vol.Free q
  size_eq : file'.inode.size = file.inode.size

structure Placed (file file' : File) (b p : ℕ) : Prop extends Gains file file' b p where
  block_eq : ∀ q, file.vol.DataBlock q → file'.vol.block q = file.vol.block q

section Placing

variable {file file' : File} {b p : ℕ}

theorem Sound.mapped_lt (hs : file.Sound) {l : ℕ} (h : file.inode.blockMap l = some p) :
    p < file.vol.perGroup := by
  obtain ⟨es, hholds, hvalid⟩ := hs.extents
  have hmaps := (hholds.blockMap_eq_some_iff (merges_inGroup hs.ready.perGroup_le) hvalid).mp h
  obtain ⟨e, he, hcovers, rfl⟩ := hmaps
  have hle := (hvalid.each e he).start_le
  unfold Ext4Extent.Covers at hcovers
  omega

theorem Placed.refl (hs : file.Sound) (h : file.inode.blockMap b = some p) :
    file.Placed file b p where
  sound := hs
  map_eq := by
    intro l
    split_ifs with hl
    · rw [hl, h]
    · rfl
  origin := .inl h
  shape := ⟨⟨_, rfl⟩, fun _ => rfl, rfl⟩
  block_eq := fun _ _ => rfl
  free := fun _ hq => hq
  size_eq := rfl

theorem Sound.placed_of_alloc (hs : file.Sound) (hb : b + 1 < 2 ^ 32) {vol : Volume}
    {inode : Ext4Inode} (hnone : file.inode.blockMap b = none) (halloc : file.vol.Allocates vol p)
    (h : insertExtent file.inode b p 1 = .ok inode) :
    file.Placed { vol := vol, inode := inode } b p := by
  obtain ⟨hge, hlt, hclear⟩ := halloc.first.1
  obtain ⟨es, hholds, hvalid⟩ := hs.extents
  obtain ⟨hextents, hmap, hinode⟩ := hholds.insertExtent_ok (merges_inGroup hs.ready.perGroup_le)
    hvalid ⟨Nat.one_pos, hb, hge, hlt⟩ hnone h
  have hper := halloc.shape.perGroup_eq
  -- the new block had a clear bit, so the file did not have it
  have hnew : ∀ l, file.inode.blockMap l ≠ some p := by
    intro l hl
    have hset := (hs.used l p hl).1
    rw [hclear] at hset
    cases hset
  have hflags : inode.iFlags = file.inode.iFlags ||| Ext4Inode.extentsFl := by rw [hinode]
  refine { map_eq := hmap
           origin := .inr ⟨hnone, halloc.first⟩
           shape := halloc.shape
           block_eq := halloc.block_eq
           sound := ?sound
           free := ?free
           size_eq := by rw [hinode]; rfl }
  case sound =>
    refine ⟨halloc.ready, flat_of_insertExtent h, ?_, ?_, ?_, ?_, ?_⟩
    · exact (hasFlag_or hflags (by decide)).trans hs.plain
    · exact (hasFlag_or hflags (by decide)).trans hs.unverified
    · rw [hper]
      exact hextents
    · intro l l' q hl hl'
      rw [hmap] at hl hl'
      split_ifs at hl hl' with hlb hlb' hlb'
      · rw [hlb, hlb']
      · exact absurd (hl'.trans hl.symm) (hnew l')
      · exact absurd (hl.trans hl'.symm) (hnew l)
      · exact hs.injective l l' q hl hl'
    · intro l q hl
      rw [hmap] at hl
      rw [halloc.bits]
      split_ifs at hl with hlb
      · cases hl
        exact ⟨if_pos rfl, halloc.shape.dataBlock (hs.ready.free p halloc.first.1)⟩
      · obtain ⟨hset, hdata⟩ := hs.used l q hl
        refine ⟨?_, halloc.shape.dataBlock hdata⟩
        split_ifs
        · rfl
        · exact hset
  case free =>
    rintro q ⟨hqge, hqlt, hqclear⟩
    rw [hper] at hqlt
    rw [halloc.bits] at hqclear
    split_ifs at hqclear
    exact ⟨hqge, hqlt, hqclear⟩

theorem blockFor_eq_ok (h : file.blockFor b = (.ok p, file')) :
    (file.vol.mapBlockWithStorage file.inode (b % 2 ^ 32) = .ok (some p) ∧ file' = file) ∨
      ∃ block vol inode, file.vol.mapBlockWithStorage file.inode (b % 2 ^ 32) = .ok none ∧
        file.vol.allocBlock = (.ok block, vol) ∧
        insertExtent file.inode (b % 2 ^ 32) block.toNat 1 = .ok inode ∧
        p = block.toNat ∧ file' = ⟨vol, inode⟩ := by
  rw [blockFor] at h
  split at h
  · cases h
  · next hmap =>
    cases h
    exact .inl ⟨hmap, rfl⟩
  · next hmap =>
    split at h
    · cases h
    · next block vol halloc =>
      split at h
      · cases h
      · next inode hinsert =>
        obtain ⟨hp, rfl⟩ := Prod.mk.inj h
        exact .inr ⟨block, vol, inode, hmap, halloc, hinsert, (ok.inj hp).symm, rfl⟩

theorem Sound.blockFor_ok (hs : file.Sound) (hb : b + 1 < 2 ^ 32)
    (h : file.blockFor b = (.ok p, file')) : file.Placed file' b p := by
  have hcases := blockFor_eq_ok h
  rw [Nat.mod_eq_of_lt (by omega : b < 2 ^ 32), hs.flat.mapBlockWithStorage_eq] at hcases
  obtain ⟨hmap, rfl⟩ | ⟨block, vol, inode, hmap, halloc, hinsert, rfl, rfl⟩ := hcases
  · exact Placed.refl hs (ok.inj hmap)
  · exact hs.placed_of_alloc hb (ok.inj hmap) (hs.ready.allocBlock_ok halloc) hinsert

end Placing

def Covered (offset : ℕ) (data : List (BitVec 8)) (i : ℕ) : Prop :=
  offset ≤ i ∧ i < offset + data.length

instance (offset : ℕ) (data : List (BitVec 8)) (i : ℕ) : Decidable (Covered offset data i) :=
  inferInstanceAs (Decidable (_ ∧ _))

/-- `file'` is `file` after one round of a write: the logical block has a block, which holds the
bytes of the data that fall into it. -/
structure Wrote (file file' : File) (offset : ℕ) (data : List (BitVec 8)) (b p : ℕ) : Prop
    extends Gains file file' b p where
  byte_eq : ∀ j, j < file.blockSize → file'.vol.byte p j =
    if Covered offset data (b * file.blockSize + j) then
      data.getD (b * file.blockSize + j - offset) 0
    else file.vol.byte p j
  others : ∀ q, q ≠ p → file.vol.DataBlock q → file'.vol.block q = file.vol.block q

section Writing

variable {file file' : File} {offset b p written : ℕ} {data : List (BitVec 8)}

theorem Sound.setBlock (hs : file.Sound) (hp : file.vol.DataBlock p)
    (hdata : data.length = file.vol.fs.blockSize.toNat) :
    ({ file with vol := file.vol.setBlock p data } : File).Sound where
  ready := hs.ready.setBlock hp hdata
  flat := hs.flat
  plain := hs.plain
  unverified := hs.unverified
  extents := hs.extents
  injective := hs.injective
  used := by
    intro l q hl
    obtain ⟨hset, hq⟩ := hs.used l q hl
    refine ⟨?_, (hp.sameShape_setBlock hdata).dataBlock hq⟩
    rw [hp.bit_setBlock hdata hs.ready.groups_pos]
    exact hset

theorem storePiece_eq (hp : file.vol.DataBlock p) (hlt : p < 2 ^ 32) {start : ℕ}
    {piece : List (BitVec 8)} (hroom : start + piece.length ≤ file.blockSize) :
    file.storePiece p start piece
      = .ok (file.vol.setBlock p (Disk.patch (file.vol.block p) start piece)).storage := by
  have hlength := Disk.length_patch hp.length_block hroom
  have hinside := hp.inside
  have hread : readExact file.vol.storage (p * file.vol.fs.blockSize.toNat) file.blockSize
      = .ok (file.vol.block p) := if_neg (Nat.not_lt.mpr hinside)
  rw [storePiece, Volume.blockOffset_eq _ hlt]
  simp only [hread]
  refine if_neg ?_
  rw [hlength]
  exact Nat.not_lt.mpr hinside

theorem byte_of_piece {blk : List (BitVec 8)} {n start count : ℕ} (hblk : blk.length = n)
    (hstart : start = offset - b * n) (hfirst : offset < b * n + n)
    (hwritten : written = min data.length (b * n - offset))
    (hcount : count = min (n - start) (data.length - written)) {j : ℕ} (hj : j < n) :
    (Disk.patch blk start (slice data written (written + count))).getD j 0
      = if Covered offset data (b * n + j) then data.getD (b * n + j - offset) 0
        else blk.getD j 0 := by
  have hpiece : (slice data written (written + count)).length = count := by
    rw [length_slice (by omega), Nat.add_sub_cancel_left]
  rw [Disk.getD_patch (by omega)]
  by_cases hin : Covered offset data (b * n + j)
  · have hrange := hin
    unfold Covered at hrange
    have hindex : written + (j - start) = b * n + j - offset := by omega
    rw [if_pos hin, if_pos (by omega), getD_slice (by omega), hindex]
  · have hrange := hin
    unfold Covered at hrange
    rw [if_neg hin, if_neg (by omega)]

theorem Placed.wrote_setBlock {mid : File} (hp : file.Placed mid b p)
    (hdata : data.length = file.blockSize) {source : List (BitVec 8)}
    (hbyte : ∀ j, j < file.blockSize → data.getD j 0 =
      if Covered offset source (b * file.blockSize + j) then
        source.getD (b * file.blockSize + j - offset) 0
      else file.vol.byte p j) :
    file.Wrote { mid with vol := mid.vol.setBlock p data } offset source b p := by
  have hblock : mid.inode.blockMap b = some p := by rw [hp.map_eq, if_pos rfl]
  obtain ⟨-, hdataBlock⟩ := hp.sound.used b p hblock
  have hlength : data.length = mid.vol.fs.blockSize.toNat := by
    rw [hdata, hp.shape.blockSize_eq]
    rfl
  refine { hp with
    sound := hp.sound.setBlock hdataBlock hlength
    shape := hp.shape.trans (hdataBlock.sameShape_setBlock hlength)
    free := ?_
    byte_eq := ?_
    others := ?_ }
  · rintro q ⟨hge, hlt, hclear⟩
    rw [hdataBlock.bit_setBlock hlength hp.sound.ready.groups_pos] at hclear
    exact hp.free q ⟨hge, hlt, hclear⟩
  · intro j hj
    rw [Volume.byte, hdataBlock.block_setBlock_self hlength]
    exact hbyte j hj
  · intro q hne hq
    rw [hdataBlock.block_setBlock_other hlength hne]
    exact hp.block_eq q hq

theorem Placed.dataBlock (hp : file.Placed file' b p) (hs : file.Sound) : file.vol.DataBlock p := by
  rcases hp.origin with hold | ⟨-, hnew⟩
  · exact (hs.used b p hold).2
  · exact hs.ready.free p hnew.1

theorem Sound.writeBlock_ok (hs : file.Sound) (hb : b + 1 < 2 ^ 32)
    (hfirst : offset < b * file.blockSize + file.blockSize)
    (hwritten : written = min data.length (b * file.blockSize - offset)) {written' : ℕ}
    (h : file.writeBlock offset data b written = (.ok written', file')) :
    (∃ p, file.Wrote file' offset data b p) ∧
      written' = min data.length ((b + 1) * file.blockSize - offset) := by
  rw [writeBlock] at h
  split at h
  · cases h
  · next p mid hfor =>
    have hp := hs.blockFor_ok hb hfor
    have hdata := hp.dataBlock hs
    have hsize : mid.blockSize = file.blockSize := by
      rw [blockSize, hp.shape.blockSize_eq]
      rfl
    have hmid : mid.vol.DataBlock p := hp.shape.dataBlock hdata
    have hlt : p < 2 ^ 32 := by
      have hmap : mid.inode.blockMap b = some p := by rw [hp.map_eq, if_pos rfl]
      have hrange := hp.sound.mapped_lt hmap
      have hper := hp.sound.ready.perGroup_le
      omega
    have hsucc : (b + 1) * file.blockSize = b * file.blockSize + file.blockSize := Nat.succ_mul _ _
    -- the place in the block where the data starts is a difference that stops at zero
    have hstart : (if b * file.blockSize < offset then offset - b * file.blockSize else 0)
        = offset - b * file.blockSize := by
      split_ifs
      · rfl
      · omega
    simp only [hsize, hstart] at h
    generalize hfrom : offset - b * file.blockSize = start at h
    by_cases hsome : 0 < min file.blockSize (data.length - written + start) - start ∧
        written < data.length
    · have hcount : min (min file.blockSize (data.length - written + start) - start)
          (data.length - written) = min (file.blockSize - start) (data.length - written) := by
        omega
      rw [if_pos hsome, hcount] at h
      have hpiece : (slice data written (written + min (file.blockSize - start)
          (data.length - written))).length =
            min (file.blockSize - start) (data.length - written) := by
        rw [length_slice (by omega), Nat.add_sub_cancel_left]
      rw [storePiece_eq hmid hlt (by rw [hsize]; omega), hp.block_eq p hdata] at h
      cases h
      refine ⟨⟨p, hp.wrote_setBlock ?_ fun j hj => ?_⟩, by omega⟩
      · exact Disk.length_patch hdata.length_block (by rw [hpiece]; omega)
      · exact byte_of_piece hdata.length_block hfrom.symm hfirst hwritten rfl hj
    · rw [if_neg hsome] at h
      cases h
      refine ⟨⟨p, hp.toGains, fun j hj => ?_, fun q _ hq => hp.block_eq q hq⟩, by omega⟩
      rw [if_neg, Volume.byte, hp.block_eq p (hp.dataBlock hs)]
      · rfl
      · rintro ⟨hge, hend⟩
        omega

end Writing

end File

end EchOS.Fs.Ext4
