import EchOS.Fs.Journal

/-! A recovery after a commit. The commit puts its descriptor where the superblock is, and the
recovery looks behind the superblock, where the first data block is. -/

namespace EchOS.Fs

open Disk List

def BlockDevice.Sane (drive : BlockDevice) : Prop := ∀ k, drive.fails k = false

namespace Journal

/-- A call that succeeds, and leaves a device without faults whose image differs only between
two addresses. -/
structure Writes (call : JournalM Unit) (drive : BlockDevice) (lo hi : ℕ) (drive' : BlockDevice) :
    Prop where
  ok : call drive = .ok () drive'
  sane : drive'.Sane
  outside : ∀ a, a < lo ∨ hi ≤ a → drive'.image a = drive.image a

variable {call : JournalM Unit} {n offset : ℕ}

theorem Writes.mono {drive drive' : BlockDevice} {lo hi lo' hi' : ℕ}
    (h : Writes call drive lo hi drive') (hlo : lo' ≤ lo) (hhi : hi ≤ hi') :
    Writes call drive lo' hi' drive' where
  ok := h.ok
  sane := h.sane
  outside a ha := h.outside a (by omega)

theorem Writes.seq {next : JournalM Unit} {drive drive' drive'' : BlockDevice} {lo hi : ℕ}
    (h : Writes call drive lo hi drive') (hnext : Writes next drive' lo hi drive'') :
    Writes (do call; next) drive lo hi drive'' where
  ok := by
    show EStateM.bind call (fun _ => next) drive = _
    unfold EStateM.bind
    rw [h.ok]
    exact hnext.ok
  sane := hnext.sane
  outside a ha := (hnext.outside a ha).trans (h.outside a ha)

theorem Writes.read_eq {drive drive' : BlockDevice} {lo hi a : ℕ}
    (h : Writes call drive lo hi drive') (hoff : a + n ≤ lo ∨ hi ≤ a) :
    read drive'.image a n = read drive.image a n :=
  read_congr fun b _ _ => h.outside b (by omega)

variable {journal : Journal} {drive : BlockDevice} {blocks : List JournalBlock}
  {data buf : List (BitVec 8)}

theorem writes_sectors (hsane : drive.Sane) (lba : ℕ) (hlength : data.length = n) :
    Writes (writeSectors lba data) drive (512 * lba) (512 * lba + n)
      { drive with image := write drive.image (512 * lba) data, calls := drive.calls + 1 } := by
  constructor
  · unfold writeSectors BlockDevice.writeSectors
    rw [if_neg (by simp [hsane drive.calls])]
    rfl
  · exact hsane
  · intro a ha
    exact write_outside (hlength ▸ ha)

theorem journalLba_eq (h : journal.startBlock + offset < 2 ^ 32) :
    journal.journalLba offset = journal.startBlock + offset :=
  Nat.mod_eq_of_lt h

theorem blockSize_ge (journal : Journal) : 512 ≤ journal.blockSize := by
  have hsectors := journal.blockSize_sectors
  have hpos := journal.blockSize_pos
  omega

theorem length_writeBe32 (hbuf : buf.length = n) (h : offset + 4 ≤ n)
    (v : ℕ) : (writeBe32 buf offset v).length = n := by
  apply length_patch hbuf
  rwa [length_toBe]

theorem length_headerBlock (journal : Journal) (blockType seq : ℕ) :
    (journal.headerBlock blockType seq).length = journal.blockSize := by
  have hsize := journal.blockSize_ge
  apply length_writeBe32 _ (by omega)
  apply length_writeBe32 _ (by omega)
  apply length_writeBe32 _ (by omega)
  exact length_replicate

@[simp] theorem length_tagBytes (seq : ℕ) (block : JournalBlock) (isLast : Bool) :
    (tagBytes seq block isLast).length = 16 := by
  simp [tagBytes]

theorem length_padded (h : data.length ≤ journal.blockSize) :
    (journal.padded data).length = journal.blockSize := by
  simp only [padded, length_append, length_replicate]
  omega

section Tags

variable {st : DescriptorState} {seq total needed i : ℕ} {block : JournalBlock}

theorem addTag_tags (h : st.tagOffset = 12 + 16 * st.tagInDesc) :
    (journal.addTag seq total needed i block st).tagOffset =
      12 + 16 * (journal.addTag seq total needed i block st).tagInDesc := by
  show st.tagOffset + 16 = 12 + 16 * (st.tagInDesc + 1)
  omega

/-- The descriptor is never written out in the loop: the count of its tags is zero only before
the first. -/
theorem writeTags_cons (h : st.tagOffset = 12 + 16 * st.tagInDesc) (rest : List JournalBlock) :
    journal.writeTags seq total needed i st (block :: rest) drive =
      if journal.blockSize < st.tagOffset + 16 then .error .panic drive
      else journal.writeTags seq total needed (i + 1)
        (journal.addTag seq total needed i block st) rest drive := by
  have hsame : ¬(st.tagInDesc = 0 ∧ 12 < st.tagOffset) := by omega
  rw [writeTags]
  split_ifs with hpanic
  · show (if journal.blockSize < st.tagOffset + 16 then _ else _ : JournalM _) drive = _
    rw [if_pos hpanic]
    rfl
  · show (if journal.blockSize < st.tagOffset + 16 then _ else _ : JournalM _) drive = _
    rw [if_neg hpanic]

theorem writeTags_fit (htags : st.tagOffset = 12 + 16 * st.tagInDesc)
    (hbuf : st.descBuf.length = journal.blockSize)
    (hfits : st.tagOffset + 16 * blocks.length ≤ journal.blockSize) :
    ∃ st', journal.writeTags seq total needed i st blocks drive = .ok st' drive ∧
      st'.descBuf.length = journal.blockSize ∧ st'.descBlockIdx = st.descBlockIdx := by
  induction blocks generalizing st i with
  | nil => exact ⟨st, rfl, hbuf, rfl⟩
  | cons block rest ih =>
    rw [length_cons] at hfits
    rw [writeTags_cons htags, if_neg (by omega)]
    apply ih (addTag_tags htags) (length_patch hbuf (by rw [length_tagBytes]; omega))
    show st.tagOffset + 16 + 16 * rest.length ≤ journal.blockSize
    omega

theorem writeTags_overrun (htags : st.tagOffset = 12 + 16 * st.tagInDesc)
    (hoffset : st.tagOffset ≤ journal.blockSize)
    (hlong : journal.blockSize < st.tagOffset + 16 * blocks.length) :
    journal.writeTags seq total needed i st blocks drive = .error .panic drive := by
  induction blocks generalizing st i with
  | nil => exact absurd hlong (Nat.not_lt.mpr hoffset)
  | cons block rest ih =>
    rw [length_cons] at hlong
    rw [writeTags_cons htags]
    split_ifs with hpanic
    · rfl
    · apply ih (addTag_tags htags)
      · exact Nat.not_lt.mp hpanic
      · show journal.blockSize < st.tagOffset + 16 + 16 * rest.length
        omega

end Tags

variable {transaction : Transaction}

theorem writeDescriptor_writes (hsane : drive.Sane) (haddr : journal.startBlock < 2 ^ 32)
    (hfits : 12 + 16 * transaction.blocks.length ≤ journal.blockSize) :
    ∃ drive', Writes (journal.writeDescriptor transaction) drive (512 * journal.startBlock)
      (512 * journal.startBlock + journal.blockSize) drive' := by
  obtain ⟨st, htags, hbuf, hidx⟩ : ∃ st, journal.writeTags (transaction.sequence % 2 ^ 32)
      transaction.blocks.length (if 0 < transaction.blocks.length then
        journal.descBlocks transaction.blocks.length else 1) 0
      ⟨journal.headerBlock jbd2DescriptorBlock (transaction.sequence % 2 ^ 32), 12, 0, 0⟩
      transaction.blocks drive = .ok st drive ∧ st.descBuf.length = journal.blockSize ∧
        st.descBlockIdx = 0 :=
    writeTags_fit rfl (journal.length_headerBlock _ _) hfits
  have hdescriptor : journal.writeDescriptor transaction drive =
      (if transaction.blocks.isEmpty then pure () else journal.flushDescriptor st) drive := by
    show EStateM.bind _ _ drive = _
    unfold EStateM.bind
    rw [htags]
  split_ifs at hdescriptor with hempty
  · exact ⟨drive, hdescriptor, hsane, fun _ _ => rfl⟩
  · have hlba : journal.journalLba st.descBlockIdx = journal.startBlock := by
      rw [hidx]
      exact journalLba_eq haddr
    have hlength := length_writeBe32 hbuf
      (Nat.le_of_eq (Nat.sub_add_cancel (Nat.le_trans (by decide) journal.blockSize_ge)))
      (crc32c (st.descBuf.take (journal.blockSize - 4))).toNat
    have hwrites := writes_sectors hsane (journal.journalLba st.descBlockIdx) hlength
    rw [hlba] at hwrites
    refine ⟨_, ?_, hwrites.sane, hwrites.outside⟩
    rw [hdescriptor]
    unfold flushDescriptor
    rw [hlba]
    exact hwrites.ok

theorem writeDescriptor_overrun (hlong : journal.blockSize < 12 + 16 * transaction.blocks.length) :
    journal.writeDescriptor transaction drive = .error .panic drive := by
  have hsize := journal.blockSize_ge
  show EStateM.bind _ _ drive = _
  unfold EStateM.bind
  rw [writeTags_overrun rfl (by show 12 ≤ _; omega) hlong]

/-- Data blocks follow each other by one sector, so only the first sector of each is sure to
stay. -/
theorem writeBlocks_writes (hsane : drive.Sane)
    (haddr : journal.startBlock + offset + blocks.length ≤ 2 ^ 32)
    (hdata : ∀ block ∈ blocks, block.data.length ≤ journal.blockSize) :
    ∃ drive', Writes (journal.writeBlocks offset blocks) drive
      (512 * (journal.startBlock + offset))
      (512 * (journal.startBlock + offset + blocks.length) + journal.blockSize) drive' ∧
      ∀ block rest, blocks = block :: rest →
        read drive'.image (512 * (journal.startBlock + offset)) 512 =
          (journal.padded block.data).take 512 := by
  induction blocks generalizing offset drive with
  | nil => exact ⟨drive, ⟨rfl, hsane, fun _ _ => rfl⟩, nofun⟩
  | cons block rest ih =>
    obtain ⟨hblock, hrest⟩ := forall_mem_cons.mp hdata
    rw [length_cons] at haddr ⊢
    have hlba : journal.journalLba offset = journal.startBlock + offset :=
      journalLba_eq (by omega)
    have hfirst := writes_sectors hsane (journal.startBlock + offset) (length_padded hblock)
    have haddr' : journal.startBlock + (offset + 1) + rest.length ≤ 2 ^ 32 := by omega
    obtain ⟨drive', hnext, _⟩ := ih hfirst.sane haddr' hrest
    refine ⟨drive', ?_, ?_⟩
    · have hcall : journal.writeBlocks offset (block :: rest) = (do
          writeSectors (journal.startBlock + offset) (journal.padded block.data)
          journal.writeBlocks (offset + 1) rest) := by
        rw [writeBlocks, if_neg (Nat.not_lt.mpr hblock), hlba]
      rw [hcall]
      exact (hfirst.mono (by omega) (by omega)).seq (hnext.mono (by omega) (by omega))
    · intro first _ heq
      obtain ⟨rfl, -⟩ := cons.inj heq
      have hsize := journal.blockSize_ge
      rw [hnext.read_eq (.inl (by omega))]
      exact read_write 0 (by rw [length_padded hblock]; omega)

structure OneSector (journal : Journal) (buf : List (BitVec 8)) : Prop where
  length : buf.length = journal.blockSize
  tail : buf.drop 512 = List.replicate (journal.blockSize - 512) 0

theorem OneSector.patch {bytes : List (BitVec 8)} (h : journal.OneSector buf)
    (hfits : offset + bytes.length ≤ 512) : journal.OneSector (patch buf offset bytes) := by
  have hsize := journal.blockSize_ge
  have hlength := h.length
  constructor
  · exact length_patch h.length (by omega)
  · rw [drop_patch (by omega) hfits, h.tail]

theorem oneSector_commitBlock (journal : Journal) (transaction : Transaction) :
    journal.OneSector (journal.commitBlock transaction) := by
  have hzero : journal.OneSector (replicate journal.blockSize 0) :=
    ⟨length_replicate, drop_replicate⟩
  repeat' apply OneSector.patch
  · exact hzero
  all_goals simp

theorem descBlocks_eq_one {total : ℕ} (hpos : 0 < total)
    (hfits : 12 + 16 * total ≤ journal.blockSize) : journal.descBlocks total = 1 := by
  have hsectors := journal.blockSize_sectors
  have htags : total ≤ journal.tagsPerBlock := by
    unfold tagsPerBlock
    omega
  unfold descBlocks
  rw [if_pos hpos]
  apply Nat.div_eq_of_lt_le
  · omega
  · omega

/-- A transaction with its descriptor, data and commit blocks fits the journal, which lies in
the sectors that can be addressed. -/
structure Fits (journal : Journal) (blocks : List JournalBlock) : Prop where
  room : journal.descBlocks blocks.length + blocks.length + 1 ≤ journal.totalBlocks
  addressable : journal.startBlock + journal.totalBlocks ≤ 2 ^ 32
  data : ∀ block ∈ blocks, block.data.length ≤ journal.blockSize

/-- The addresses that blocks which begin in the journal can take. -/
def InJournal (journal : Journal) (a : ℕ) : Prop :=
  512 * journal.startBlock ≤ a ∧
    a < 512 * (journal.startBlock + journal.totalBlocks - 1) + journal.blockSize

/-- What the block behind the superblock will begin with does not look like a journal block: the
data of the first block, or what is there already if there is none. -/
def QuietStart (journal : Journal) (drive : BlockDevice) : List JournalBlock → Prop
  | [] => be32 (journal.readBlock drive 1) 0 ≠ jbd2MagicNumber
  | block :: _ => be32 (journal.padded block.data) 0 ≠ jbd2MagicNumber

theorem be32_read_eq {image : Image} {a : ℕ} (h : 4 ≤ n) :
    be32 (read image a n) 0 = ofBe (read image a 4) := by
  rw [be32, drop_zero, read_take 4 h]

theorem readBlock_eq (h : journal.startBlock + offset < 2 ^ 32) :
    journal.readBlock drive offset =
      read drive.image (512 * (journal.startBlock + offset)) journal.blockSize := by
  have hsectors := journal.blockSize_sectors
  have hbytes : 512 * (journal.blockSize / 512 % 256) = journal.blockSize := by
    rw [Nat.mod_eq_of_lt journal.blockSize_lt]
    omega
  unfold readBlock BlockDevice.readSectors BlockDevice.sectorSize
  rw [journalLba_eq h, hbytes]

section

variable (hsane : drive.Sane)
include hsane

theorem writes_nothing (h : call drive = .ok () drive) (lo hi : ℕ) :
    Writes call drive lo hi drive :=
  ⟨h, hsane, fun _ _ => rfl⟩

theorem writeCommit_writes
    (haddr : journal.startBlock +
      (journal.descBlocks transaction.blocks.length + transaction.blocks.length) < 2 ^ 32)
    (hoffset : journal.descBlocks transaction.blocks.length + transaction.blocks.length = offset) :
    Writes (journal.writeCommit transaction) drive (512 * (journal.startBlock + offset))
      (512 * (journal.startBlock + offset) + journal.blockSize) { drive with
        image := write drive.image (512 * (journal.startBlock + offset))
          (journal.commitBlock transaction)
        calls := drive.calls + 1 } := by
  have hlength := (journal.oneSector_commitBlock transaction).length
  have hwrites := writes_sectors hsane (journal.startBlock + offset) hlength
  refine ⟨?_, hwrites.sane, hwrites.outside⟩
  unfold writeCommit
  rw [journalLba_eq haddr, hoffset]
  exact hwrites.ok

theorem writeTransaction_empty (hfits : journal.Fits transaction.blocks)
    (hempty : transaction.blocks = []) (hquiet : journal.QuietStart drive []) :
    ∃ drive', Writes (journal.writeTransaction transaction) drive (512 * journal.startBlock)
      (512 * (journal.startBlock + journal.totalBlocks - 1) + journal.blockSize) drive' ∧
      (1 < journal.totalBlocks → be32 (journal.readBlock drive' 1) 0 ≠ jbd2MagicNumber) := by
  have hsize := journal.blockSize_ge
  have hroom := hfits.room
  have haddr := hfits.addressable
  have hdescriptor : journal.writeDescriptor transaction drive = .ok () drive := by
    unfold writeDescriptor
    rw [hempty]
    rfl
  have hdata : journal.writeDataBlocks transaction drive = .ok () drive := by
    unfold writeDataBlocks
    rw [hempty]
    rfl
  have hoffset : journal.descBlocks transaction.blocks.length + transaction.blocks.length = 0 := by
    rw [hempty]
    rfl
  have hcommit := writeCommit_writes hsane (by omega) hoffset
  refine ⟨_, (writes_nothing hsane hdescriptor _ _).seq ((writes_nothing hsane hdata _ _).seq
    (hcommit.mono (by omega) (by omega))), ?_⟩
  intro htotal
  rw [readBlock_eq (by omega), be32_read_eq (by omega)]
  by_cases hsector : journal.blockSize = 512
  · -- the block behind is the one that was there
    rw [hcommit.read_eq (.inr (by omega))]
    unfold QuietStart at hquiet
    rwa [readBlock_eq (by omega), be32_read_eq (by omega)] at hquiet
  · -- the sector behind is the second one of the commit block
    have hsectors := journal.blockSize_sectors
    have hzeros : read (write drive.image (512 * (journal.startBlock + 0))
        (journal.commitBlock transaction)) (512 * (journal.startBlock + 0) + 512) 4 =
        (replicate (journal.blockSize - 512) 0).take 4 := by
      rw [read_write 512, (journal.oneSector_commitBlock transaction).tail]
      rw [(journal.oneSector_commitBlock transaction).length]
      omega
    have hplace : 512 * (journal.startBlock + 1) = 512 * (journal.startBlock + 0) + 512 := by omega
    rw [hplace, hzeros, take_replicate, Nat.min_eq_left (by omega)]
    decide

theorem writeTransaction_blocks (hfits : journal.Fits transaction.blocks) {block : JournalBlock}
    {rest : List JournalBlock} (hblocks : transaction.blocks = block :: rest)
    (htags : 12 + 16 * transaction.blocks.length ≤ journal.blockSize) :
    ∃ drive', Writes (journal.writeTransaction transaction) drive (512 * journal.startBlock)
      (512 * (journal.startBlock + journal.totalBlocks - 1) + journal.blockSize) drive' ∧
      be32 (journal.readBlock drive' 1) 0 = be32 (journal.padded block.data) 0 := by
  have hroom := hfits.room
  have haddr := hfits.addressable
  have hpos : 0 < transaction.blocks.length := by
    rw [hblocks]
    exact Nat.succ_pos _
  have hone := descBlocks_eq_one hpos htags
  have hstart : journal.startBlock < 2 ^ 32 := by omega
  have hplaces : journal.startBlock + 1 + transaction.blocks.length ≤ 2 ^ 32 := by omega
  obtain ⟨drive₁, hdescriptor⟩ := writeDescriptor_writes hsane hstart htags
  obtain ⟨drive₂, hdata, hfirst⟩ := writeBlocks_writes hdescriptor.sane hplaces hfits.data
  have hoffset : journal.descBlocks transaction.blocks.length + transaction.blocks.length =
      1 + transaction.blocks.length := by rw [hone]
  have hcommit := writeCommit_writes hdata.sane (by omega) hoffset
  have hdata' : Writes (journal.writeDataBlocks transaction) drive₁
      (512 * (journal.startBlock + 1))
      (512 * (journal.startBlock + 1 + transaction.blocks.length) + journal.blockSize) drive₂ := by
    unfold writeDataBlocks
    rw [hone]
    exact hdata
  refine ⟨_, (hdescriptor.mono (by omega) (by omega)).seq ((hdata'.mono (by omega) (by omega)).seq
    (hcommit.mono (by omega) (by omega))), ?_⟩
  have hsector := congrArg (take 4) (hfirst block rest hblocks)
  rw [read_take 4 (by decide), take_take] at hsector
  rw [readBlock_eq (by omega), be32_read_eq (by omega), hcommit.read_eq (.inl (by omega)), hsector]
  rfl

end

theorem recover_quiet (journal : Journal) (drive : BlockDevice)
    (h : 1 < journal.totalBlocks → be32 (journal.readBlock drive 1) 0 ≠ jbd2MagicNumber) :
    journal.recover drive = some (.ok 0, drive) := by
  have hround : journal.scanRound ⟨1, 0, drive⟩ = some (.inr (.ok 0, drive)) := by
    unfold scanRound
    dsimp only
    split_ifs with htotal hlength hmagic
    · rfl
    · rfl
    · rfl
    all_goals exact absurd (h (Nat.not_le.mp htotal)) hmagic
  unfold recover
  dsimp only
  split_ifs
  · rfl
  · rfl
  · exact Loop.run_done hround (Nat.succ_pos _)

/-- The image with every block of a transaction at its place, and nothing else changed. -/
def replayed (journal : Journal) (blocks : List JournalBlock) (image : Image) : Image :=
  blocks.foldl (fun image block =>
    write image (512 * block.fsBlock) (journal.padded block.data)) image

/-- The commit and the recovery after it succeed, and outside of the journal each block of the
transaction is at its place and nothing else has changed. -/
def RecoversCommit (journal : Journal) (drive : BlockDevice) (blocks : List JournalBlock) : Prop :=
  ∃ journal' drive' recovered drive'',
    journal.commitTransaction drive = (.ok (), journal', drive') ∧
    journal'.recover drive' = some (.ok recovered, drive'') ∧
    ∀ a, ¬journal.InJournal a → drive''.image a = journal.replayed blocks drive.image a

section Commit

variable (hcurrent : journal.currentTransaction = some transaction)
  (haborted : journal.aborted = false)

include hcurrent haborted

theorem commitTransaction_overrun
    (hlong : journal.blockSize < 12 + 16 * transaction.blocks.length) :
    (journal.commitTransaction drive).1 = .error .panic := by
  have hdescriptor : Journal.writeDescriptor { journal with currentTransaction := none } transaction
      drive = .error .panic drive := writeDescriptor_overrun hlong
  have hwrite : Journal.writeTransaction { journal with currentTransaction := none } transaction
      drive = .error .panic drive := by
    show EStateM.bind _ _ drive = _
    unfold EStateM.bind
    rw [hdescriptor]
  unfold commitTransaction
  rw [hcurrent]
  dsimp only
  rw [if_neg (by simp [haborted]), hwrite]

theorem commitTransaction_recover (hsane : drive.Sane) (hfits : journal.Fits transaction.blocks)
    (htags : 12 + 16 * transaction.blocks.length ≤ journal.blockSize)
    (hquiet : journal.QuietStart drive transaction.blocks) :
    ∃ journal' drive', journal.commitTransaction drive = (.ok (), journal', drive') ∧
      journal'.recover drive' = some (.ok 0, drive') ∧
      ∀ a, ¬journal.InJournal a → drive'.image a = drive.image a := by
  have hfits' : Journal.Fits { journal with currentTransaction := none } transaction.blocks :=
    ⟨hfits.room, hfits.addressable, hfits.data⟩
  obtain ⟨drive', hwrites, hfirst⟩ : ∃ drive', Writes (Journal.writeTransaction
      { journal with currentTransaction := none } transaction) drive (512 * journal.startBlock)
      (512 * (journal.startBlock + journal.totalBlocks - 1) + journal.blockSize) drive' ∧
      (1 < journal.totalBlocks → be32 (journal.readBlock drive' 1) 0 ≠ jbd2MagicNumber) := by
    cases hblocks : transaction.blocks with
    | nil =>
      rw [hblocks] at hquiet
      exact writeTransaction_empty hsane hfits' hblocks hquiet
    | cons block rest =>
      rw [hblocks] at hquiet
      obtain ⟨drive', hwrites, hfirst⟩ := writeTransaction_blocks hsane hfits' hblocks htags
      refine ⟨drive', hwrites, fun _ heq => hquiet ?_⟩
      exact hfirst.symm.trans heq
  have hcommit : ∃ journal', journal.commitTransaction drive = (.ok (), journal', drive') ∧
      journal'.recover drive' = some (.ok 0, drive') := by
    unfold commitTransaction
    rw [hcurrent]
    dsimp only
    rw [if_neg (by simp [haborted]), hwrites.ok]
    exact ⟨_, rfl, recover_quiet _ _ hfirst⟩
  obtain ⟨journal', hcommit, hrecover⟩ := hcommit
  refine ⟨journal', drive', hcommit, hrecover, ?_⟩
  intro a ha
  apply hwrites.outside
  unfold InJournal at ha
  show a < 512 * journal.startBlock ∨
    512 * (journal.startBlock + journal.totalBlocks - 1) + journal.blockSize ≤ a
  omega

end Commit

/-- For a transaction whose first block does not look like a journal block: the recovery puts
nothing in its place, so all is as it should be exactly if one descriptor is enough and every
block was in its place before. -/
theorem recoversCommit_iff (journal : Journal) (drive : BlockDevice) (transaction : Transaction)
    (hcurrent : journal.currentTransaction = some transaction) (haborted : journal.aborted = false)
    (hsane : drive.Sane) (hfits : journal.Fits transaction.blocks)
    (hquiet : journal.QuietStart drive transaction.blocks) :
    journal.RecoversCommit drive transaction.blocks ↔
      12 + 16 * transaction.blocks.length ≤ journal.blockSize ∧
        ∀ a, ¬journal.InJournal a →
          journal.replayed transaction.blocks drive.image a = drive.image a := by
  constructor
  · rintro ⟨journal', drive', recovered, drive'', hcommit, hrecover, hplaced⟩
    have htags : 12 + 16 * transaction.blocks.length ≤ journal.blockSize := by
      by_contra hlong
      have hpanic : (journal.commitTransaction drive).1 = .error .panic :=
        commitTransaction_overrun hcurrent haborted (Nat.not_le.mp hlong)
      rw [hcommit] at hpanic
      cases hpanic
    obtain ⟨journal₁, drive₁, hcommit₁, hrecover₁, houtside⟩ :=
      commitTransaction_recover hcurrent haborted hsane hfits htags hquiet
    obtain ⟨-, rfl, rfl⟩ : () = () ∧ journal' = journal₁ ∧ drive' = drive₁ := by
      simpa using hcommit.symm.trans hcommit₁
    obtain ⟨-, rfl⟩ : recovered = 0 ∧ drive'' = drive' := by
      simpa using hrecover.symm.trans hrecover₁
    refine ⟨htags, fun a ha => ?_⟩
    rw [← hplaced a ha, houtside a ha]
  · rintro ⟨htags, hheld⟩
    obtain ⟨journal', drive', hcommit, hrecover, houtside⟩ :=
      commitTransaction_recover hcurrent haborted hsane hfits htags hquiet
    refine ⟨journal', drive', 0, drive', hcommit, hrecover, ?_⟩
    intro a ha
    rw [houtside a ha, hheld a ha]

/-- A journal at sector ten of 50 blocks of 512 bytes, with a transaction under way. -/
def sample (blocks : List JournalBlock) : Journal where
  startBlock := 10
  totalBlocks := 50
  blockSize := 512
  currentTransaction := some ⟨1, .running, 1, blocks⟩
  transactionQueue := []
  headSequence := 0
  aborted := false
  stats := ⟨0, 0, 0⟩
  blockSize_sectors := rfl
  blockSize_pos := Nat.le_of_ble_eq_true rfl
  blockSize_lt := Nat.le_of_ble_eq_true rfl

def blank : BlockDevice := ⟨fun _ => 0, 0, fun _ => false⟩

def twoBlocks : List JournalBlock := [⟨100, [7], false, 0⟩, ⟨101, [8, 9], false, 0⟩]

def held : BlockDevice :=
  { blank with image := (sample twoBlocks).replayed twoBlocks blank.image }

/-- Two blocks that the device holds already. -/
theorem recoversCommit_iff_held : (sample twoBlocks).RecoversCommit held twoBlocks := by
  refine (recoversCommit_iff (sample twoBlocks) held ⟨1, .running, 1, twoBlocks⟩ rfl rfl
    (fun _ => rfl) ⟨by decide, by decide, by decide⟩ (by show _ ≠ _; decide)).mpr
    ⟨by decide, fun a _ => ?_⟩
  simp only [held, replayed, twoBlocks, foldl_cons, foldl_nil, write]
  split_ifs
  · rfl
  · rfl
  · rfl

/-- The commit of one block succeeds, and the recovery leaves its place as it was; with more
blocks than a descriptor has tags the commit does not return. -/
theorem recovery_loses_block :
    ((sample [⟨100, [7], false, 0⟩]).commitTransaction blank).1 = .ok () ∧
    ((((sample [⟨100, [7], false, 0⟩]).commitTransaction blank).2.1.recover
      ((sample [⟨100, [7], false, 0⟩]).commitTransaction blank).2.2).map fun result =>
        (result.1, result.2.image (512 * 100))) = some (.ok 0, 0) ∧
    ((sample (List.replicate 32 ⟨100, [7], false, 0⟩)).commitTransaction blank).1 =
      .error .panic := by
  decide +kernel

end Journal

end EchOS.Fs
