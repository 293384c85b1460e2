import EchOS.Fs.Jbd2Crash

/-! Which commits of the ext4 journal are atomic: those that write no commit block, and those that
change nothing. -/

namespace EchOS.Fs.Jbd2

open Disk Effect List Relates

namespace Geometry

def logStart (geometry : Geometry) : ℕ := 512 * (geometry.journalOffset / geometry.blockSize)

def logEnd (geometry : Geometry) (blocks : List TransactionBlock) : ℕ :=
  geometry.logStart + 512 * (blocks.length + 2) + geometry.blockSize

def superblockStart (geometry : Geometry) : ℕ := 512 * (geometry.journalOffset / 512 % 2 ^ 32)

/-- Blocks of a transaction that lie off the journal, and for which the journal has room. A commit
counts the journal's blocks as sectors, and must not reach the superblock with that. -/
structure Fits (geometry : Geometry) (blocks : List TransactionBlock) : Prop where
  addressable : geometry.journalOffset / geometry.blockSize + 2 + blocks.length < 2 ^ 32
  superblock : geometry.journalOffset ≤ geometry.logStart ∨
    geometry.logEnd blocks ≤ geometry.journalOffset
  log : ∀ b ∈ blocks, 512 * b.blockNr.toNat + geometry.blockSize ≤ geometry.logStart ∨
    geometry.logEnd blocks ≤ 512 * b.blockNr.toNat
  targets : ∀ b ∈ blocks,
    512 * b.blockNr.toNat + geometry.blockSize ≤ geometry.superblockStart ∨
      geometry.superblockStart + geometry.blockSize ≤ 512 * b.blockNr.toNat

def second (geometry : Geometry) (start : BitVec 32) : ℕ :=
  512 * ((geometry.journalOffset / 512 + (start.toNat + 1) * geometry.blockSize / 512) % 2 ^ 32)

variable {geometry : Geometry} {blocks : List TransactionBlock}

theorem logStart_le : geometry.logStart ≤ geometry.journalOffset := by
  have hblock := geometry.blockSize_ge
  calc geometry.logStart ≤ geometry.blockSize * (geometry.journalOffset / geometry.blockSize) :=
        Nat.mul_le_mul_right _ hblock
    _ ≤ geometry.journalOffset := Nat.mul_div_le _ _

theorem logEnd_eq (geometry : Geometry) (blocks : List TransactionBlock) :
    geometry.logEnd blocks = geometry.logStart + 512 * (blocks.length + 2) + geometry.blockSize :=
  rfl

theorem commitLba_succ (geometry : Geometry) (i : ℕ) :
    (geometry.commitLba i + 1) % 2 ^ 32 = geometry.commitLba (i + 1) := by
  unfold commitLba
  omega

theorem commitLba_eq (hfits : geometry.Fits blocks) {i : ℕ} (h : i ≤ 2 + blocks.length) :
    512 * geometry.commitLba i = geometry.logStart + 512 * i := by
  have haddr := hfits.addressable
  rw [commitLba, Nat.mod_eq_of_lt (by omega), logStart, Nat.mul_add]

theorem block_write {image : Image} {data : List (BitVec 8)} {b : TransactionBlock} {a : ℕ}
    (h : 512 * b.blockNr.toNat + geometry.blockSize ≤ a ∨ a + data.length ≤ 512 * b.blockNr.toNat) :
    geometry.block (write image a data) b = geometry.block image b := by
  apply read_congr
  intro k hle hlt
  exact write_outside (by omega)

end Geometry

namespace Journal

variable {journal : Journal} {trans : Transaction} {image image₀ : Image} {J : Image → Prop}
  {i : ℕ} {b : TransactionBlock}

/-! ### What a commit puts in the journal -/

/-- The blocks that a commit writes behind the superblock, without their checksums. -/
def log (journal : Journal) (trans : Transaction) : List (List (BitVec 8)) :=
  journal.descriptor trans :: (trans.blocks.map fun b => journal.padded b.data) ++
    [(CommitBlock.new (BitVec.ofNat 32 trans.tid)).serialize journal.blockSize]

theorem length_log : (journal.log trans).length = trans.blocks.length + 2 := by
  simp [log]

theorem log_block (h : trans.blocks[i]? = some b) :
    (journal.log trans)[1 + i]? = some (journal.padded b.data) := by
  obtain ⟨hi, -⟩ := List.getElem?_eq_some_iff.mp h
  rw [log, Nat.add_comm, cons_append, getElem?_cons_succ, getElem?_append_left (by simpa using hi),
    getElem?_map, h]
  rfl

theorem log_commit : (journal.log trans)[1 + trans.blocks.length]? =
    some ((CommitBlock.new (BitVec.ofNat 32 trans.tid)).serialize journal.blockSize) := by
  rw [log, Nat.add_comm, cons_append, getElem?_cons_succ, getElem?_append_right (by simp)]
  simp

/-- Nothing is left to recover: the superblock says so, as every commit and every recovery leaves
it; or the second block that a scan reads is not a journal block, and nothing that a commit puts
there is one. -/
def Quiet (journal : Journal) (trans : Transaction) (image : Image) : Prop :=
  let start := word image (journal.journalOffset + 52)
  let second := journal.second start
  start = 0 ∨ journal.journalOffset ≤ second ∧ word image second ≠ jbd2Magic ∧
    ∀ i < (journal.log trans).length, journal.logStart + 512 * (1 + i) ≤ second →
      second < journal.logStart + 512 * (1 + i) + journal.blockSize →
      be32 ((journal.log trans).getD i []) (second - (journal.logStart + 512 * (1 + i))) ≠ jbd2Magic

/-- What every image during a commit that does not move a target block has. -/
structure Kept (journal : Journal) (trans : Transaction) (image₀ image : Image) : Prop where
  quiet : journal.Quiet trans image
  blocks : ∀ b ∈ trans.blocks, journal.block image b = journal.block image₀ b

theorem recovered_block (hfits : journal.Fits trans.blocks) (hquiet : journal.Quiet trans image)
    (journalSize size : ℕ) (hb : b ∈ trans.blocks) :
    journal.block (journal.recovered journalSize size image) b = journal.block image b := by
  unfold Geometry.recovered
  cases hinit : (Journal.new journal.toGeometry journalSize).init size image with
  | error e => rfl
  | ok recovering =>
    obtain ⟨hgeometry, hstart⟩ := init_ok hinit
    have hsize : recovering.blockSize = journal.blockSize := congrArg (·.blockSize) hgeometry
    have hoffset : recovering.journalOffset = journal.journalOffset :=
      congrArg (·.journalOffset) hgeometry
    change recovering.superblock.sStart = word image (journal.journalOffset + 52) at hstart
    dsimp only
    obtain hclean | ⟨-, hmagic, -⟩ := hquiet
    · rw [recover_clean (hstart.trans hclean)]
    · have hoff := hfits.targets b hb
      apply read_congr
      intro a hle hlt
      apply recover_quiet
      · have hsectors := journal.blockSize_ge
        have hcount := journal.blockSize_lt
        rw [hstart, readBlock, hsize, hoffset, BlockDevice.readSectors, be32_read]
        · exact hmagic
        · rw [BlockDevice.sectorSize, Nat.mod_eq_of_lt hcount]
          omega
      · rw [hoffset, hsize]
        unfold Geometry.superblockStart at hoff
        omega

theorem Kept.log (hfits : journal.Fits trans.blocks) {entry out : List (BitVec 8)}
    (hentry : (journal.log trans)[i]? = some entry) (hlength : out.length = journal.blockSize)
    (hfront : out.take (journal.blockSize - 4) = entry.take (journal.blockSize - 4))
    (h : journal.Kept trans image₀ image) :
    journal.Kept trans image₀ (write image (512 * journal.commitLba (1 + i)) out) := by
  obtain ⟨hi, hget⟩ := List.getElem?_eq_some_iff.mp hentry
  have hcount : (journal.log trans).length = trans.blocks.length + 2 := length_log
  have hsectors := journal.blockSize_sectors
  have hsuperblock := hfits.superblock
  have hend := journal.logEnd_eq trans.blocks
  have hstart : journal.logStart % 512 = 0 := Nat.mul_mod_right _ _
  rw [Geometry.commitLba_eq hfits (by omega)]
  have hfield : word (write image (journal.logStart + 512 * (1 + i)) out)
      (journal.journalOffset + 52) = word image (journal.journalOffset + 52) :=
    word_write_outside (by omega)
  constructor
  · unfold Quiet
    rw [hfield]
    obtain hclean | ⟨hbehind, hmagic, hplain⟩ := h.quiet
    · exact .inl hclean
    · refine .inr ⟨hbehind, ?_, hplain⟩
      -- the place that the scan reads is inside the block or off it, since both begin at sectors
      let second := journal.second (word image (journal.journalOffset + 52))
      have hsecond : second % 512 = 0 := Nat.mul_mod_right _ _
      change word _ second ≠ _
      by_cases hin : journal.logStart + 512 * (1 + i) ≤ second ∧
          second < journal.logStart + 512 * (1 + i) + journal.blockSize
      · have hword := hplain i hi hin.1 hin.2
        rw [getD_eq_getElem _ _ hi, hget] at hword
        have hplace : second = journal.logStart + 512 * (1 + i) +
          (second - (journal.logStart + 512 * (1 + i))) := by omega
        rw [hplace, word_write_inside (by omega), be32_stamp hfront (by omega)]
        exact hword
      · rw [word_write_outside (by omega)]
        exact hmagic
  · intro b hb
    have hoff := hfits.log b hb
    rw [Geometry.block_write (by omega)]
    exact h.blocks b hb

theorem Kept.target (h : journal.Kept trans image₀ image)
    (hb : b ∈ trans.blocks) (hheld : journal.block image₀ b = journal.contents b) :
    journal.Kept trans image₀ (write image (512 * b.blockNr.toNat) (journal.contents b)) := by
  rw [← hheld, ← h.blocks b hb, Geometry.block, write_read_self]
  exact h

theorem Kept.superblock (hfits : journal.Fits trans.blocks) {out : List (BitVec 8)}
    (hlength : out.length = journal.blockSize) (hstart : be32 out 52 = 0)
    (h : journal.Kept trans image₀ image) :
    journal.Kept trans image₀ (write image (512 * journal.commitLba 0) out) := by
  have hsize := journal.blockSize_ge
  have hle := journal.logStart_le
  have hend := journal.logEnd_eq trans.blocks
  rw [Geometry.commitLba_eq hfits (Nat.zero_le _)]
  constructor
  · obtain hhere | hfar := hfits.superblock
    · left
      have hplace : journal.journalOffset + 52 = journal.logStart + 512 * 0 + 52 := by omega
      rw [hplace, word_write_inside (by omega), hstart]
    · unfold Quiet
      rw [word_write_outside (by omega)]
      obtain hclean | ⟨hbehind, hmagic, hplain⟩ := h.quiet
      · exact .inl hclean
      · refine .inr ⟨hbehind, ?_, hplain⟩
        rw [word_write_outside (by omega)]
        exact hmagic
  · intro b hb
    have hoff := hfits.log b hb
    rw [Geometry.block_write (by omega)]
    exact h.blocks b hb

end Journal

/-! ### The stages of a commit -/

def Keeps (J : Image → Prop) (c c' : Commit) : Prop := J c.drive.image → J c'.drive.image

section Stages

variable {J : Image → Prop} (phase : JournalCommitPhase)

instance : IsPreorder Commit (Keeps J) where
  refl _ := id
  trans _ _ _ h h' hc := h' (h hc)

theorem relates_writeSectors {lba : ℕ} {data : List (BitVec 8)}
    (h : ∀ image, J image → J (write image (512 * lba) data)) :
    Relates (Keeps J) (writeSectors lba data) := by
  intro c hc
  unfold Effect.after writeSectors onDrive BlockDevice.writeSectors
  split_ifs with hfail
  · exact hc
  · exact h _ hc

theorem relates_flush : Relates (Keeps J) flush := by
  intro c hc
  unfold Effect.after flush onDrive BlockDevice.flush
  split_ifs with hfail
  · exact hc
  · exact hc

theorem relates_setPhase : Relates (Keeps J) (setPhase phase) := relates_modify fun _ hc => hc

theorem relates_requirePhase : Relates (Keeps J) (requirePhase phase) := by
  refine relates_get.bind fun c => ?_
  exact ite (relates_pure _) (relates_throw _)

theorem relates_liftExcept {α β : Type} {e : Except JournalError α} {next : α → CommitM β}
    (h : ∀ a, e = .ok a → Relates (Keeps J) (next a)) :
    Relates (Keeps J) (liftExcept e >>= next) := by
  cases e with
  | error e => exact fun _ => id
  | ok a => exact h a rfl

theorem relates_writeStamped {block : List (BitVec 8)} {blockSize lba : ℕ} {next : CommitM Unit}
    (hsize : 4 ≤ blockSize) (hlength : block.length = blockSize)
    (h : ∀ out image, out.length = blockSize →
      out.take (blockSize - 4) = block.take (blockSize - 4) →
      J image → J (write image (512 * lba) out)) (hnext : Relates (Keeps J) next) :
    Relates (Keeps J) (liftExcept (stampJournalBlockChecksum block blockSize) >>= fun out =>
      writeSectors lba out >>= fun _ => next) := by
  apply relates_liftExcept
  intro data hstamp
  obtain ⟨hlength, hfront⟩ := length_stamp hsize hlength hstamp
  exact bind (relates_writeSectors fun image => h data image hlength hfront) fun _ => hnext

end Stages

namespace Journal

variable {journal : Journal} {trans : Transaction} {image₀ : Image} {J : Image → Prop}
  {blocks : List TransactionBlock} {c c' : Commit} {phase : JournalCommitPhase}
  {blockSize m n : ℕ}

theorem length_writeTags {offset : ℕ} {descriptor : List (BitVec 8)}
    (hlength : descriptor.length = blockSize) (h4 : 4 ≤ blockSize) :
    (writeTags blockSize offset descriptor blocks).length = blockSize := by
  induction blocks generalizing offset descriptor with
  | nil => exact hlength
  | cons block rest ih =>
    rw [writeTags]
    split_ifs with hfull
    · exact hlength
    · apply ih
      apply length_patch hlength
      have htag : (tagBytes block).length = 8 := by simp [tagBytes, length_toBeBytes]
      omega

theorem length_descriptor (journal : Journal) (trans : Transaction) :
    (journal.descriptor trans).length = journal.blockSize := by
  have hsize := journal.blockSize_ge
  apply length_writeTags _ (by omega)
  apply length_patch length_replicate
  simp only [JournalHeader.serialize, length_append, length_toBeBytes]
  omega

theorem length_commitBlock (seq : BitVec 32) (h : 512 ≤ blockSize) :
    ((CommitBlock.new seq).serialize blockSize).length = blockSize := by
  have hheader : (CommitBlock.new seq).header.serialize.length = 12 := by
    simp only [JournalHeader.serialize, length_append, length_toBeBytes]
  apply length_patch _ (by simp [CommitBlock.new]; omega)
  apply length_patch _ (by simp [CommitBlock.new]; omega)
  apply length_patch _ (by simp [CommitBlock.new]; omega)
  apply length_patch _ (by simp [CommitBlock.new]; omega)
  exact length_patch length_replicate (by omega)

theorem relates_writeCommitBlock (h : ∀ out image, out.length = journal.blockSize →
      out.take (journal.blockSize - 4) = ((CommitBlock.new (BitVec.ofNat 32 trans.tid)).serialize
        journal.blockSize).take (journal.blockSize - 4) →
      J image → J (write image (512 * journal.commitLba (2 + trans.blocks.length)) out)) :
    Relates (Keeps J) (journal.writeCommitBlock trans) := by
  have hsize := journal.blockSize_ge
  refine bind (relates_requirePhase _) fun _ => ?_
  exact relates_writeStamped (by omega) (length_commitBlock _ hsize) h (relates_setPhase _)

section Log

variable (hlog : ∀ {i : ℕ} {entry out : List (BitVec 8)} {image : Image},
  (journal.log trans)[i]? = some entry → out.length = journal.blockSize →
    out.take (journal.blockSize - 4) = entry.take (journal.blockSize - 4) →
    J image → J (write image (512 * journal.commitLba (1 + i)) out))
include hlog

theorem relates_writeBlocks {j : ℕ} (hblocks : trans.blocks.drop j = blocks) :
    Relates (Keeps J) (journal.writeBlocks (journal.commitLba (2 + j)) blocks) := by
  have hsize := journal.blockSize_ge
  induction blocks generalizing j with
  | nil => exact relates_pure _
  | cons block rest ih =>
    have hblock : trans.blocks[j]? = some block := by
      rw [← Nat.add_zero j, ← getElem?_drop, hblocks]
      rfl
    have hrest : trans.blocks.drop (j + 1) = rest := by
      rw [← drop_drop, hblocks, drop_one, tail_cons]
    unfold writeBlocks
    split_ifs with hlong
    · exact relates_throw _
    · have hlength : block.data.length ≤ journal.blockSize := by omega
      refine relates_writeStamped (by omega) (Geometry.length_padded hlength) ?_ ?_
      · intro out image hout hfront himage
        have hplace : 2 + j = 1 + (1 + j) := by omega
        rw [hplace]
        exact hlog (log_block hblock) hout hfront himage
      · rw [journal.commitLba_succ]
        exact ih hrest

/-- What no block of the log breaks is kept up to the commit block. -/
theorem relates_writeLog : Relates (Keeps J) (journal.writeLog trans) := by
  have hsize := journal.blockSize_ge
  have hfirst : (journal.log trans)[0]? = some (journal.descriptor trans) := rfl
  refine bind (bind (relates_setPhase _) fun _ => ?_) fun _ => ?_
  · exact relates_writeStamped (by omega) (journal.length_descriptor trans)
      (fun _ _ => hlog hfirst) (relates_setPhase _)
  refine bind (bind (relates_requirePhase _) fun _ => ?_) fun _ => ?_
  · exact bind (relates_writeBlocks hlog (j := 0) rfl) fun _ => relates_setPhase _
  refine bind relates_flush fun _ => relates_writeCommitBlock ?_
  intro out image hlength hfront himage
  have hplace : 2 + trans.blocks.length = 1 + (1 + trans.blocks.length) := by omega
  rw [hplace]
  exact hlog log_commit hlength hfront himage

end Log

/-! A commit block is written only for data that leaves room for checksums. -/

abbrev Short (journal : Journal) (blocks : List TransactionBlock) : Prop :=
  ∀ b ∈ blocks, b.data.length ≤ journal.blockSize - 4

theorem writeBlocks_eq_ok {journalLba : ℕ}
    (h : journal.writeBlocks journalLba blocks c = .ok () c') : journal.Short blocks := by
  induction blocks generalizing journalLba c with
  | nil => exact fun b hb => nomatch hb
  | cons block rest ih =>
    unfold writeBlocks at h
    split_ifs at h with hlong
    · cases h
    · obtain ⟨_, _, -, h⟩ := bind_eq_ok h
      obtain ⟨_, _, -, h⟩ := bind_eq_ok h
      exact forall_mem_cons.mpr ⟨Nat.not_lt.mp hlong, ih h⟩

theorem writeLog_eq_ok (h : journal.writeLog trans c = .ok () c') : journal.Short trans.blocks := by
  obtain ⟨_, _, -, h⟩ := bind_eq_ok h
  obtain ⟨_, _, hdata, -⟩ := bind_eq_ok h
  obtain ⟨_, _, -, hdata⟩ := bind_eq_ok hdata
  obtain ⟨_, _, hdata, -⟩ := bind_eq_ok hdata
  exact writeBlocks_eq_ok hdata

/-- A stage that has succeeded, with the number of its calls to the device. -/
structure Advances (c : Commit) (count : ℕ) (phase : JournalCommitPhase) (c' : Commit) : Prop where
  calls : c'.drive.calls = c.drive.calls + count
  fails : c'.drive.fails = c.drive.fails
  phase : c'.phase = phase

theorem Advances.seq {c₁ c₂ : Commit} {phase' : JournalCommitPhase}
    (h : Advances c m phase c₁) (h' : Advances c₁ n phase' c₂) : Advances c (m + n) phase' c₂ where
  calls := by rw [h'.calls, h.calls, Nat.add_assoc]
  fails := h'.fails.trans h.fails
  phase := h'.phase

theorem Advances.later (h : Advances c m phase c')
    (hok : ∀ i < m + n, c.drive.fails (c.drive.calls + i) = false) :
    ∀ i < n, c'.drive.fails (c'.drive.calls + i) = false := by
  intro i hi
  rw [h.fails, h.calls, Nat.add_assoc]
  exact hok (m + i) (by omega)

theorem writeSectors_ok (lba : ℕ) (data : List (BitVec 8))
    (h : c.drive.fails c.drive.calls = false) :
    ∃ c', writeSectors lba data c = .ok () c' ∧ Advances c 1 c.phase c' := by
  unfold writeSectors onDrive BlockDevice.writeSectors
  rw [if_neg (by simp [h])]
  exact ⟨_, rfl, rfl, rfl, rfl⟩

theorem flush_ok (h : c.drive.fails c.drive.calls = false) :
    ∃ c', flush c = .ok () c' ∧ Advances c 1 c.phase c' := by
  unfold flush onDrive BlockDevice.flush
  rw [if_neg (by simp [h])]
  exact ⟨_, rfl, rfl, rfl, rfl⟩

theorem flush_error (h : c.drive.fails c.drive.calls = true) :
    ∃ c', flush c = .error .writeError c' ∧ c'.drive.image = c.drive.image := by
  unfold flush onDrive BlockDevice.flush
  rw [if_pos h]
  exact ⟨_, rfl, rfl⟩

theorem writeBlocks_ok (journalLba : ℕ) (hshort : journal.Short blocks)
    (hok : ∀ i < blocks.length, c.drive.fails (c.drive.calls + i) = false) :
    ∃ c', journal.writeBlocks journalLba blocks c = .ok () c' ∧
      Advances c blocks.length c.phase c' := by
  have hsize := journal.blockSize_ge
  induction blocks generalizing journalLba c with
  | nil => exact ⟨c, rfl, rfl, rfl, rfl⟩
  | cons block rest ih =>
    obtain ⟨hblock, hrest⟩ := forall_mem_cons.mp hshort
    have hlength : block.data.length ≤ journal.blockSize := by omega
    obtain ⟨out, hstamp, -⟩ := stamp_ok (by omega) (Geometry.length_padded hlength)
    have hfirst : c.drive.fails c.drive.calls = false := hok 0 (Nat.succ_pos _)
    obtain ⟨c₁, hwrite, hone⟩ := writeSectors_ok journalLba out hfirst
    rw [length_cons, Nat.add_comm rest.length] at hok ⊢
    obtain ⟨c₂, hblocks, hall⟩ := ih ((journalLba + 1) % 2 ^ 32) hrest (hone.later hok)
    refine ⟨c₂, ?_, hone.phase ▸ hone.seq hall⟩
    unfold writeBlocks
    rw [if_neg (by omega), hstamp]
    exact (bind_ok hwrite).trans hblocks

theorem requirePhase_ok (h : c.phase = phase) : requirePhase phase c = .ok () c := by
  have hget : (get : CommitM Commit) c = .ok c c := rfl
  rw [requirePhase, bind_ok hget, if_pos h]
  rfl

theorem writeStage_ok (lba : ℕ) (data : List (BitVec 8)) (phase : JournalCommitPhase)
    (h : c.drive.fails c.drive.calls = false) :
    ∃ c', (do writeSectors lba data; setPhase phase : CommitM Unit) c = .ok () c' ∧
      Advances c 1 phase c' := by
  obtain ⟨c₁, hwrite, hone⟩ := writeSectors_ok lba data h
  exact ⟨{ c₁ with phase }, bind_ok hwrite, hone.calls, hone.fails, rfl⟩

theorem writeDescriptors_ok (h : c.drive.fails c.drive.calls = false) :
    ∃ c', journal.writeDescriptors trans c = .ok () c' ∧ Advances c 1 .descriptorsWritten c' := by
  have hsize := journal.blockSize_ge
  obtain ⟨out, hstamp, -⟩ := stamp_ok (by omega) (journal.length_descriptor trans)
  obtain ⟨c', hwrite, hone⟩ :=
    writeStage_ok (journal.commitLba 1) out .descriptorsWritten (c := { c with phase := .idle }) h
  refine ⟨c', ?_, hone.calls, hone.fails, hone.phase⟩
  rw [writeDescriptors, hstamp]
  exact hwrite

theorem writeDataBlocks_ok (hphase : c.phase = .descriptorsWritten)
    (hshort : journal.Short trans.blocks)
    (hok : ∀ i < trans.blocks.length, c.drive.fails (c.drive.calls + i) = false) :
    ∃ c', journal.writeDataBlocks trans c = .ok () c' ∧
      Advances c trans.blocks.length .dataWritten c' := by
  obtain ⟨c₁, hwrite, hall⟩ := writeBlocks_ok (journal.commitLba 2) hshort hok
  refine ⟨{ c₁ with phase := .dataWritten }, ?_, hall.calls, hall.fails, rfl⟩
  rw [writeDataBlocks, bind_ok (requirePhase_ok hphase), bind_ok hwrite]
  rfl

theorem writeCommitBlock_ok (hphase : c.phase = .dataWritten)
    (h : c.drive.fails c.drive.calls = false) :
    ∃ c', journal.writeCommitBlock trans c = .ok () c' ∧ Advances c 1 .commitWritten c' := by
  have hsize := journal.blockSize_ge
  obtain ⟨out, hstamp, -⟩ :=
    stamp_ok (by omega) (length_commitBlock (BitVec.ofNat 32 trans.tid) hsize)
  obtain ⟨c', hwrite, hone⟩ :=
    writeStage_ok (journal.commitLba (2 + trans.blocks.length)) out .commitWritten h
  refine ⟨c', ?_, hone⟩
  rw [writeCommitBlock, bind_ok (requirePhase_ok hphase), CommitBlock.serializeChecked, hstamp]
  exact hwrite

/-- The commit block is the last of the calls: one for the descriptor, one for each block, a flush
and the block itself. -/
theorem writeLog_ok (hshort : journal.Short trans.blocks)
    (hok : ∀ i < 1 + (trans.blocks.length + (1 + 1)),
      c.drive.fails (c.drive.calls + i) = false) :
    ∃ c', journal.writeLog trans c = .ok () c' ∧
      Advances c (1 + (trans.blocks.length + (1 + 1))) .commitWritten c' := by
  obtain ⟨c₁, hdescriptors, hone⟩ := writeDescriptors_ok (hok 0 (by omega))
  have hok₁ := hone.later hok
  obtain ⟨c₂, hdata, hall⟩ := writeDataBlocks_ok hone.phase hshort fun i hi => hok₁ i (by omega)
  have hok₂ := hall.later hok₁
  obtain ⟨c₃, hflush, hflushed⟩ := flush_ok (hok₂ 0 (by omega))
  obtain ⟨c₄, hcommit, hlast⟩ := writeCommitBlock_ok (hflushed.phase.trans hall.phase)
    (hflushed.later hok₂ 0 Nat.zero_lt_one)
  refine ⟨c₄, ?_, hone.seq (hall.seq (hflushed.seq hlast))⟩
  rw [writeLog, bind_ok hdescriptors, bind_ok hdata, bind_ok hflush]
  exact hcommit

/-! ### What follows the commit block -/

section Checkpoint

variable (htarget : ∀ b ∈ trans.blocks, ∀ image, J image →
    J (write image (512 * b.blockNr.toNat) (journal.contents b)))
  (hsuperblock : ∀ out image, out.length = journal.blockSize → be32 out 52 = 0 → J image →
    J (write image (512 * journal.commitLba 0) out))

include htarget in
theorem relates_writeTargets (hsub : ∀ b ∈ blocks, b ∈ trans.blocks) :
    Relates (Keeps J) (journal.writeTargets blocks) := by
  induction blocks with
  | nil => exact relates_pure _
  | cons block rest ih =>
    obtain ⟨hblock, hrest⟩ := forall_mem_cons.mp hsub
    exact bind (relates_writeSectors (htarget block hblock)) fun _ => ih hrest

include hsuperblock in
theorem relates_updateSuperblock : Relates (Keeps J) journal.updateSuperblock := by
  refine bind (relates_requirePhase _) fun _ => ?_
  apply relates_modify_get
  · exact fun c hc => hc
  intro c
  apply relates_liftExcept
  intro sbBlock hserial
  obtain ⟨hlength, hstart⟩ := JournalSuperblock.serializeBlockChecked_ok hserial
  have hzero : be32 (toBeBytes 0) 0 = 0 := by decide
  refine bind (relates_writeSectors ?_) fun _ => ?_
  · intro image h
    exact hsuperblock _ _ hlength (hstart.trans hzero) h
  · exact bind relates_flush fun _ => relates_setPhase _

include htarget hsuperblock in
theorem relates_afterLog : Relates (Keeps J)
    (flush >>= fun _ => journal.checkpoint trans >>= fun _ => journal.updateSuperblock) := by
  refine bind relates_flush fun _ => ?_
  refine bind (bind (relates_requirePhase _) fun _ => ?_) fun _ =>
    relates_updateSuperblock hsuperblock
  refine ite (relates_throw _) ?_
  refine bind (relates_writeTargets htarget fun _ hb => hb) fun _ => ?_
  exact bind relates_flush fun _ => relates_setPhase _

end Checkpoint

theorem relates_commitStages (hfits : journal.Fits trans.blocks)
    (hheld : ∀ b ∈ trans.blocks, journal.block image₀ b = journal.contents b) :
    Relates (Keeps (journal.Kept trans image₀)) (journal.commitStages trans) := by
  refine bind (relates_writeLog fun hentry hlength hfront h => ?_) fun _ => relates_afterLog ?_ ?_
  · exact h.log hfits hentry hlength hfront
  · exact fun b hb image h => h.target hb (hheld b hb)
  · exact fun out image hlength hstart h => h.superblock hfits hlength hstart

section

variable (hcurrent : journal.currentTransaction = some trans) {image : Image}
include hcurrent

theorem crashImage_eq (fails : ℕ → Bool) (image : Image) :
    journal.crashImage fails image = (after (journal.commitStages trans)
      ⟨journal.superblock, journal.commitPhase, image, 0, fails⟩).drive.image := by
  unfold crashImage commitTransaction Effect.after
  rw [hcurrent]
  dsimp only
  cases journal.commitStages trans ⟨journal.superblock, journal.commitPhase, image, 0, fails⟩ with
  | ok a c => rfl
  | error e c => rfl

variable (hfits : journal.Fits trans.blocks) (hquiet : journal.Quiet trans image)
include hfits hquiet

theorem crashImage_rejected {fails : ℕ → Bool} (h : ¬journal.CommitReached trans fails image) :
    journal.Kept trans image (journal.crashImage fails image) := by
  let c : Commit := ⟨journal.superblock, journal.commitPhase, image, 0, fails⟩
  have hfail : ∀ a c', journal.writeLog trans c ≠ .ok a c' := fun _ c' hok => h ⟨c', hok⟩
  rw [crashImage_eq hcurrent, commitStages, after_bind_error _ hfail]
  exact relates_writeLog (Kept.log hfits) c ⟨hquiet, fun _ _ => rfl⟩

/-- The flush after the commit block may fail, and then the commit ends there. -/
theorem crashImage_committed (hshort : journal.Short trans.blocks) :
    ∃ fails, journal.CommitReached trans fails image ∧
      journal.Kept trans image (journal.crashImage fails image) := by
  let k := 1 + (trans.blocks.length + (1 + 1))
  let fails : ℕ → Bool := fun i => decide (k ≤ i)
  let c : Commit := ⟨journal.superblock, journal.commitPhase, image, 0, fails⟩
  have hok : ∀ i < k, c.drive.fails (c.drive.calls + i) = false := by
    intro i hi
    show decide (k ≤ 0 + i) = false
    exact decide_eq_false (by omega)
  obtain ⟨c', hlog, hadvances⟩ := writeLog_ok hshort hok
  have hkept : journal.Kept trans image c'.drive.image := by
    rw [← after_eq hlog]
    exact relates_writeLog (Kept.log hfits) c ⟨hquiet, fun _ _ => rfl⟩
  have hfail : c'.drive.fails c'.drive.calls = true := by
    rw [hadvances.fails, hadvances.calls]
    exact decide_eq_true (by omega)
  obtain ⟨c'', hflush, himage⟩ := flush_error hfail
  have hstages : journal.commitStages trans c = .error .writeError c'' := by
    rw [commitStages, bind_ok hlog]
    exact bind_error hflush
  refine ⟨fails, ⟨c', hlog⟩, ?_⟩
  rw [crashImage_eq hcurrent, Effect.after, hstages, himage]
  exact hkept

/-- A crash just after the commit block is not made good. -/
theorem CrashAtomic.held (hshort : journal.Short trans.blocks) {journalSize size : ℕ}
    (hatomic : journal.CrashAtomic trans journalSize size image) :
    ∀ b ∈ trans.blocks, journal.block image b = journal.contents b := by
  intro b hb
  obtain ⟨fails, hreached, hkept⟩ := crashImage_committed hcurrent hfits hquiet hshort
  rw [← (hatomic fails).2 hreached b hb, recovered_block hfits hkept.quiet _ _ hb]
  exact (hkept.blocks b hb).symm

end

/-- If nothing was left to recover, a commit is atomic exactly if it writes no commit block because
a block is too long, or has nothing to change: nothing that it has put in the journal is ever found
by a recovery. Before the commit block, all blocks stay as they were. -/
theorem crashAtomic_iff (journal : Journal) (trans : Transaction) (journalSize size : ℕ)
    (image : Image) (hcurrent : journal.currentTransaction = some trans)
    (hfits : journal.Fits trans.blocks) (hquiet : journal.Quiet trans image) :
    (journal.CrashAtomic trans journalSize size image ↔
      (∃ b ∈ trans.blocks, journal.blockSize - 4 < b.data.length) ∨
        ∀ b ∈ trans.blocks, journal.block image b = journal.contents b) ∧
    ∀ fails, ¬journal.CommitReached trans fails image → ∀ b ∈ trans.blocks,
      journal.block (journal.recovered journalSize size (journal.crashImage fails image)) b =
        journal.block image b := by
  have hold : ∀ fails, ¬journal.CommitReached trans fails image → ∀ b ∈ trans.blocks,
      journal.block (journal.recovered journalSize size (journal.crashImage fails image)) b =
        journal.block image b := by
    intro fails hrejected b hb
    have hkept := crashImage_rejected hcurrent hfits hquiet hrejected
    rw [recovered_block hfits hkept.quiet _ _ hb]
    exact hkept.blocks b hb
  refine ⟨⟨fun hatomic => ?_, fun h fails => ?_⟩, hold⟩
  · by_contra hnot
    obtain ⟨hshort, hdiffers⟩ := not_or.mp hnot
    replace hshort : journal.Short trans.blocks :=
      fun b hb => Nat.not_lt.mp fun hlong => hshort ⟨b, hb, hlong⟩
    exact hdiffers (hatomic.held hcurrent hfits hquiet hshort)
  · obtain ⟨b, hb, hlong⟩ | hheld := h
    · have hrejected : ¬journal.CommitReached trans fails image := by
        rintro ⟨c, hlog⟩
        exact absurd (writeLog_eq_ok hlog b hb) (Nat.not_le.mpr hlong)
      exact ⟨.inl (hold fails hrejected), fun hreached => absurd hreached hrejected⟩
    · have hkept : journal.Kept trans image (journal.crashImage fails image) := by
        rw [crashImage_eq hcurrent]
        exact relates_commitStages hfits hheld
          ⟨journal.superblock, journal.commitPhase, image, 0, fails⟩ ⟨hquiet, fun _ _ => rfl⟩
      have hnew : ∀ b ∈ trans.blocks, journal.block (journal.recovered journalSize size
          (journal.crashImage fails image)) b = journal.contents b := by
        intro b hb
        rw [recovered_block hfits hkept.quiet _ _ hb, hkept.blocks b hb, hheld b hb]
      exact ⟨.inr hnew, fun _ => hnew⟩

/-- A journal of eight one-sector blocks at sector ten, with a transaction of one block. -/
def sample : Journal :=
  { Journal.new ⟨512, 5120, by decide, by decide, by decide⟩ 4096 with
    currentTransaction := some ⟨1, [⟨20, [7]⟩]⟩ }

/-- A device with the superblock of a new journal on it, which has no checksum, and zeros. -/
def formatted : Image := write (fun _ => 0) 5120 sample.superblock.serialize

theorem sample_fits : sample.Fits [⟨20, [7]⟩] where
  addressable := by decide
  superblock := by decide
  log := by decide
  targets := by decide

/-- A transaction that writes what its block holds. -/
theorem crashAtomic_rewritten :
    sample.CrashAtomic ⟨1, [⟨20, [7]⟩]⟩ 4096 16384 (write formatted 10240 [7]) :=
  (crashAtomic_iff sample ⟨1, [⟨20, [7]⟩]⟩ 4096 16384 (write formatted 10240 [7]) rfl sample_fits
    (.inr (by decide +kernel))).1.mpr (.inr (by decide +kernel))

/-- The block that looks like the commit block of its own transaction. -/
def commitLike : TransactionBlock := ⟨20, [0xC0, 0x3B, 0x39, 0x98, 0, 0, 0, 2, 0, 0, 0, 1]⟩

def commitLikeSample : Journal :=
  { sample with currentTransaction := some ⟨1, [commitLike]⟩ }

/-- What a recovery makes of it when the flush before the commit block has failed. -/
def mixed : Image :=
  commitLikeSample.recovered 4096 16384
    (commitLikeSample.crashImage (fun i => decide (2 ≤ i)) formatted)

theorem mixed_bytes : mixed 10240 ≠ 0 ∧ mixed 10751 ≠ 0 := by
  decide +kernel

/-- The recovery is run after the commit block, but the block stays as it was. Of a block that looks
like a commit block, it writes the copy in the journal with its checksum. -/
theorem recovery_loses_commit :
    ((Journal.new sample.toGeometry 4096).init 16384
        (sample.crashImage (fun i => decide (4 ≤ i)) formatted)).isOk = true ∧
      ¬sample.CrashAtomic ⟨1, [⟨20, [7]⟩]⟩ 4096 16384 formatted ∧
      ¬commitLikeSample.CrashAtomic ⟨1, [commitLike]⟩ 4096 16384 formatted := by
  refine ⟨by decide +kernel, fun hatomic => ?_, fun hatomic => ?_⟩
  · have hheld := hatomic.held rfl sample_fits (.inr (by decide +kernel)) (by decide)
    exact absurd hheld (by decide +kernel)
  · obtain ⟨hold | hnew, -⟩ := hatomic fun i => decide (2 ≤ i)
    · have hfirst : mixed 10240 = formatted 10240 :=
        read_inj (k := 0) (hold commitLike (mem_singleton_self _)) (by decide)
      exact mixed_bytes.1 (hfirst.trans (by decide +kernel))
    · have hblock : read mixed 10240 512 = commitLikeSample.contents commitLike :=
        hnew commitLike (mem_singleton_self _)
      have hlast : mixed 10751 = (commitLikeSample.contents commitLike).getD 511 0 := by
        rw [← hblock, getD_read (by decide)]
      exact mixed_bytes.2 (hlast.trans (by decide +kernel))

end Journal

end EchOS.Fs.Jbd2
