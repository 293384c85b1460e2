import EchOS.Fs.Jbd2Atomic
import EchOS.Lib.Run

/-! The transactions of the ext4 journal, from their start to their commit or abort: how many are
counted as running, and which blocks a commit writes. -/

namespace EchOS.Fs.Jbd2

open Jbd2.Journal List

namespace Journal

open Effect

variable {journal : Journal} {trans : Transaction} {blocks : List TransactionBlock}
  {drive : BlockDevice} {c c' : Commit}

def startTransaction (journal : Journal) : Except JournalError ℕ × Journal :=
  if 4 ≤ journal.runningTrans then (.error .transactionRunning, journal)
  else
    (.ok journal.sequence, { journal with
      sequence := (journal.sequence + 1) % 2 ^ 64
      runningTrans := journal.runningTrans + 1
      currentTransaction := some ⟨journal.sequence, []⟩ })

def addBlock (journal : Journal) (block : TransactionBlock) : Except JournalError Unit × Journal :=
  match journal.currentTransaction with
  | none => (.error .noTransaction, journal)
  | some trans =>
    (.ok (), { journal with
      currentTransaction := some { trans with blocks := trans.blocks ++ [block] } })

def abortTransaction (journal : Journal) : Journal :=
  { journal with currentTransaction := none, runningTrans := journal.runningTrans - 1 }

/-! ### Commits that succeed -/

/-- Every block leaves room for the checksum, and none of the calls of the commit fails: it writes
the descriptor, each block twice, the commit block and the superblock, and flushes four times. -/
structure Completes (journal : Journal) (trans : Transaction) (drive : BlockDevice) : Prop where
  short : journal.Short trans.blocks
  calls : ∀ i < 2 * trans.blocks.length + 7, drive.fails (drive.calls + i) = false

theorem writeTargets_ok (journal : Journal)
    (hok : ∀ i < blocks.length, c.drive.fails (c.drive.calls + i) = false) :
    ∃ c', journal.writeTargets blocks c = .ok () c' ∧ Advances c blocks.length c.phase c' := by
  induction blocks generalizing c with
  | nil => exact ⟨c, rfl, rfl, rfl, rfl⟩
  | cons block rest ih =>
    obtain ⟨c₁, hwrite, hone⟩ := writeSectors_ok block.blockNr.toNat
      (journal.padded (block.data.take journal.blockSize)) (hok 0 (Nat.succ_pos _))
    rw [length_cons, Nat.add_comm rest.length] at hok ⊢
    obtain ⟨c₂, hrest, hall⟩ := ih (hone.later hok)
    exact ⟨c₂, (bind_ok hwrite).trans hrest, hone.phase ▸ hone.seq hall⟩

theorem checkpoint_ok (hphase : c.phase = .commitWritten) (hshort : journal.Short trans.blocks)
    (hok : ∀ i < trans.blocks.length + 1, c.drive.fails (c.drive.calls + i) = false) :
    ∃ c', journal.checkpoint trans c = .ok () c' ∧
      Advances c (trans.blocks.length + 1) .checkpointed c' := by
  obtain ⟨c₁, hwrite, hall⟩ := journal.writeTargets_ok
    fun i (hi : i < trans.blocks.length) => hok i (by omega)
  obtain ⟨c₂, hflush, hflushed⟩ := flush_ok (hall.later hok 0 Nat.zero_lt_one)
  have hfit : ¬(trans.blocks.any fun b => journal.blockSize < b.data.length) = true := by
    simp only [any_eq_true, decide_eq_true_eq, not_exists, not_and, Nat.not_lt]
    exact fun b hb => Nat.le_trans (hshort b hb) (Nat.sub_le _ _)
  have hboth := hall.seq hflushed
  refine ⟨{ c₂ with phase := .checkpointed }, ?_, hboth.calls, hboth.fails, rfl⟩
  rw [checkpoint, bind_ok (requirePhase_ok hphase), if_neg hfit, bind_ok hwrite, bind_ok hflush]
  rfl

theorem updateSuperblock_ok (journal : Journal) (hphase : c.phase = .checkpointed)
    (hok : ∀ i < 1 + 1, c.drive.fails (c.drive.calls + i) = false) :
    ∃ c', journal.updateSuperblock c = .ok () c' := by
  have hsize := journal.blockSize_ge
  let sb : JournalSuperblock :=
    { c.superblock with sSequence := BitVec.ofNat 32 journal.sequence, sStart := 0 }
  have hserial : sb.serialize.length = 92 := JournalSuperblock.length_serialize
  have hblock : (Disk.patch (replicate journal.blockSize 0) 0 sb.serialize).length =
      journal.blockSize := Disk.length_patch length_replicate (by omega)
  obtain ⟨out, hstamp, -⟩ := stamp_ok (by omega) hblock
  obtain ⟨c₁, hwrite, hone⟩ :=
    writeSectors_ok (c := { c with superblock := sb }) (journal.commitLba 0) out
      (hok 0 Nat.zero_lt_two)
  obtain ⟨c₂, hflush, -⟩ := flush_ok (hone.later hok 0 Nat.zero_lt_one)
  refine ⟨{ c₂ with phase := .idle }, ?_⟩
  have hsb : sb.serializeBlockChecked journal.blockSize = .ok out :=
    (if_neg (show ¬journal.blockSize < JournalSuperblock.size + 4 by
      rw [JournalSuperblock.size]; omega)).trans hstamp
  rw [updateSuperblock, bind_ok (requirePhase_ok hphase)]
  change (liftExcept (sb.serializeBlockChecked journal.blockSize) >>= _ : CommitM Unit)
    { c with superblock := sb } = _
  rw [hsb]
  exact (bind_ok hwrite).trans (bind_ok hflush)

theorem commitStages_ok (h : journal.Completes trans c.drive) :
    ∃ c', journal.commitStages trans c = .ok () c' := by
  obtain ⟨hshort, hok⟩ := h
  have hcount : 2 * trans.blocks.length + 7 =
      (1 + (trans.blocks.length + (1 + 1))) + (1 + ((trans.blocks.length + 1) + (1 + 1))) :=
      by omega
  rw [hcount] at hok
  obtain ⟨c₁, hlog, hwritten⟩ := writeLog_ok hshort fun i hi => hok i (by omega)
  have hok₁ := hwritten.later hok
  obtain ⟨c₂, hflush, hflushed⟩ := flush_ok (hok₁ 0 (by omega))
  have hok₂ := hflushed.later hok₁
  obtain ⟨c₃, hcheckpoint, hplaced⟩ := checkpoint_ok (hflushed.phase.trans hwritten.phase) hshort
    fun i hi => hok₂ i (by omega)
  obtain ⟨c₄, hsuper⟩ := journal.updateSuperblock_ok hplaced.phase (hplaced.later hok₂)
  refine ⟨c₄, ?_⟩
  rw [commitStages, bind_ok hlog, bind_ok hflush, bind_ok hcheckpoint]
  exact hsuper

/-! ### What a commit leaves in the journal -/

/-- The data of the blocks, from the second block behind the superblock on. -/
def Logged (journal : Journal) (blocks : List TransactionBlock) (image : Disk.Image) : Prop :=
  ∀ i b, blocks[i]? = some b →
    Disk.read image (journal.logStart + 512 * (2 + i)) b.data.length = b.data

theorem liftExcept_eq_ok {α : Type} {e : Except JournalError α} {a : α}
    (h : liftExcept e c = .ok a c') : e = .ok a ∧ c' = c := by
  cases e with
  | error e => cases h
  | ok a =>
    cases h
    exact ⟨rfl, rfl⟩

theorem writeSectors_eq_ok {lba : ℕ} {data : List (BitVec 8)}
    (h : writeSectors lba data c = .ok () c') :
    c'.drive.image = Disk.write c.drive.image (512 * lba) data := by
  unfold writeSectors onDrive BlockDevice.writeSectors at h
  split_ifs at h
  cases h
  rfl

/-- With blocks of one sector, each goes behind the one before it. -/
theorem writeBlocks_logged (h512 : journal.blockSize = 512) (hfits : journal.Fits trans.blocks)
    {j : ℕ} (hj : j + blocks.length = trans.blocks.length)
    (h : journal.writeBlocks (journal.commitLba (2 + j)) blocks c = .ok () c') :
    (∀ a < journal.logStart + 512 * (2 + j), c'.drive.image a = c.drive.image a) ∧
      ∀ i b, blocks[i]? = some b →
        Disk.read c'.drive.image (journal.logStart + 512 * (2 + j + i)) b.data.length = b.data := by
  induction blocks generalizing j c with
  | nil =>
    cases h
    exact ⟨fun _ _ => rfl, fun i b hb => nomatch hb⟩
  | cons block rest ih =>
    rw [length_cons] at hj
    unfold writeBlocks at h
    split_ifs at h with hlong
    · cases h
    obtain ⟨out, c₀, hlift, hrest⟩ := bind_eq_ok h
    obtain ⟨_, c₁, hwrite, hmore⟩ := bind_eq_ok hrest
    obtain ⟨hstamp, rfl⟩ := liftExcept_eq_ok hlift
    have hpadded : (journal.padded block.data).length = journal.blockSize :=
      Geometry.length_padded (by omega)
    obtain ⟨hlength, hfront⟩ := length_stamp (by omega) hpadded hstamp
    have himage := writeSectors_eq_ok hwrite
    rw [Geometry.commitLba_eq hfits (by omega)] at himage
    rw [journal.commitLba_succ] at hmore
    obtain ⟨hbefore, hlogged⟩ := ih (j := j + 1) (by omega) hmore
    refine ⟨fun a ha => ?_, fun i b hb => ?_⟩
    · rw [hbefore a (by omega), himage, Disk.write_outside (.inl ha)]
    · cases i with
      | zero =>
        cases hb
        -- the blocks that follow are further on
        rw [Disk.read_congr fun k _ hk => hbefore k (by omega), himage]
        have hdata := congrArg (List.take block.data.length) hfront
        rw [take_take, take_take, Nat.min_eq_left (by omega)] at hdata
        refine (Disk.read_write 0 (by omega)).trans ?_
        rw [drop_zero, hdata, Geometry.padded, take_left]
      | succ i =>
        have hplace : 2 + j + (i + 1) = 2 + (j + 1) + i := by omega
        rw [hplace]
        exact hlogged i b hb

theorem Logged.write {image : Disk.Image} {data : List (BitVec 8)} {a : ℕ}
    (h512 : journal.blockSize = 512) (hshort : journal.Short blocks)
    (ha : a + data.length ≤ journal.logStart + 1024 ∨
      journal.logStart + 512 * (2 + blocks.length) ≤ a)
    (h : journal.Logged blocks image) : journal.Logged blocks (Disk.write image a data) := by
  intro i b hb
  obtain ⟨hi, hget⟩ := List.getElem?_eq_some_iff.mp hb
  have hlength := hshort b (hget ▸ getElem_mem hi)
  rw [Disk.read_congr fun k _ _ => Disk.write_outside (by omega)]
  exact h i b hb

theorem commitStages_logged (h512 : journal.blockSize = 512) (hfits : journal.Fits trans.blocks)
    (h : journal.commitStages trans c = .ok () c') :
    journal.Logged trans.blocks c'.drive.image := by
  obtain ⟨_, c₁, hlog, hrest⟩ := bind_eq_ok h
  have hshort := writeLog_eq_ok hlog
  obtain ⟨_, c₂, -, hlog⟩ := bind_eq_ok hlog
  obtain ⟨_, c₃, hdata, hcommit⟩ := bind_eq_ok hlog
  obtain ⟨_, c₄, -, hdata⟩ := bind_eq_ok hdata
  obtain ⟨_, c₅, hwrite, hphase⟩ := bind_eq_ok hdata
  have hwritten : journal.Logged trans.blocks c₃.drive.image := by
    cases hphase
    exact (writeBlocks_logged h512 hfits (j := 0) (Nat.zero_add _) hwrite).2
  have hend := journal.logEnd_eq trans.blocks
  have hcommitted : journal.Logged trans.blocks c₁.drive.image := by
    rw [← after_eq hcommit]
    refine Relates.bind relates_flush (fun _ => relates_writeCommitBlock ?_) c₃ hwritten
    intro out image hlength _ himage
    refine himage.write h512 hshort (.inr (Nat.le_of_eq ?_))
    exact (Geometry.commitLba_eq hfits (Nat.le_refl _)).symm
  rw [← after_eq hrest]
  refine relates_afterLog (fun b hb image himage => ?_) (fun out image hlength _ himage => ?_) c₁
    hcommitted
  · have hoff := hfits.log b hb
    have hcontents : (journal.contents b).length = journal.blockSize :=
      Geometry.length_padded (by rw [length_take]; omega)
    exact himage.write h512 hshort (by omega)
  · refine himage.write h512 hshort (.inl ?_)
    rw [Geometry.commitLba_eq hfits (Nat.zero_le _)]
    omega

theorem logStart_eq (h512 : journal.blockSize = 512) (hfits : journal.Fits blocks) :
    journal.logStart = journal.journalOffset := by
  have hsuperblock := hfits.superblock
  unfold Geometry.logEnd Geometry.logStart at *
  rw [h512] at *
  omega

end Journal

/-- A journal, how many of its transactions were started and have not been committed, failed or
aborted, and the blocks that were added to them. -/
structure Transactions where
  journal : Journal
  unfinished : ℕ
  added : List TransactionBlock

namespace Transactions

inductive Op
  | start
  | addBlock (block : TransactionBlock)
  | commit (drive : BlockDevice)
  | abort

variable (s : Transactions)

def finish (journal : Journal) : Transactions :=
  match s.journal.currentTransaction with
  | none => { s with journal }
  | some _ => ⟨journal, s.unfinished - 1, []⟩

def step : Op → Transactions
  | .start =>
    match s.journal.startTransaction with
    | (.ok _, journal) => { s with journal, unfinished := s.unfinished + 1 }
    | (.error _, journal) => { s with journal }
  | .addBlock block =>
    match s.journal.addBlock block with
    | (.ok _, journal) => { s with journal, added := s.added ++ [block] }
    | (.error _, journal) => { s with journal }
  | .commit drive => s.finish (s.journal.commitTransaction drive).2.1
  | .abort => s.finish s.journal.abortTransaction

def initial (journal : Journal) : Transactions := ⟨journal, 0, []⟩

/-- A commit meets no error, and an abort has a transaction to abort. -/
def Succeeds : Op → Prop
  | .commit drive => ∀ trans ∈ s.journal.currentTransaction, s.journal.Completes trans drive
  | .abort => s.journal.currentTransaction.isSome = true ∨ s.journal.runningTrans = 0
  | _ => True

theorem runningTrans_step (op : Op)
    (h : s.journal.runningTrans = s.unfinished) (hop : s.Succeeds op) :
    (s.step op).journal.runningTrans = (s.step op).unfinished := by
  cases op with
  | start =>
    unfold step startTransaction
    split_ifs
    · exact h
    · exact congrArg (· + 1) h
  | addBlock block =>
    unfold step addBlock
    cases s.journal.currentTransaction with
    | none => exact h
    | some trans => exact h
  | commit drive =>
    unfold step finish commitTransaction
    cases hcurrent : s.journal.currentTransaction with
    | none => exact h
    | some trans =>
      obtain ⟨c, hok⟩ := commitStages_ok
        (c := ⟨s.journal.superblock, s.journal.commitPhase, drive⟩) (hop trans hcurrent)
      dsimp only
      rw [hok]
      exact congrArg (· - 1) h
  | abort =>
    unfold step finish abortTransaction
    cases hcurrent : s.journal.currentTransaction with
    | none =>
      rcases hop with hsome | hzero
      · rw [hcurrent] at hsome
        cases hsome
      · change s.journal.runningTrans - 1 = s.unfinished
        omega
    | some trans => exact congrArg (· - 1) h

/-- As long as commits meet no error, the journal counts the unfinished transactions, and starts
another one while there are fewer than four. -/
theorem runningTrans_eq_unfinished (journal : Journal) (hzero : journal.runningTrans = 0)
    (ops : List Op) (h : Run.Along step Succeeds (initial journal) ops) {s : Transactions}
    (hs : Run.exec step (initial journal) ops = s) :
    s.journal.runningTrans = s.unfinished ∧
      (s.journal.startTransaction.1.isOk = true ↔ s.unfinished < 4) := by
  subst hs
  have hcount := Run.Along.invariant (I := fun s => s.journal.runningTrans = s.unfinished)
    runningTrans_step (s := initial journal) hzero h
  refine ⟨hcount, ?_⟩
  rw [← hcount, startTransaction]
  split_ifs with hfull
  · exact iff_of_false Bool.false_ne_true (Nat.not_lt.mpr hfull)
  · exact iff_of_true rfl (Nat.not_le.mp hfull)

def reliable : BlockDevice := ⟨fun _ => 0, 0, fun _ => false⟩

/-- A device that does every write, and fails the first flush of a commit without blocks. -/
def unflushed : BlockDevice := ⟨fun _ => 0, 0, fun i => i == 1⟩

def empty : Journal := new sample.toGeometry 4096

theorem runningTrans_eq_unfinished_committed :
    ∃ s, Run.exec step (initial empty) [.start, .addBlock ⟨20, [7]⟩, .commit reliable] = s ∧
      s.journal.runningTrans = s.unfinished := by
  refine ⟨_, rfl, (runningTrans_eq_unfinished empty rfl
    [.start, .addBlock ⟨20, [7]⟩, .commit reliable] ⟨trivial, trivial, ?_, trivial⟩ rfl).1⟩
  intro trans htrans
  obtain rfl := Option.mem_some.mp htrans
  exact ⟨by decide, fun _ _ => rfl⟩

/-- After four commits that a flush has failed, no transaction can be started. -/
theorem failed_commits_block_start :
    ∃ s, Run.exec step (initial empty)
        (List.replicate 4 [.start, .commit unflushed]).flatten = s ∧
      s.unfinished = 0 ∧ s.journal.startTransaction.1.isOk = false :=
  ⟨_, rfl, by decide +kernel, by decide +kernel⟩

/-! ### The blocks of a commit -/

def currentBlocks : List TransactionBlock :=
  (s.journal.currentTransaction.map (·.blocks)).getD []

/-- A start that succeeds finds no blocks in the current transaction, and a block leaves room for
the checksum of its journal block. -/
def KeepsBlocks : Op → Prop
  | .start => s.journal.runningTrans < 4 → s.currentBlocks = []
  | .addBlock block => block.data.length ≤ s.journal.blockSize - 4
  | _ => True

structure Holds (s : Transactions) : Prop where
  blocks : s.currentBlocks = s.added
  short : s.journal.Short s.added

theorem Holds.finish {s : Transactions} (h : s.Holds) {journal : Journal}
    (hnone : journal.currentTransaction = none) : (s.finish journal).Holds := by
  have hempty : s.journal.currentTransaction = none → s.added = [] := by
    intro hcurrent
    rw [← h.blocks, currentBlocks, hcurrent]
    rfl
  unfold Transactions.finish
  cases hcurrent : s.journal.currentTransaction with
  | none =>
    rw [hempty hcurrent]
    exact ⟨by simp [currentBlocks, hnone], by simp [Short]⟩
  | some trans => exact ⟨by simp [currentBlocks, hnone], by simp [Short]⟩

theorem holds_step (op : Op) (h : s.Holds) (hop : s.KeepsBlocks op) : (s.step op).Holds := by
  cases op with
  | start =>
    unfold step startTransaction
    split_ifs with hfull
    · exact h
    · refine ⟨?_, h.short⟩
      change [] = s.added
      rw [← h.blocks, hop (Nat.not_le.mp hfull)]
  | addBlock block =>
    unfold step addBlock
    cases hcurrent : s.journal.currentTransaction with
    | none => exact h
    | some trans =>
      have hblocks : trans.blocks = s.added := by
        rw [← h.blocks, currentBlocks, hcurrent]
        rfl
      refine ⟨congrArg (· ++ [block]) hblocks, fun b hb => ?_⟩
      rcases mem_append.mp hb with hb | hb
      · exact h.short b hb
      · rw [mem_singleton.mp hb]
        exact hop
  | commit drive =>
    refine h.finish ?_
    unfold commitTransaction
    cases hcurrent : s.journal.currentTransaction with
    | none => exact hcurrent
    | some trans =>
      dsimp only
      split
      · rfl
      · rfl
  | abort => exact h.finish rfl

/-- A commit returns, and leaves the data of the blocks in the journal, behind the superblock and
the descriptor. -/
def Writes (journal : Journal) (drive : BlockDevice) (blocks : List TransactionBlock) : Prop :=
  (journal.commitTransaction drive).1 = .ok () ∧ ∀ i b, blocks[i]? = some b →
    2 + i < journal.superblock.sMaxlen.toNat ∧
    Disk.read (journal.commitTransaction drive).2.2.image
      (journal.journalOffset + journal.blockSize * (2 + i)) b.data.length = b.data

/-- If no start replaces a transaction that has blocks, a commit without I/O errors writes every
block that was added to the journal, provided that its blocks are of one sector, that it has room
for them, and that none of them goes to a place inside it. -/
theorem commit_writes_added (journal : Journal) (hnone : journal.currentTransaction = none)
    (ops : List Op) (h : Run.Along step KeepsBlocks (initial journal) ops) {s : Transactions}
    (hs : Run.exec step (initial journal) ops = s) :
    s.currentBlocks = s.added ∧ ∀ drive : BlockDevice, (∀ i, drive.fails i = false) →
      s.journal.currentTransaction.isSome = true → s.journal.blockSize = 512 →
      s.journal.Fits s.added → 2 + s.added.length ≤ s.journal.superblock.sMaxlen.toNat →
      Writes s.journal drive s.added := by
  subst hs
  have hinitial : (initial journal).Holds :=
    ⟨by simp [currentBlocks, initial, hnone], by simp [initial, Short]⟩
  obtain ⟨hblocks, hshort⟩ := Run.Along.invariant holds_step hinitial h
  generalize Run.exec step (initial journal) ops = s at hblocks hshort ⊢
  refine ⟨hblocks, fun drive hfails hsome h512 hfits hroom => ?_⟩
  obtain ⟨trans, hcurrent⟩ := Option.isSome_iff_exists.mp hsome
  have hadded : trans.blocks = s.added := by
    rw [← hblocks, currentBlocks, hcurrent]
    rfl
  rw [← hadded] at hshort hfits hroom ⊢
  obtain ⟨c, hok⟩ := commitStages_ok (c := ⟨s.journal.superblock, s.journal.commitPhase, drive⟩)
    ⟨hshort, fun i _ => hfails _⟩
  have hlogged := commitStages_logged h512 hfits hok
  simp only [Writes, commitTransaction, hcurrent, hok, true_and]
  intro i b hb
  obtain ⟨hi, -⟩ := List.getElem?_eq_some_iff.mp hb
  refine ⟨by omega, ?_⟩
  rw [← logStart_eq h512 hfits, h512]
  exact hlogged i b hb

theorem commit_writes_added_block :
    ∃ s, Run.exec step (initial empty) [.start, .addBlock ⟨20, [7]⟩, .addBlock ⟨21, [8, 9]⟩] = s ∧
      Writes s.journal reliable [⟨20, [7]⟩, ⟨21, [8, 9]⟩] := by
  refine ⟨_, rfl, (commit_writes_added empty rfl
    [.start, .addBlock ⟨20, [7]⟩, .addBlock ⟨21, [8, 9]⟩]
    ⟨fun _ => rfl, show 1 ≤ 512 - 4 by decide, show 2 ≤ 512 - 4 by decide, trivial⟩ rfl).2 reliable
    (fun _ => rfl) rfl rfl ?_ (by decide)⟩
  exact ⟨by decide, by decide, by decide, by decide⟩

/-- A second start drops the block of the first transaction. -/
theorem start_drops_block :
    ∃ s, Run.exec step (initial empty) [.start, .addBlock ⟨20, [7]⟩, .start] = s ∧
      s.unfinished = 2 ∧ s.added = [⟨20, [7]⟩] ∧ s.currentBlocks = [] :=
  ⟨_, rfl, rfl, rfl, rfl⟩

end Transactions

end EchOS.Fs.Jbd2
