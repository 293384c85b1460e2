import EchOS.Fs.BlockDevice
import EchOS.Lib.Loop

/-! The journal of `fs/journal.rs`: what a commit writes, and the scan of a recovery. -/

namespace EchOS.Fs

open Disk

inductive JournalError
  | noTransaction
  | journalFull
  | ioError
  | corruptJournal
  | aborted
  deriving DecidableEq

/-- Why an operation stops without a result: an error, or an index beyond a buffer. -/
inductive JournalFault
  | error (e : JournalError)
  | panic
  deriving DecidableEq

inductive TransactionState
  | running
  | locked
  | flushSuspended
  | committing
  | commitRecord
  | finished
  deriving DecidableEq

structure JournalBlock where
  fsBlock : ℕ
  data : List (BitVec 8)
  isRevoke : Bool
  checksum : BitVec 32
  deriving DecidableEq

structure Transaction where
  tid : ℕ
  state : TransactionState
  sequence : ℕ
  blocks : List JournalBlock
  deriving DecidableEq

structure JournalStats where
  transactions : ℕ
  blocksWritten : ℕ
  commits : ℕ
  deriving DecidableEq

/-- Blocks are whole sectors, and the number of their sectors fits the byte that counts them. -/
structure Journal where
  startBlock : ℕ
  totalBlocks : ℕ
  blockSize : ℕ
  currentTransaction : Option Transaction
  transactionQueue : List Transaction
  headSequence : ℕ
  aborted : Bool
  stats : JournalStats
  blockSize_sectors : blockSize % 512 = 0
  blockSize_pos : 0 < blockSize
  blockSize_lt : blockSize / 512 < 256

def jbd2MagicNumber : ℕ := 0xC03B3998
def jbd2DescriptorBlock : ℕ := 1
def jbd2CommitBlock : ℕ := 2
def jbd2SuperblockV1Blk : ℕ := 3
def jbd2SuperblockV2Blk : ℕ := 4
def jbd2FlagLastTag : ℕ := 8

abbrev JournalM := EStateM JournalFault BlockDevice

namespace Journal

def writeBe32 (buf : List (BitVec 8)) (offset v : ℕ) : List (BitVec 8) :=
  patch buf offset (toBe 4 v)

def writeBe64 (buf : List (BitVec 8)) (offset v : ℕ) : List (BitVec 8) :=
  patch buf offset (toBe 8 v)

variable (journal : Journal)

/-- The place of a block of the journal. Block numbers are used as sector numbers. -/
def journalLba (offset : ℕ) : ℕ := (journal.startBlock + offset) % 2 ^ 32

def writeSectors (lba : ℕ) (data : List (BitVec 8)) : JournalM Unit :=
  BlockDevice.writeSectors (.error .ioError) lba data

def tagsPerBlock : ℕ := (journal.blockSize - 12 - 4) / 16

def descBlocks (total : ℕ) : ℕ :=
  if 0 < total then (total + journal.tagsPerBlock - 1) / journal.tagsPerBlock else 0

def headerBlock (blockType seq : ℕ) : List (BitVec 8) :=
  let buf := List.replicate journal.blockSize 0
  let buf := writeBe32 buf 0 jbd2MagicNumber
  let buf := writeBe32 buf 4 blockType
  writeBe32 buf 8 seq

structure DescriptorState where
  descBuf : List (BitVec 8)
  tagOffset : ℕ
  tagInDesc : ℕ
  descBlockIdx : ℕ

def flushDescriptor (st : DescriptorState) : JournalM Unit :=
  let tailOffset := journal.blockSize - 4
  let descCrc := crc32c (st.descBuf.take tailOffset)
  writeSectors (journal.journalLba st.descBlockIdx) (writeBe32 st.descBuf tailOffset descCrc.toNat)

/-- The tag of a block; its checksum covers the sequence number and the data. -/
def tagBytes (seq : ℕ) (block : JournalBlock) (isLast : Bool) : List (BitVec 8) :=
  let flags := if isLast then jbd2FlagLastTag else 0
  let dataCrc := crc32c (toBe 4 seq ++ block.data)
  toBe 4 block.fsBlock ++ toBe 4 flags ++ toBe 4 (block.fsBlock / 2 ^ 32) ++
    toBe 4 dataCrc.toNat

def addTag (seq total descBlocksNeeded i : ℕ) (block : JournalBlock)
    (st : DescriptorState) : DescriptorState :=
  let isLast := i == total - 1 &&
    (descBlocksNeeded == 1 || st.tagInDesc == journal.tagsPerBlock - 1)
  { st with
    descBuf := patch st.descBuf st.tagOffset (tagBytes seq block isLast)
    tagOffset := st.tagOffset + 16
    tagInDesc := st.tagInDesc + 1 }

/-- The loop over the blocks of a transaction, at the block numbered `i`. A new descriptor is
begun when the number of tags in the present one is zero, which it is for the first only. -/
def writeTags (journal : Journal) (seq total descBlocksNeeded : ℕ) :
    ℕ → DescriptorState → List JournalBlock → JournalM DescriptorState
  | _, st, [] => pure st
  | i, st, block :: rest => do
    let st ← if st.tagInDesc = 0 ∧ 12 < st.tagOffset then do
        journal.flushDescriptor st
        pure { st with
          descBuf := journal.headerBlock jbd2DescriptorBlock seq
          tagOffset := 12
          descBlockIdx := st.descBlockIdx + 1 }
      else pure st
    if journal.blockSize < st.tagOffset + 16 then throw .panic
    else
      journal.writeTags seq total descBlocksNeeded (i + 1)
        (journal.addTag seq total descBlocksNeeded i block st) rest

def writeDescriptor (trans : Transaction) : JournalM Unit := do
  let seq := trans.sequence % 2 ^ 32
  let total := trans.blocks.length
  let descBlocksNeeded := if 0 < total then journal.descBlocks total else 1
  let st ← journal.writeTags seq total descBlocksNeeded 0
    ⟨journal.headerBlock jbd2DescriptorBlock seq, 12, 0, 0⟩ trans.blocks
  if trans.blocks.isEmpty then pure () else journal.flushDescriptor st

def padded (data : List (BitVec 8)) : List (BitVec 8) :=
  data ++ List.replicate (journal.blockSize - data.length) 0

def writeBlocks (journal : Journal) : ℕ → List JournalBlock → JournalM Unit
  | _, [] => pure ()
  | dataOffset, block :: rest => do
    if journal.blockSize < block.data.length then throw (.error .ioError)
    else
      writeSectors (journal.journalLba dataOffset) (journal.padded block.data)
      journal.writeBlocks (dataOffset + 1) rest

def writeDataBlocks (trans : Transaction) : JournalM Unit :=
  journal.writeBlocks (journal.descBlocks trans.blocks.length) trans.blocks

def commitBlock (trans : Transaction) : List (BitVec 8) :=
  let seq := trans.sequence % 2 ^ 32
  let commitCrc := crc32c (trans.blocks.flatMap fun block => toBe 4 block.checksum.toNat)
  let buf := journal.headerBlock jbd2CommitBlock seq
  let buf := patch buf 12 [4]
  let buf := patch buf 13 [4]
  let buf := writeBe32 buf 16 commitCrc.toNat
  let buf := writeBe64 buf 40 0
  writeBe32 buf 48 0

def writeCommit (trans : Transaction) : JournalM Unit :=
  let total := trans.blocks.length
  let commitOffset := journal.descBlocks total + total
  writeSectors (journal.journalLba commitOffset) (journal.commitBlock trans)

def writeTransaction (transaction : Transaction) : JournalM Unit := do
  journal.writeDescriptor transaction
  journal.writeDataBlocks transaction
  journal.writeCommit transaction

/-- The transaction is taken out of the journal whether it is committed or not. -/
def commitTransaction (drive : BlockDevice) : Except JournalFault Unit × Journal × BlockDevice :=
  match journal.currentTransaction with
  | none => (.error (.error .noTransaction), journal, drive)
  | some transaction =>
    let journal := { journal with currentTransaction := none }
    if journal.aborted then (.error (.error .aborted), journal, drive)
    else
      match journal.writeTransaction transaction drive with
      | .error fault drive => (.error fault, journal, drive)
      | .ok _ drive =>
        let stats := journal.stats
        (.ok (), { journal with
          headSequence := journal.headSequence + 1
          transactionQueue := journal.transactionQueue ++ [{ transaction with state := .finished }]
          stats := ⟨stats.transactions + 1, stats.blocksWritten + transaction.blocks.length,
            stats.commits + 1⟩ }, drive)

def be32 (buf : List (BitVec 8)) (offset : ℕ) : ℕ := ofBe ((buf.drop offset).take 4)

def readBlock (drive : BlockDevice) (offset : ℕ) : List (BitVec 8) :=
  drive.readSectors (journal.journalLba offset) (journal.blockSize / 512)

/-- The block numbers in the tags of a descriptor, up to the last tag or the end of the block;
as many rounds as the block has bytes are enough. -/
def readTags (journal : Journal) (buf : List (BitVec 8)) : ℕ → ℕ → List ℕ
  | 0, _ => []
  | rounds + 1, tagOffset =>
    if tagOffset + 16 ≤ journal.blockSize - 4 then
      let blocknr := be32 buf tagOffset + be32 buf (tagOffset + 8) * 2 ^ 32
      let isLast := be32 buf (tagOffset + 4) / jbd2FlagLastTag % 2 = 1
      blocknr :: if isLast then [] else journal.readTags buf rounds (tagOffset + 16)
    else []

def replayBlocks (journal : Journal) : ℕ → List ℕ → JournalM Unit
  | _, [] => pure ()
  | dataOffset, fsBlocknr :: rest => do
    let drive ← get
    let dataBuf := journal.readBlock drive dataOffset
    if dataBuf.isEmpty then pure () else writeSectors (fsBlocknr % 2 ^ 32) dataBuf
    journal.replayBlocks (dataOffset + 1) rest

structure Scan where
  offset : ℕ
  recovered : ℕ
  drive : BlockDevice

def scanDescriptor (scan : Scan) (buf : List (BitVec 8)) :
    Scan ⊕ (Except JournalFault ℕ × BlockDevice) :=
  let seq := be32 buf 8
  let blockAddrs := journal.readTags buf journal.blockSize 12
  let dataStart := scan.offset + journal.descBlocks blockAddrs.length
  let commitOffset := dataStart + blockAddrs.length
  if journal.totalBlocks ≤ commitOffset then .inr (.ok scan.recovered, scan.drive)
  else
    let commitBuf := journal.readBlock scan.drive commitOffset
    if commitBuf.length < 12 then .inr (.ok scan.recovered, scan.drive)
    else if be32 commitBuf 0 = jbd2MagicNumber ∧ be32 commitBuf 4 = jbd2CommitBlock ∧
        be32 commitBuf 8 = seq then
      match journal.replayBlocks dataStart blockAddrs scan.drive with
      | .error fault drive => .inr (.error fault, drive)
      | .ok _ drive => .inl ⟨commitOffset + 1, scan.recovered + 1, drive⟩
    else .inl { scan with offset := scan.offset + 1 }

def scanRound (scan : Scan) : Option (Scan ⊕ (Except JournalFault ℕ × BlockDevice)) :=
  let stop : Scan ⊕ (Except JournalFault ℕ × BlockDevice) := .inr (.ok scan.recovered, scan.drive)
  if journal.totalBlocks ≤ scan.offset then some stop
  else
    let headerBuf := journal.readBlock scan.drive scan.offset
    if headerBuf.length < 12 then some stop
    else if be32 headerBuf 0 ≠ jbd2MagicNumber then some stop
    else if be32 headerBuf 4 = jbd2DescriptorBlock then
      some (journal.scanDescriptor scan headerBuf)
    else if be32 headerBuf 4 = jbd2SuperblockV1Blk ∨ be32 headerBuf 4 = jbd2SuperblockV2Blk then
      some (.inl { scan with offset := scan.offset + 1 })
    else some stop

/-- The number of transactions replayed, and the device they are replayed on. Every round goes
forward. -/
def recover (drive : BlockDevice) : Option (Except JournalFault ℕ × BlockDevice) :=
  let superblockBuf := journal.readBlock drive 0
  if superblockBuf.isEmpty then some (.ok 0, drive)
  else if be32 superblockBuf 0 ≠ jbd2MagicNumber then some (.ok 0, drive)
  else Loop.run journal.scanRound (journal.totalBlocks + 1) ⟨1, 0, drive⟩

end Journal

end EchOS.Fs
