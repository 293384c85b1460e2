import EchOS.Fs.BlockDevice

/-! The ext4 journal of `fs/ext4_journal.rs`: its blocks, the stages of a commit, and the three
passes of a recovery. -/

namespace EchOS.Fs.Jbd2

open Disk

inductive JournalError
  | invalidSuperblock
  | invalidOffset
  | transactionRunning
  | noTransaction
  | writeError
  | readError
  | checksumError
  | recoveryFailed
  deriving DecidableEq

inductive JournalCommitPhase
  | idle
  | descriptorsWritten
  | dataWritten
  | commitWritten
  | checkpointed
  deriving DecidableEq

def jbd2Magic : BitVec 32 := 0xC03B3998
def jbd2DescriptorBlock : BitVec 32 := 1
def jbd2CommitBlock : BitVec 32 := 2
def jbd2SuperblockV1 : BitVec 32 := 3
def jbd2SuperblockV2 : BitVec 32 := 4
def jbd2RevokeBlock : BitVec 32 := 5
def jbd2FlagEscape : BitVec 32 := 1
def jbd2FlagSameUuid : BitVec 32 := 2
def journalChecksumTypeCrc32 : BitVec 8 := 1

def be32 (buf : List (BitVec 8)) (offset : ℕ) : BitVec 32 :=
  BitVec.ofNat 32 (ofBe ((buf.drop offset).take 4))

def be16 (buf : List (BitVec 8)) (offset : ℕ) : BitVec 16 :=
  BitVec.ofNat 16 (ofBe ((buf.drop offset).take 2))

def toBeBytes (v : BitVec 32) : List (BitVec 8) := toBe 4 v.toNat

def crc32Bit (crc : BitVec 32) : BitVec 32 :=
  let mask := 0 - (crc &&& 1)
  (crc >>> 1) ^^^ (0xEDB88320 &&& mask)

variable (data : List (BitVec 8))

def crc32Ieee : BitVec 32 :=
  ~~~ data.foldl (fun crc byte => Nat.repeat crc32Bit 8 (crc ^^^ byte.setWidth 32)) 0xFFFFFFFF

def checksumSlot (blockSize : ℕ) : Option ℕ := if 4 ≤ blockSize then some (blockSize - 4) else none

def journalBlockChecksum (block : List (BitVec 8)) (blockSize : ℕ) : Option (BitVec 32) := do
  let slot ← checksumSlot blockSize
  if block.length < blockSize ∨ block.length < slot + 4 then none
  else some (crc32Ieee (patch (block.take blockSize) slot (List.replicate 4 0)))

def stampJournalBlockChecksum (block : List (BitVec 8)) (blockSize : ℕ) :
    Except JournalError (List (BitVec 8)) := do
  let slot ← (checksumSlot blockSize).elim (throw .checksumError) pure
  if block.length < blockSize ∨ block.length < slot + 4 then throw .checksumError
  else
    let block := patch block slot (List.replicate 4 0)
    let checksum := crc32Ieee (block.take blockSize)
    pure (patch block slot (toBeBytes checksum))

/-- A slot of zeros is not checked. -/
def verifyJournalBlockChecksum (block : List (BitVec 8)) (blockSize : ℕ) :
    Except JournalError Unit := do
  let slot ← (checksumSlot blockSize).elim (throw .checksumError) pure
  if block.length < blockSize ∨ block.length < slot + 4 then throw .checksumError
  else
    let stored := be32 block slot
    if stored = 0 then pure ()
    else
      let calculated ← (journalBlockChecksum block blockSize).elim (throw .checksumError) pure
      if calculated = stored then pure () else throw .checksumError

structure JournalSuperblock where
  sHeaderHMagic : BitVec 32
  sHeaderHBlocktype : BitVec 32
  sHeaderHSequence : BitVec 32
  sFirst : BitVec 32
  sSequence : BitVec 32
  sBlocksize : BitVec 32
  sMaxlen : BitVec 32
  sFirstDataBlock : BitVec 32
  sTransaction : BitVec 32
  sJnlBlocksize : BitVec 32
  sUsers : BitVec 32
  sDevMajor : BitVec 32
  sDevMinor : BitVec 32
  sStart : BitVec 32
  sErrno : BitVec 32
  sFeatureCompat : BitVec 32
  sFeatureIncompat : BitVec 32
  sFeatureRoCompat : BitVec 32
  sUuid : BitVec 128
  sNrRevokes : BitVec 32
  deriving DecidableEq

namespace JournalSuperblock

def size : ℕ := 92

def parse : Option JournalSuperblock :=
  if data.length < size then none
  else if be32 data 0 ≠ jbd2Magic then none
  else some {
    sHeaderHMagic := be32 data 0
    sHeaderHBlocktype := be32 data 4
    sHeaderHSequence := be32 data 8
    sFirst := be32 data 12
    sSequence := be32 data 16
    sBlocksize := be32 data 20
    sMaxlen := be32 data 24
    sFirstDataBlock := be32 data 28
    sTransaction := be32 data 32
    sJnlBlocksize := be32 data 36
    sUsers := be32 data 40
    sDevMajor := be32 data 44
    sDevMinor := be32 data 48
    sStart := be32 data 52
    sErrno := be32 data 56
    sFeatureCompat := be32 data 60
    sFeatureIncompat := be32 data 64
    sFeatureRoCompat := be32 data 68
    sUuid := BitVec.ofNat 128 (ofBe ((data.drop 72).take 16))
    sNrRevokes := be32 data 88 }

def parseChecked (blockSize : ℕ) : Except JournalError JournalSuperblock := do
  if data.length < blockSize then throw .invalidSuperblock
  else
    verifyJournalBlockChecksum (data.take blockSize) blockSize
    (parse (data.take blockSize)).elim (throw .invalidSuperblock) pure

def serialize (sb : JournalSuperblock) : List (BitVec 8) :=
  toBeBytes sb.sHeaderHMagic ++ toBeBytes sb.sHeaderHBlocktype ++ toBeBytes sb.sHeaderHSequence ++
  toBeBytes sb.sFirst ++ toBeBytes sb.sSequence ++ toBeBytes sb.sBlocksize ++
  toBeBytes sb.sMaxlen ++ toBeBytes sb.sFirstDataBlock ++ toBeBytes sb.sTransaction ++
  toBeBytes sb.sJnlBlocksize ++ toBeBytes sb.sUsers ++ toBeBytes sb.sDevMajor ++
  toBeBytes sb.sDevMinor ++ toBeBytes sb.sStart ++ toBeBytes sb.sErrno ++
  toBeBytes sb.sFeatureCompat ++ toBeBytes sb.sFeatureIncompat ++ toBeBytes sb.sFeatureRoCompat ++
  toBe 16 sb.sUuid.toNat ++ toBeBytes sb.sNrRevokes

def serializeBlockChecked (sb : JournalSuperblock) (blockSize : ℕ) :
    Except JournalError (List (BitVec 8)) :=
  if blockSize < size + 4 then throw .invalidSuperblock
  else stampJournalBlockChecksum (patch (List.replicate blockSize 0) 0 sb.serialize) blockSize

end JournalSuperblock

structure JournalHeader where
  hMagic : BitVec 32
  hBlocktype : BitVec 32
  hSequence : BitVec 32
  deriving DecidableEq

namespace JournalHeader

def parse : Option JournalHeader :=
  if data.length < 12 then none
  else if be32 data 0 ≠ jbd2Magic then none
  else some ⟨be32 data 0, be32 data 4, be32 data 8⟩

def serialize (header : JournalHeader) : List (BitVec 8) :=
  toBeBytes header.hMagic ++ toBeBytes header.hBlocktype ++ toBeBytes header.hSequence

end JournalHeader

structure CommitBlock where
  header : JournalHeader
  hChksumType : BitVec 8
  hChksumSize : BitVec 8
  hPadding : List (BitVec 8)
  hChksum : List (BitVec 8)

namespace CommitBlock

def new (sequence : BitVec 32) : CommitBlock where
  header := ⟨jbd2Magic, jbd2CommitBlock, sequence⟩
  hChksumType := journalChecksumTypeCrc32
  hChksumSize := 4
  hPadding := List.replicate 2 0
  hChksum := List.replicate 32 0

def serialize (commit : CommitBlock) (blockSize : ℕ) : List (BitVec 8) :=
  let data := List.replicate blockSize 0
  let data := patch data 0 commit.header.serialize
  let data := patch data 12 [commit.hChksumType]
  let data := patch data 13 [commit.hChksumSize]
  let data := patch data 14 commit.hPadding
  patch data 16 commit.hChksum

def serializeChecked (commit : CommitBlock) (blockSize : ℕ) :
    Except JournalError (List (BitVec 8)) :=
  stampJournalBlockChecksum (commit.serialize blockSize) blockSize

end CommitBlock

structure TransactionBlock where
  blockNr : BitVec 32
  data : List (BitVec 8)
  deriving DecidableEq

structure Transaction where
  tid : ℕ
  blocks : List TransactionBlock
  deriving DecidableEq

/-- Where a journal lies. Its blocks are whole sectors, and the number of their sectors fits the
byte that counts them. -/
structure Geometry where
  blockSize : ℕ
  journalOffset : ℕ
  blockSize_sectors : blockSize % 512 = 0
  blockSize_pos : 0 < blockSize
  blockSize_lt : blockSize / 512 < 256

structure Journal extends Geometry where
  superblock : JournalSuperblock
  currentTransaction : Option Transaction
  sequence : ℕ
  runningTrans : ℕ
  commitPhase : JournalCommitPhase

/-- What a commit changes, in memory and on the device. -/
structure Commit where
  superblock : JournalSuperblock
  phase : JournalCommitPhase
  drive : BlockDevice

abbrev CommitM := EStateM JournalError Commit

def onDrive (call : EStateM JournalError BlockDevice Unit) : CommitM Unit := fun c =>
  match call c.drive with
  | .ok _ drive => .ok () { c with drive }
  | .error e drive => .error e { c with drive }

def writeSectors (lba : ℕ) (data : List (BitVec 8)) : CommitM Unit :=
  onDrive (BlockDevice.writeSectors .writeError lba data)

def flush : CommitM Unit := onDrive (BlockDevice.flush .writeError)

def setPhase (phase : JournalCommitPhase) : CommitM Unit := modify fun c => { c with phase }

def requirePhase (phase : JournalCommitPhase) : CommitM Unit := do
  if (← get).phase = phase then pure () else throw .writeError

def liftExcept {α : Type} : Except JournalError α → CommitM α
  | .ok a => pure a
  | .error e => throw e

/-- The place of a block of the journal for the stages of a commit, which count sectors from the
number of the journal's first block. -/
def Geometry.commitLba (geometry : Geometry) (i : ℕ) : ℕ :=
  (geometry.journalOffset / geometry.blockSize + i) % 2 ^ 32

def Geometry.padded (geometry : Geometry) (data : List (BitVec 8)) : List (BitVec 8) :=
  data ++ List.replicate (geometry.blockSize - data.length) 0

def tagBytes (block : TransactionBlock) : List (BitVec 8) :=
  toBeBytes block.blockNr ++ List.replicate 2 0 ++ (toBeBytes (crc32Ieee block.data)).drop 2

/-- Tags from an offset on, as far as they fit in front of the checksum. -/
def writeTags (blockSize : ℕ) : ℕ → List (BitVec 8) → List TransactionBlock → List (BitVec 8)
  | _, descriptor, [] => descriptor
  | offset, descriptor, block :: rest =>
    if blockSize - 4 < offset + 8 then descriptor
    else writeTags blockSize (offset + 8) (patch descriptor offset (tagBytes block)) rest

variable (journal : Journal)

namespace Journal

/-- The descriptor has tags for sixteen blocks at most. -/
def descriptor (trans : Transaction) : List (BitVec 8) :=
  let header : JournalHeader := ⟨jbd2Magic, jbd2DescriptorBlock, BitVec.ofNat 32 trans.tid⟩
  writeTags journal.blockSize 12
    (patch (List.replicate journal.blockSize 0) 0 header.serialize) (trans.blocks.take 16)

def writeDescriptors (trans : Transaction) : CommitM Unit := do
  setPhase .idle
  let descriptor ←
    liftExcept (stampJournalBlockChecksum (journal.descriptor trans) journal.blockSize)
  writeSectors (journal.commitLba 1) descriptor
  setPhase .descriptorsWritten

def writeBlocks (journal : Journal) : ℕ → List TransactionBlock → CommitM Unit
  | _, [] => pure ()
  | journalLba, block :: rest => do
    if journal.blockSize - 4 < block.data.length then throw .writeError
    else
      let journalBlock ←
        liftExcept (stampJournalBlockChecksum (journal.padded block.data) journal.blockSize)
      writeSectors journalLba journalBlock
      journal.writeBlocks ((journalLba + 1) % 2 ^ 32) rest

def writeDataBlocks (trans : Transaction) : CommitM Unit := do
  requirePhase .descriptorsWritten
  journal.writeBlocks (journal.commitLba 2) trans.blocks
  setPhase .dataWritten

def writeCommitBlock (trans : Transaction) : CommitM Unit := do
  requirePhase .dataWritten
  let data ← liftExcept
    ((CommitBlock.new (BitVec.ofNat 32 trans.tid)).serializeChecked journal.blockSize)
  writeSectors (journal.commitLba (2 + trans.blocks.length)) data
  setPhase .commitWritten

/-- Blocks to their own places. Block numbers are used as sector numbers. -/
def writeTargets (journal : Journal) : List TransactionBlock → CommitM Unit
  | [] => pure ()
  | block :: rest => do
    writeSectors block.blockNr.toNat (journal.padded (block.data.take journal.blockSize))
    journal.writeTargets rest

def checkpoint (trans : Transaction) : CommitM Unit := do
  requirePhase .commitWritten
  if trans.blocks.any fun block => journal.blockSize < block.data.length then throw .writeError
  else
    journal.writeTargets trans.blocks
    flush
    setPhase .checkpointed

/-- The superblock says that there is nothing to recover. -/
def updateSuperblock : CommitM Unit := do
  requirePhase .checkpointed
  modify fun c => { c with
    superblock := { c.superblock with sSequence := BitVec.ofNat 32 journal.sequence, sStart := 0 } }
  let sbBlock ← liftExcept ((← get).superblock.serializeBlockChecked journal.blockSize)
  writeSectors (journal.commitLba 0) sbBlock
  flush
  setPhase .idle

/-- The first four of the seven stages of a commit, up to the commit block. -/
def writeLog (trans : Transaction) : CommitM Unit := do
  journal.writeDescriptors trans
  journal.writeDataBlocks trans
  flush
  journal.writeCommitBlock trans

def commitStages (trans : Transaction) : CommitM Unit := do
  journal.writeLog trans
  flush
  journal.checkpoint trans
  journal.updateSuperblock

/-- The journal as a commit leaves it, which has taken the transaction out of it. -/
def afterCommit (c : Commit) (runningTrans : ℕ) : Journal :=
  { journal with
    superblock := c.superblock, commitPhase := c.phase, runningTrans, currentTransaction := none }

def commitTransaction (drive : BlockDevice) : Except JournalError Unit × Journal × BlockDevice :=
  match journal.currentTransaction with
  | none => (.error .noTransaction, journal, drive)
  | some transaction =>
    match journal.commitStages transaction ⟨journal.superblock, journal.commitPhase, drive⟩ with
    | .error e c => (.error e, journal.afterCommit c journal.runningTrans, c.drive)
    | .ok _ c => (.ok (), journal.afterCommit c (journal.runningTrans - 1), c.drive)

def new (geometry : Geometry) (journalSize : ℕ) : Journal :=
  { geometry with
    superblock := {
      sHeaderHMagic := jbd2Magic, sHeaderHBlocktype := jbd2SuperblockV2, sHeaderHSequence := 0
      sFirst := 0, sSequence := 1, sBlocksize := BitVec.ofNat 32 geometry.blockSize
      sMaxlen := BitVec.ofNat 32 (journalSize / geometry.blockSize), sFirstDataBlock := 0
      sTransaction := 0, sJnlBlocksize := 0, sUsers := 0, sDevMajor := 0, sDevMinor := 0
      sStart := 1, sErrno := 0, sFeatureCompat := 0, sFeatureIncompat := 0, sFeatureRoCompat := 0
      sUuid := 0, sNrRevokes := 0 }
    currentTransaction := none
    sequence := 1
    runningTrans := 0
    commitPhase := .idle }

def init (size : ℕ) (image : Image) : Except JournalError Journal :=
  if size < journal.journalOffset + journal.blockSize then throw .invalidOffset
  else do
    let data := read image journal.journalOffset (size - journal.journalOffset)
    let sb ← JournalSuperblock.parseChecked data journal.blockSize
    pure { journal with superblock := sb, sequence := sb.sSequence.toNat }

end Journal

inductive RecoveryPhase
  | scan
  | revoke
  | replay
  | complete
  deriving DecidableEq

structure RecoveryResult where
  phase : RecoveryPhase
  transactionsFound : ℕ
  blocksReplayed : ℕ
  blocksRevoked : ℕ
  lastSequence : BitVec 32
  success : Bool
  deriving DecidableEq

structure BlockTagInfo where
  targetBlock : BitVec 32
  dataOffset : ℕ
  isEscape : Bool
  deriving DecidableEq

structure ScannedTransaction where
  seq : BitVec 32
  descriptorOffset : ℕ
  blockTags : List BlockTagInfo
  hasCommit : Bool
  deriving DecidableEq

/-- The tags of a descriptor at a position of the journal, from an offset on. Every tag takes the
block behind the descriptor for its data. As many rounds as the block has bytes are enough. -/
def readTags (blockSize journalLen scanPos : ℕ) (buf : List (BitVec 8)) : ℕ → ℕ → List BlockTagInfo
  | 0, _ => []
  | rounds + 1, tagOffset =>
    if tagOffset + 4 ≤ blockSize - 4 then
      let tagBlocknr := be32 buf tagOffset
      if tagBlocknr = 0 then []
      else
        let flags : BitVec 32 :=
          if tagOffset + 6 ≤ blockSize then (be16 buf (tagOffset + 4)).setWidth 32 else 0
        let isEscape := flags &&& jbd2FlagEscape ≠ 0
        let dataPos := scanPos + 1
        let tagSize := if flags &&& jbd2FlagSameUuid ≠ 0 then 8 + 16 else 8
        let rest := readTags blockSize journalLen scanPos buf rounds (tagOffset + tagSize)
        if dataPos < journalLen then ⟨tagBlocknr, dataPos, isEscape⟩ :: rest else rest
    else []

structure Scan where
  transactions : List ScannedTransaction
  revokeTable : List (BitVec 32)
  currentTxn : Option ScannedTransaction
  maxSeq : BitVec 32
  deriving DecidableEq

/-- The transaction under way is kept if its commit has been seen. -/
def Scan.close (scan : Scan) : Scan :=
  match scan.currentTxn with
  | none => scan
  | some txn =>
    if txn.hasCommit then
      { scan with
        transactions := scan.transactions ++ [txn], currentTxn := none
        maxSeq := if scan.maxSeq ≤ txn.seq then txn.seq else scan.maxSeq }
    else { scan with currentTxn := none }

namespace Journal

def readBlock (drive : BlockDevice) (pos : ℕ) : List (BitVec 8) :=
  drive.readSectors ((journal.journalOffset / 512 + pos * journal.blockSize / 512) % 2 ^ 32)
    (journal.blockSize / 512)

/-- The checksum of a transaction that its commit block may carry. -/
def embeddedChecksum (drive : BlockDevice) (txn : ScannedTransaction)
    (descBuf : List (BitVec 8)) : BitVec 32 :=
  txn.blockTags.foldl (fun csum tag =>
    let dataBuf := journal.readBlock drive tag.dataOffset
    if journal.blockSize ≤ dataBuf.length then crc32cWithSeed (dataBuf.take journal.blockSize) csum
    else csum) (crc32cWithSeed (descBuf.take journal.blockSize) 0xFFFFFFFF)

/-- Whether a commit block counts: a checksum that it carries has to match. -/
def commitValid (drive : BlockDevice) (txn : ScannedTransaction)
    (blockBuf : List (BitVec 8)) : Bool :=
  let chksumType := if 12 < journal.blockSize then blockBuf.getD 12 0 else 0
  let chksumSize := if 13 < journal.blockSize then blockBuf.getD 13 0 else 0
  if chksumType = journalChecksumTypeCrc32 ∧ chksumSize = 4 ∧ 20 ≤ journal.blockSize then
    let storedCsum := be32 blockBuf 16
    if storedCsum ≠ 0 then
      let descBuf := journal.readBlock drive txn.descriptorOffset
      if journal.blockSize ≤ descBuf.length then
        journal.embeddedChecksum drive txn descBuf = storedCsum
      else true
    else true
  else true

def revoked (blockBuf : List (BitVec 8)) : List (BitVec 32) :=
  let rCount := if 16 ≤ journal.blockSize then (be32 blockBuf 12).toNat else 0
  let maxEntries := (journal.blockSize - 16) / 4
  (List.range (min rCount maxEntries)).map fun i => be32 blockBuf (16 + 4 * i)

def scanRound (drive : BlockDevice) (scanPos : ℕ) (scan : Scan) : Option Scan :=
  let blockBuf := journal.readBlock drive scanPos
  if blockBuf.isEmpty ∨ blockBuf.length < journal.blockSize then none
  else if (verifyJournalBlockChecksum blockBuf journal.blockSize).isOk = false then none
  else
    match JournalHeader.parse blockBuf with
    | none => none
    | some header =>
      if header.hBlocktype = jbd2DescriptorBlock then
        let tags := readTags journal.blockSize journal.superblock.sMaxlen.toNat scanPos blockBuf
          journal.blockSize 12
        some { scan.close with currentTxn := some ⟨header.hSequence, scanPos, tags, false⟩ }
      else if header.hBlocktype = jbd2CommitBlock then
        match scan.currentTxn with
        | none => some scan
        | some txn =>
          if header.hSequence = txn.seq then
            let txn := { txn with hasCommit := journal.commitValid drive txn blockBuf }
            some { scan with currentTxn := some txn }
          else some scan
      else if header.hBlocktype = jbd2RevokeBlock then
        some { scan with revokeTable := scan.revokeTable ++ journal.revoked blockBuf }
      else if header.hBlocktype = jbd2SuperblockV1 ∨ header.hBlocktype = jbd2SuperblockV2 then
        some scan
      else none

def scanBlocks (journal : Journal) (drive : BlockDevice) : ℕ → ℕ → Scan → Scan
  | 0, _, scan => scan
  | blocks + 1, scanPos, scan =>
    match journal.scanRound drive scanPos scan with
    | none => scan
    | some scan => journal.scanBlocks drive blocks (scanPos + 1) scan

def scanJournal (drive : BlockDevice) : Scan :=
  let start := journal.superblock.sStart.toNat
  (journal.scanBlocks drive (journal.superblock.sMaxlen.toNat - start) start
    ⟨[], [], none, 0⟩).close

/-- The bytes of an escaped block are masked with those of the magic number in turn. -/
def unescape : List (BitVec 8) :=
  data.mapIdx fun i byte => byte ^^^ (toBeBytes jbd2Magic).getD (i % 4) 0

/-- Write a block to its own place; a write that fails is not counted. -/
def replayTag (replayed : BlockDevice × ℕ) (tag : BlockTagInfo) : BlockDevice × ℕ :=
  let dataBuf := journal.readBlock replayed.1 tag.dataOffset
  if dataBuf.isEmpty ∨ dataBuf.length < journal.blockSize then replayed
  else
    let dataBuf := dataBuf.take journal.blockSize
    let dataBuf := if tag.isEscape then unescape dataBuf else dataBuf
    match BlockDevice.writeSectors () tag.targetBlock.toNat dataBuf replayed.1 with
    | .ok _ drive => (drive, replayed.2 + 1)
    | .error _ drive => (drive, replayed.2)

def keptTags (scan : Scan) : List BlockTagInfo :=
  scan.transactions.flatMap fun txn =>
    txn.blockTags.filter fun tag => tag.targetBlock ∉ scan.revokeTable

def recover (drive : BlockDevice) : Except JournalError RecoveryResult × Journal × BlockDevice :=
  if journal.superblock.sStart = 0 then (.ok ⟨.complete, 0, 0, 0, 0, true⟩, journal, drive)
  else
    let scan := journal.scanJournal drive
    let tags := scan.transactions.flatMap (·.blockTags)
    let kept := keptTags scan
    let (drive, blocksReplayed) := kept.foldl journal.replayTag (drive, 0)
    let superblock := { journal.superblock with sStart := 0, sSequence := scan.maxSeq + 1 }
    let journal := { journal with superblock }
    match journal.superblock.serializeBlockChecked journal.blockSize with
    | .error e => (.error e, journal, drive)
    | .ok sbData =>
      let result : RecoveryResult := ⟨.complete, scan.transactions.length, blocksReplayed,
        tags.length - kept.length, scan.maxSeq + 1, true⟩
      match BlockDevice.writeSectors () (journal.journalOffset / 512 % 2 ^ 32) sbData drive with
      | .ok _ drive => (.ok result, journal, drive)
      | .error _ drive => (.ok result, journal, drive)

end Journal

end EchOS.Fs.Jbd2
