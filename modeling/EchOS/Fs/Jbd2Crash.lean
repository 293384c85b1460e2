import EchOS.Fs.Jbd2
import EchOS.Lib.Effect
import EchOS.Lib.Fallible

/-! A crash during a commit, and the recovery after it. A commit never says in the superblock that
there is something to recover, and a scan stops at the first data block behind a descriptor. -/

namespace EchOS.Fs.Jbd2

open Disk List Option

def word (image : Image) (a : ℕ) : BitVec 32 := BitVec.ofNat 32 (ofBe (read image a 4))

section Word

variable {image image' : Image} {a n k : ℕ} {data : List (BitVec 8)}

theorem be32_read (h : k + 4 ≤ n) : be32 (read image a n) k = word image (a + k) := by
  rw [be32, drop_read, read_take 4 (by omega), word]

theorem be32_take {buf : List (BitVec 8)} (h : k + 4 ≤ n) : be32 (buf.take n) k = be32 buf k := by
  rw [be32, be32, drop_take, take_take, Nat.min_eq_left (by omega)]

theorem word_write_outside (h : k + 4 ≤ a ∨ a + data.length ≤ k) :
    word (write image a data) k = word image k := by
  rw [word, word, read_congr]
  intro b hle hlt
  exact write_outside (by omega)

theorem word_write_inside (h : k + 4 ≤ data.length) :
    word (write image a data) (a + k) = be32 data k := by
  rw [word, read_write k h, be32]

end Word

namespace Geometry

theorem blockSize_ge (geometry : Geometry) : 512 ≤ geometry.blockSize := by
  have hsectors := geometry.blockSize_sectors
  have hpos := geometry.blockSize_pos
  omega

theorem length_padded {geometry : Geometry} {data : List (BitVec 8)}
    (h : data.length ≤ geometry.blockSize) :
    (geometry.padded data).length = geometry.blockSize := by
  rw [padded, length_append, length_replicate]
  omega

end Geometry

theorem stamp_ok {block : List (BitVec 8)} {blockSize : ℕ} (hsize : 4 ≤ blockSize)
    (hlength : block.length = blockSize) :
    ∃ out, stampJournalBlockChecksum block blockSize = .ok out ∧ out.length = blockSize ∧
      out.take (blockSize - 4) = block.take (blockSize - 4) := by
  have hslot : checksumSlot blockSize = some (blockSize - 4) := if_pos hsize
  have hroom : ¬(block.length < blockSize ∨ block.length < blockSize - 4 + 4) := by omega
  let zeroed := patch block (blockSize - 4) (replicate 4 0)
  have hzeroed : zeroed.length = blockSize :=
    length_patch hlength (by rw [length_replicate]; omega)
  refine ⟨patch zeroed (blockSize - 4) (toBeBytes (crc32Ieee (zeroed.take blockSize))),
    ?_, ?_, ?_⟩
  · rw [stampJournalBlockChecksum, hslot]
    exact if_neg hroom
  · apply length_patch hzeroed
    rw [toBeBytes, length_toBe]
    omega
  · rw [take_patch (by omega), take_patch (by omega)]

theorem length_stamp {block out : List (BitVec 8)} {blockSize : ℕ} (hsize : 4 ≤ blockSize)
    (hlength : block.length = blockSize)
    (h : stampJournalBlockChecksum block blockSize = .ok out) :
    out.length = blockSize ∧ out.take (blockSize - 4) = block.take (blockSize - 4) := by
  obtain ⟨out', hout, hstamped⟩ := stamp_ok hsize hlength
  obtain rfl := Except.ok.inj (hout.symm.trans h)
  exact hstamped

theorem be32_stamp {block out : List (BitVec 8)} {blockSize k : ℕ}
    (h : out.take (blockSize - 4) = block.take (blockSize - 4)) (hk : k + 4 ≤ blockSize - 4) :
    be32 out k = be32 block k := by
  rw [← be32_take hk, h, be32_take hk]

variable (v : BitVec 32)

theorem length_toBeBytes : (toBeBytes v).length = 4 := length_toBe 4 v.toNat

theorem drop_field (rest : List (BitVec 8)) (n : ℕ) :
    (toBeBytes v ++ rest).drop (n + 4) = rest.drop n := by
  rw [drop_append, drop_eq_nil_of_le (by rw [length_toBeBytes]; omega), nil_append,
    length_toBeBytes, Nat.add_sub_cancel]

namespace JournalSuperblock

variable {sb : JournalSuperblock}

theorem length_serialize : sb.serialize.length = 92 := by
  unfold serialize
  simp only [length_append, length_toBeBytes]
  rw [length_toBe]

theorem serialize_start : (sb.serialize.drop 52).take 4 = toBeBytes sb.sStart := by
  unfold serialize
  simp only [append_assoc]
  iterate 13 rw [drop_field]
  rw [drop_zero, take_left' (length_toBeBytes _)]

theorem serializeBlockChecked_ok {blockSize : ℕ} {out : List (BitVec 8)}
    (h : sb.serializeBlockChecked blockSize = .ok out) :
    out.length = blockSize ∧ be32 out 52 = be32 (toBeBytes sb.sStart) 0 := by
  unfold serializeBlockChecked at h
  split_ifs at h with hsmall
  have hsize : 96 ≤ blockSize := Nat.not_lt.mp hsmall
  have hserial : sb.serialize.length = 92 := length_serialize
  have hblock : (patch (replicate blockSize 0) 0 sb.serialize).length = blockSize :=
    length_patch length_replicate (by omega)
  obtain ⟨hlength, hfront⟩ := length_stamp (by omega) hblock h
  have hpatch : (patch (replicate blockSize 0) 0 sb.serialize).take 92 = sb.serialize := by
    rw [patch, take_zero, nil_append, ← hserial, take_left]
  have hstart : be32 sb.serialize 52 = be32 (toBeBytes sb.sStart) 0 := by
    rw [be32, serialize_start, be32, drop_zero,
      take_of_length_le (Nat.le_of_eq (length_toBeBytes _))]
  refine ⟨hlength, ?_⟩
  rw [be32_stamp hfront (by omega), ← hstart, ← be32_take (show 52 + 4 ≤ 92 by omega), hpatch]

end JournalSuperblock

/-! ### Recovery -/

structure Scan.Empty (scan : Scan) : Prop where
  transactions : scan.transactions = []
  uncommitted : ∀ txn ∈ scan.currentTxn, txn.hasCommit = false

theorem Scan.Empty.close {scan : Scan} (h : scan.Empty) : scan.close.transactions = [] := by
  unfold Scan.close
  cases hcurrent : scan.currentTxn with
  | none => exact h.transactions
  | some txn =>
    have hcommit : ¬txn.hasCommit = true := by simp [h.uncommitted txn hcurrent]
    dsimp only
    rw [if_neg hcommit]
    exact h.transactions

theorem Scan.empty_start : Scan.Empty ⟨[], [], none, 0⟩ := ⟨rfl, fun _ h => nomatch h⟩

namespace Journal

variable {journal : Journal} {drive : BlockDevice} {scanPos : ℕ} {scan : Scan}

theorem scanRound_start
    (h : journal.scanRound drive scanPos ⟨[], [], none, 0⟩ = some scan) : scan.Empty := by
  unfold scanRound at h
  dsimp only at h
  split at h
  · cases h
  split at h
  · cases h
  cases hheader : JournalHeader.parse (journal.readBlock drive scanPos) with
  | none => rw [hheader] at h; exact nomatch h
  | some header =>
    rw [hheader] at h
    dsimp only at h
    split_ifs at h
    · cases h
      refine ⟨rfl, fun txn htxn => ?_⟩
      cases htxn
      rfl
    · cases h
      exact Scan.empty_start
    · cases h
      exact ⟨rfl, fun _ htxn => nomatch htxn⟩
    · cases h
      exact Scan.empty_start

theorem scanRound_none (h : be32 (journal.readBlock drive scanPos) 0 ≠ jbd2Magic) :
    journal.scanRound drive scanPos scan = none := by
  have hheader : JournalHeader.parse (journal.readBlock drive scanPos) = none := by
    by_cases hshort : (journal.readBlock drive scanPos).length < 12
    · exact if_pos hshort
    · exact (if_neg hshort).trans (if_pos h)
  unfold scanRound
  dsimp only
  rw [hheader]
  split_ifs <;> rfl

theorem scanBlocks_empty
    (h : be32 (journal.readBlock drive (scanPos + 1)) 0 ≠ jbd2Magic) (blocks : ℕ) :
    (journal.scanBlocks drive blocks scanPos ⟨[], [], none, 0⟩).Empty := by
  cases blocks with
  | zero => exact Scan.empty_start
  | succ blocks =>
    rw [scanBlocks]
    cases hround : journal.scanRound drive scanPos ⟨[], [], none, 0⟩ with
    | none => exact Scan.empty_start
    | some scan =>
      cases blocks with
      | zero => exact scanRound_start hround
      | succ blocks =>
        dsimp only
        rw [scanBlocks, scanRound_none h]
        exact scanRound_start hround

theorem recover_clean (h : journal.superblock.sStart = 0) :
    (journal.recover drive).2.2 = drive := by
  rw [recover, if_pos h]

theorem recover_quiet
    (hquiet : be32 (journal.readBlock drive (journal.superblock.sStart.toNat + 1)) 0 ≠ jbd2Magic)
    {a : ℕ} (ha : a < 512 * (journal.journalOffset / 512 % 2 ^ 32) ∨
      512 * (journal.journalOffset / 512 % 2 ^ 32) + journal.blockSize ≤ a) :
    (journal.recover drive).2.2.image a = drive.image a := by
  by_cases hstart : journal.superblock.sStart = 0
  · rw [recover_clean hstart]
  · rw [recover, if_neg hstart]
    have htransactions : (journal.scanJournal drive).transactions = [] :=
      (scanBlocks_empty hquiet _).close
    have hkept : keptTags (journal.scanJournal drive) = [] := by rw [keptTags, htransactions]; rfl
    dsimp only
    rw [hkept]
    dsimp only [foldl_nil]
    cases hsb : JournalSuperblock.serializeBlockChecked _ journal.blockSize with
    | error e => rfl
    | ok sbData =>
      obtain ⟨hlength, -⟩ := JournalSuperblock.serializeBlockChecked_ok hsb
      rw [← hlength] at ha
      dsimp only
      by_cases hfail : drive.fails drive.calls = true
      · rw [BlockDevice.writeSectors, if_pos hfail]
      · rw [BlockDevice.writeSectors, if_neg hfail]
        exact write_outside ha

theorem init_ok {size : ℕ} {image : Image} {journal' : Journal}
    (h : journal.init size image = .ok journal') :
    journal'.toGeometry = journal.toGeometry ∧
      journal'.superblock.sStart = word image (journal.journalOffset + 52) := by
  have hblock := journal.blockSize_ge
  unfold init at h
  split_ifs at h with hsmall
  obtain ⟨sb, hparse, h⟩ := Fallible.bind_eq_ok.mp h
  cases h
  refine ⟨rfl, ?_⟩
  unfold JournalSuperblock.parseChecked at hparse
  rw [if_neg (by rw [length_read]; omega)] at hparse
  obtain ⟨-, -, hparse⟩ := Fallible.bind_eq_ok.mp hparse
  rw [read_take _ (by omega)] at hparse
  unfold JournalSuperblock.parse at hparse
  split_ifs at hparse
  · cases hparse
  · cases hparse
  · cases hparse
    exact be32_read (by omega)

end Journal

/-! ### Crashes -/

/-- The image after a restart: the superblock is read, and if that succeeds, the recovery run. -/
def Geometry.recovered (geometry : Geometry) (journalSize size : ℕ) (image : Image) : Image :=
  match (Journal.new geometry journalSize).init size image with
  | .error _ => image
  | .ok journal => (journal.recover ⟨image, 0, fun _ => false⟩).2.2.image

def Geometry.block (geometry : Geometry) (image : Image) (block : TransactionBlock) :
    List (BitVec 8) :=
  read image (512 * block.blockNr.toNat) geometry.blockSize

def Geometry.contents (geometry : Geometry) (block : TransactionBlock) : List (BitVec 8) :=
  geometry.padded (block.data.take geometry.blockSize)

namespace Journal

/-- The image that a commit leaves on a device. The commit ends with the first call that fails, so
every prefix of its writes is what it leaves on one device or another. -/
def crashImage (journal : Journal) (fails : ℕ → Bool) (image : Image) : Image :=
  (journal.commitTransaction ⟨image, 0, fails⟩).2.2.image

/-- The commit block is among the writes of a commit on the device. -/
def CommitReached (journal : Journal) (trans : Transaction) (fails : ℕ → Bool)
    (image : Image) : Prop :=
  ∃ c, journal.writeLog trans ⟨journal.superblock, journal.commitPhase, image, 0, fails⟩ = .ok () c

/-- Wherever a commit is cut off, a recovery leaves all blocks as they were or all as the
transaction has them, and the latter once the commit block is written. -/
def CrashAtomic (journal : Journal) (trans : Transaction) (journalSize size : ℕ)
    (image : Image) : Prop :=
  ∀ fails, let image' := journal.recovered journalSize size (journal.crashImage fails image)
    ((∀ b ∈ trans.blocks, journal.block image' b = journal.block image b) ∨
      ∀ b ∈ trans.blocks, journal.block image' b = journal.contents b) ∧
    (journal.CommitReached trans fails image →
      ∀ b ∈ trans.blocks, journal.block image' b = journal.contents b)

end Journal

end EchOS.Fs.Jbd2
