import EchOS.Fs.Ext4Extent

/-! Reading and writing the contents of an ext4 file, block by block. -/

namespace EchOS.Fs.Ext4

open Bytes

namespace Volume

/-- The blocks of a file from a logical block on, behind what was read so far. A block that the
file does not have ends the reading. -/
def readBlocks (vol : Volume) (inode : Ext4Inode) (size : ℕ) :
    ℕ → ℕ → List (BitVec 8) → Except Ext4Fault (List (BitVec 8))
  | 0, _, data => .ok data
  | rounds + 1, logical, data =>
    match vol.mapBlockWithStorage inode (logical % 2 ^ 32) with
    | .error fault => .error fault
    | .ok none => .ok data
    | .ok (some physBlock) =>
      let readSize := min vol.fs.blockSize.toNat (size - data.length)
      match readExact vol.storage (vol.fs.blockOffset (UInt64.ofNat physBlock)) readSize with
      | .error _ => .error (.error .readError)
      | .ok block => vol.readBlocks inode size rounds (logical + 1) (data ++ block)

/-- The check of a file's hash tree, which only a file marked for it goes through, is a parameter.
-/
def readFileFromStorage
    (verifyVerityFile : Ext4Inode → List (BitVec 8) → Ext4Storage → Except Ext4Fault Unit)
    (vol : Volume) (inode : Ext4Inode) : Except Ext4Fault (List (BitVec 8)) :=
  let size := inode.size.toNat
  let blockSize := vol.fs.blockSize.toNat
  if inode.hasFlag Ext4Inode.inlineDataFl then .ok (inode.iBlock.toList.take (min 60 size))
  else if blockSize = 0 then .error .panic
  else
    let blocksNeeded := (size + blockSize - 1) % 2 ^ 64 / blockSize
    match vol.readBlocks inode size blocksNeeded 0 [] with
    | .error fault => .error fault
    | .ok data =>
      if inode.hasFlag Ext4Inode.verityFl then
        match verifyVerityFile inode (data.take size) vol.storage with
        | .error fault => .error fault
        | .ok _ => .ok (data.take size)
      else .ok (data.take size)

end Volume

def Ext4Inode.setSize (inode : Ext4Inode) (newSize : UInt64) : Ext4Inode :=
  { inode with
    iSizeLo := (newSize &&& 0xFFFFFFFF).toUInt32
    iSizeHi := (newSize >>> 32).toUInt32 }

structure File where
  vol : Volume
  inode : Ext4Inode

namespace File

def blockSize (file : File) : ℕ := file.vol.fs.blockSize.toNat

/-- The block that a logical block is written to. A file that does not have it gets a new one. -/
def blockFor (file : File) (blockNum : ℕ) : Except Ext4Fault ℕ × File :=
  match file.vol.mapBlockWithStorage file.inode (blockNum % 2 ^ 32) with
  | .error fault => (.error fault, file)
  | .ok (some physBlock) => (.ok physBlock, file)
  | .ok none =>
    match file.vol.allocBlock with
    | (.error fault, vol) => (.error fault, { file with vol := vol })
    | (.ok newBlock, vol) =>
      match insertExtent file.inode (blockNum % 2 ^ 32) newBlock.toNat 1 with
      | .error fault => (.error fault, { file with vol := vol })
      | .ok inode => (.ok newBlock.toNat, { vol := vol, inode := inode })

/-- Reads a block, changes a piece of it and writes it back. A block that cannot be read counts as
zeros. -/
def storePiece (file : File) (physBlock writeStart : ℕ) (piece : List (BitVec 8)) :
    Except Ext4Fault Ext4Storage :=
  let blockOffset := file.vol.fs.blockOffset (UInt64.ofNat physBlock)
  let block := match readExact file.vol.storage blockOffset file.blockSize with
    | .ok block => block
    | .error _ => List.replicate file.blockSize 0
  writeExact file.vol.storage blockOffset (Disk.patch block writeStart piece)

/-- One round of a write. `written` counts the bytes of the data that are done. -/
def writeBlock (file : File) (offset : ℕ) (data : List (BitVec 8)) (blockNum written : ℕ) :
    Except Ext4Fault ℕ × File :=
  match file.blockFor blockNum with
  | (.error fault, file) => (.error fault, file)
  | (.ok physBlock, file) =>
    let blockStartInFile := blockNum * file.blockSize
    let writeStart := if blockStartInFile < offset then offset - blockStartInFile else 0
    let writeEnd := min file.blockSize (data.length - written + writeStart)
    let writeLen := writeEnd - writeStart
    if 0 < writeLen ∧ written < data.length then
      let writeCount := min writeLen (data.length - written)
      match file.storePiece physBlock writeStart (slice data written (written + writeCount)) with
      | .error fault => (.error fault, file)
      | .ok storage =>
        (.ok (written + writeCount), { file with vol := { file.vol with storage := storage } })
    else (.ok written, file)

def writeBlocks (offset : ℕ) (data : List (BitVec 8)) :
    ℕ → File → ℕ → ℕ → Except Ext4Fault ℕ × File
  | 0, file, _, written => (.ok written, file)
  | rounds + 1, file, blockNum, written =>
    match file.writeBlock offset data blockNum written with
    | (.error fault, file) => (.error fault, file)
    | (.ok written, file) => writeBlocks offset data rounds file (blockNum + 1) written

def writeFileToStorage (file : File) (offset : UInt64) (data : List (BitVec 8)) :
    Except Ext4Fault ℕ × File :=
  if file.vol.fs.readOnly then (.error (.error .writeError), file)
  else if file.inode.hasFlag Ext4Inode.inlineDataFl then (.error (.error .notSupported), file)
  else if file.blockSize = 0 then (.error .panic, file)
  else
    let startBlock := offset.toNat / file.blockSize
    let endBlock := (offset.toNat + data.length + file.blockSize - 1) % 2 ^ 64 / file.blockSize
    match writeBlocks offset.toNat data (endBlock - startBlock) file startBlock 0 with
    | (.error fault, file) => (.error fault, file)
    | (.ok bytesWritten, file) =>
      let newSize := offset + UInt64.ofNat bytesWritten
      if file.inode.size < newSize then
        (.ok bytesWritten, { file with inode := file.inode.setSize newSize })
      else (.ok bytesWritten, file)

end File

end EchOS.Fs.Ext4
