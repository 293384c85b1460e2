import EchOS.Lib.WordBits
import EchOS.Lib.Bytes

/-! Block allocation of an ext4 volume: the group descriptors, the block bitmaps that the storage
holds, and the calls that take a block from them and give it back. -/

namespace EchOS.Fs.Ext4

open Bytes

inductive Ext4Error
  | invalidFormat
  | readError
  | writeError
  | notFound
  | notSupported
  | outOfMemory
  | corrupted
  | checksumError
  | journalError
  deriving DecidableEq

/-- How a call ends without a result: it returns an error, or it panics. -/
inductive Ext4Fault
  | error (reason : Ext4Error)
  | panic
  deriving DecidableEq

section Storage

abbrev Ext4Storage := List (BitVec 8)

def readExact (storage : Ext4Storage) (offset len : ℕ) : Except Ext4Fault (List (BitVec 8)) :=
  if storage.length < offset + len then .error (.error .readError)
  else .ok (slice storage offset (offset + len))

def writeExact (storage : Ext4Storage) (offset : ℕ) (data : List (BitVec 8)) :
    Except Ext4Fault Ext4Storage :=
  if storage.length < offset + data.length then .error (.error .writeError)
  else .ok (Disk.patch storage offset data)

end Storage

structure Ext4Superblock where
  sBlocksCountLo : UInt32
  sBlocksCountHi : UInt32
  sBlocksPerGroup : UInt32
  sInodesPerGroup : UInt32
  sInodeSize : UInt16
  sDescSize : UInt16

namespace Ext4Superblock

def totalBlocks (superblock : Ext4Superblock) : UInt64 :=
  superblock.sBlocksCountHi.toUInt64 <<< 32 ||| superblock.sBlocksCountLo.toUInt64

def blockGroupsCount (superblock : Ext4Superblock) : UInt32 :=
  let perGroup := superblock.sBlocksPerGroup.toUInt64
  ((superblock.totalBlocks + perGroup - 1) / perGroup).toUInt32

end Ext4Superblock

structure Ext4GroupDescriptor where
  bgBlockBitmapLo : UInt32
  bgInodeBitmapLo : UInt32
  bgInodeTableLo : UInt32
  bgFreeBlocksCountLo : UInt16
  bgFreeInodesCountLo : UInt16
  bgUsedDirsLo : UInt16
  bgFlags : UInt16
  bgExcludeBitmapLo : UInt32
  bgBlockBitmapCsumLo : UInt16
  bgInodeBitmapCsumLo : UInt16
  bgItableUnusedLo : UInt16
  bgChecksum : UInt16
  bgBlockBitmapHi : UInt32
  bgInodeBitmapHi : UInt32
  bgInodeTableHi : UInt32
  bgFreeBlocksCountHi : UInt16
  bgFreeInodesCountHi : UInt16
  bgUsedDirsHi : UInt16
  bgItableUnusedHi : UInt16
  bgExcludeBitmapHi : UInt32
  bgBlockBitmapCsumHi : UInt16
  bgInodeBitmapCsumHi : UInt16
  bgReserved : UInt32

namespace Ext4GroupDescriptor

def blockNumber (is64bit : Bool) (lo hi : UInt32) : UInt64 :=
  if is64bit then hi.toUInt64 <<< 32 ||| lo.toUInt64 else lo.toUInt64

variable (gd : Ext4GroupDescriptor)

def blockBitmap (is64bit : Bool) : UInt64 :=
  blockNumber is64bit gd.bgBlockBitmapLo gd.bgBlockBitmapHi

def inodeBitmap (is64bit : Bool) : UInt64 :=
  blockNumber is64bit gd.bgInodeBitmapLo gd.bgInodeBitmapHi

def inodeTable (is64bit : Bool) : UInt64 :=
  blockNumber is64bit gd.bgInodeTableLo gd.bgInodeTableHi

def isBlockUninit : Bool := gd.bgFlags &&& 0x2 != 0

def freeBlocksCount (is64bit : Bool) : UInt32 :=
  if is64bit then gd.bgFreeBlocksCountHi.toUInt32 <<< 16 ||| gd.bgFreeBlocksCountLo.toUInt32
  else gd.bgFreeBlocksCountLo.toUInt32

def withFreeBlocks (is64bit : Bool) (count : UInt32) : Ext4GroupDescriptor :=
  if is64bit then
    { gd with
      bgFreeBlocksCountLo := (count &&& 0xFFFF).toUInt16
      bgFreeBlocksCountHi := (count >>> 16).toUInt16 }
  else { gd with bgFreeBlocksCountLo := (count &&& 0xFFFF).toUInt16 }

def serialize32 : List (BitVec 8) :=
  toLe 4 gd.bgBlockBitmapLo.toNat ++ toLe 4 gd.bgInodeBitmapLo.toNat
    ++ toLe 4 gd.bgInodeTableLo.toNat ++ toLe 2 gd.bgFreeBlocksCountLo.toNat
    ++ toLe 2 gd.bgFreeInodesCountLo.toNat ++ toLe 2 gd.bgUsedDirsLo.toNat
    ++ toLe 2 gd.bgFlags.toNat ++ toLe 4 gd.bgExcludeBitmapLo.toNat
    ++ toLe 2 gd.bgBlockBitmapCsumLo.toNat ++ toLe 2 gd.bgInodeBitmapCsumLo.toNat
    ++ toLe 2 gd.bgItableUnusedLo.toNat ++ toLe 2 gd.bgChecksum.toNat

def serialize64 : List (BitVec 8) :=
  gd.serialize32 ++ toLe 4 gd.bgBlockBitmapHi.toNat ++ toLe 4 gd.bgInodeBitmapHi.toNat
    ++ toLe 4 gd.bgInodeTableHi.toNat ++ toLe 2 gd.bgFreeBlocksCountHi.toNat
    ++ toLe 2 gd.bgFreeInodesCountHi.toNat ++ toLe 2 gd.bgUsedDirsHi.toNat
    ++ toLe 2 gd.bgItableUnusedHi.toNat ++ toLe 4 gd.bgExcludeBitmapHi.toNat
    ++ toLe 2 gd.bgBlockBitmapCsumHi.toNat ++ toLe 2 gd.bgInodeBitmapCsumHi.toNat
    ++ toLe 4 gd.bgReserved.toNat

end Ext4GroupDescriptor

section BitmapCalls

/-- Looks at `n` bits from `i` on, and stops at the end of the bitmap. -/
def bitmapScan (bitmap : List (BitVec 8)) (i : ℕ) : ℕ → Option (ℕ × List (BitVec 8))
  | 0 => none
  | n + 1 =>
    if bitmap.length ≤ i / 8 then none
    else if bitmap.getD (i / 8) 0 &&& WordBits.mask 8 i = 0 then some (i, WordBits.set bitmap i)
    else bitmapScan bitmap (i + 1) n

def bitmapAlloc (bitmap : List (BitVec 8)) (start max : UInt32) : Option (ℕ × List (BitVec 8)) :=
  bitmapScan bitmap start.toNat (max.toNat - start.toNat)

def bitmapFree (bitmap : List (BitVec 8)) (index : ℕ) : List (BitVec 8) :=
  if index / 8 < bitmap.length then WordBits.clear bitmap index else bitmap

/-- Marks a block of a group's own metadata, and panics where the bitmap is too short for it. -/
def setBit (bits : UInt32) (bitmap : List (BitVec 8)) (bit : UInt32) :
    Except Ext4Fault (List (BitVec 8)) :=
  if bit < bits then
    if bit.toNat / 8 < bitmap.length then .ok (WordBits.set bitmap bit.toNat) else .error .panic
  else .ok bitmap

end BitmapCalls

structure Ext4FileSystem where
  superblock : Ext4Superblock
  blockSize : UInt32
  is64bit : Bool
  groupDescriptors : List Ext4GroupDescriptor
  readOnly : Bool

structure Volume where
  fs : Ext4FileSystem
  storage : Ext4Storage

namespace Ext4FileSystem

variable (fs : Ext4FileSystem)

def gdSize : ℕ :=
  let descSize := fs.superblock.sDescSize.toNat
  if 32 ≤ descSize then descSize else if fs.is64bit then 64 else 32

def blockOffset (block : UInt64) : ℕ := (block * fs.blockSize.toUInt64).toNat

def descriptorOffset (group : ℕ) : ℕ := fs.blockSize.toNat + group * fs.gdSize

def descriptorBytes (gd : Ext4GroupDescriptor) : List (BitVec 8) :=
  if 64 ≤ fs.gdSize then gd.serialize64 else gd.serialize32

def itableBlocks : UInt64 :=
  (fs.superblock.sInodesPerGroup.toUInt64 * fs.superblock.sInodeSize.toUInt64
    + fs.blockSize.toUInt64 - 1) / fs.blockSize.toUInt64

def scanStart (group : ℕ) : UInt32 :=
  let first := UInt32.ofNat group * fs.superblock.sBlocksPerGroup
  max (first + 1) (first + 2)

def scanEnd (group : ℕ) : UInt32 :=
  UInt32.ofNat group * fs.superblock.sBlocksPerGroup + 1 + (fs.superblock.sBlocksPerGroup - 1)

def groups : ℕ := fs.superblock.blockGroupsCount.toNat

end Ext4FileSystem

namespace Volume

variable (vol : Volume)

def writeGroupDescriptor (group : ℕ) : Except Ext4Fault Ext4Storage :=
  match vol.fs.groupDescriptors[group]? with
  | none => .error (.error .outOfMemory)
  | some gd => writeExact vol.storage (vol.fs.descriptorOffset group) (vol.fs.descriptorBytes gd)

def bitmapOffset (gd : Ext4GroupDescriptor) : ℕ :=
  vol.fs.blockOffset (gd.blockBitmap vol.fs.is64bit)

def readBlockBitmap (group : ℕ) : Except Ext4Fault (List (BitVec 8)) :=
  match vol.fs.groupDescriptors[group]? with
  | none => .error (.error .outOfMemory)
  | some gd => readExact vol.storage (vol.bitmapOffset gd) vol.fs.blockSize.toNat

def setDescriptor (group : ℕ) (gd : Ext4GroupDescriptor) : Volume :=
  { vol with fs := { vol.fs with groupDescriptors := vol.fs.groupDescriptors.set group gd } }

/-- Writes a group's bitmap to its block, and then the descriptor with the new counter. What was
done before an error stays done. -/
def storeBitmap (group : ℕ) (gd gd' : Ext4GroupDescriptor)
    (bitmap : List (BitVec 8)) : Except Ext4Fault Unit × Volume :=
  match writeExact vol.storage (vol.bitmapOffset gd) bitmap with
  | .error fault => (.error fault, vol)
  | .ok storage =>
    let written := { vol with storage := storage }.setDescriptor group gd'
    match written.writeGroupDescriptor group with
    | .error fault => (.error fault, written)
    | .ok storage => (.ok (), { written with storage := storage })

/-- The bitmap of a group that was never initialised, with the group's own metadata marked. -/
def markMetadata (group : ℕ) (gd : Ext4GroupDescriptor)
    (bitmap : List (BitVec 8)) : Except Ext4Fault (List (BitVec 8)) := do
  let groupStart := UInt64.ofNat group * vol.fs.superblock.sBlocksPerGroup.toUInt64
  let bits := vol.fs.superblock.sBlocksPerGroup
  let bitmap ← setBit bits bitmap (gd.blockBitmap vol.fs.is64bit - groupStart).toUInt32
  let bitmap ← setBit bits bitmap (gd.inodeBitmap vol.fs.is64bit - groupStart).toUInt32
  let relInodeTable := (gd.inodeTable vol.fs.is64bit - groupStart).toUInt32
  (List.range vol.fs.itableBlocks.toUInt32.toNat).foldlM
    (fun bitmap i => setBit bits bitmap (relInodeTable + UInt32.ofNat i)) bitmap

def allocUninit (group : ℕ) (gd : Ext4GroupDescriptor) :
    Option (Except Ext4Fault UInt64) × Volume :=
  match vol.readBlockBitmap group with
  | .error fault => (some (.error fault), vol)
  | .ok bitmap =>
    if bitmap.isEmpty then (none, vol)
    else match vol.markMetadata group gd bitmap with
      | .error fault => (some (.error fault), vol)
      | .ok bitmap =>
        match bitmapAlloc bitmap 0 vol.fs.superblock.sBlocksPerGroup with
        | none => (some (.error (.error .outOfMemory)), vol)
        | some (firstFree, bitmap) =>
          let groupStart := UInt64.ofNat group * vol.fs.superblock.sBlocksPerGroup.toUInt64
          let metadataBlocks := 2 + vol.fs.itableBlocks
          let remaining := vol.fs.superblock.sBlocksPerGroup - metadataBlocks.toUInt32
          let counted := gd.withFreeBlocks vol.fs.is64bit remaining
          let (result, vol) := vol.storeBitmap group gd
            { counted with bgFlags := counted.bgFlags &&& ~~~0x2 } bitmap
          (some (result.map fun _ => groupStart + UInt64.ofNat firstFree), vol)

/-- Takes a block of a group by a scan of its bitmap. The scan runs over block numbers of the
volume, not over indices of the group. -/
def allocScan (group : ℕ) (gd : Ext4GroupDescriptor) : Option (Except Ext4Fault UInt64) × Volume :=
  match vol.readBlockBitmap group with
  | .error fault => (some (.error fault), vol)
  | .ok bitmap =>
    match bitmapAlloc bitmap (vol.fs.scanStart group) (vol.fs.scanEnd group) with
    | none => (none, vol)
    | some (blk, bitmap) =>
      let freeCount := gd.freeBlocksCount vol.fs.is64bit
      let (result, vol) := vol.storeBitmap group gd
        (gd.withFreeBlocks vol.fs.is64bit (freeCount - 1)) bitmap
      (some (result.map fun _ => UInt64.ofNat blk), vol)

/-- One round of the loop over the groups: `none` if it goes on. -/
def allocGroup (group : ℕ) : Option (Except Ext4Fault UInt64) × Volume :=
  match vol.fs.groupDescriptors[group]? with
  | none => (some (.error (.error .outOfMemory)), vol)
  | some gd =>
    if gd.isBlockUninit then vol.allocUninit group gd
    else if gd.freeBlocksCount vol.fs.is64bit = 0 then (none, vol)
    else vol.allocScan group gd

def allocFrom (vol : Volume) : List ℕ → Except Ext4Fault UInt64 × Volume
  | [] => (.error (.error .outOfMemory), vol)
  | group :: groups =>
    match vol.allocGroup group with
    | (some result, vol) => (result, vol)
    | (none, vol) => vol.allocFrom groups

def allocBlock : Except Ext4Fault UInt64 × Volume :=
  if vol.fs.readOnly then (.error (.error .writeError), vol)
  -- the number of groups is a quotient by the blocks of a group
  else if vol.fs.superblock.sBlocksPerGroup = 0 then (.error .panic, vol)
  else vol.allocFrom (List.range vol.fs.groups)

def freeBlock (block : UInt64) : Except Ext4Fault Unit × Volume :=
  let perGroup := vol.fs.superblock.sBlocksPerGroup.toUInt64
  if vol.fs.readOnly then (.error (.error .writeError), vol)
  else if perGroup = 0 then (.error .panic, vol)
  else
    let group := (block / perGroup).toUInt32.toNat
    let index := (block % perGroup).toUInt32.toNat
    match vol.readBlockBitmap group, vol.fs.groupDescriptors[group]? with
    | .error fault, _ => (.error fault, vol)
    | .ok _, none => (.error (.error .outOfMemory), vol)
    | .ok bitmap, some gd =>
      let freeCount := gd.freeBlocksCount vol.fs.is64bit
      vol.storeBitmap group gd (gd.withFreeBlocks vol.fs.is64bit (freeCount + 1))
        (bitmapFree bitmap index)

end Volume

end EchOS.Fs.Ext4
