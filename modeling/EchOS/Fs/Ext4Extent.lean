import EchOS.Fs.Ext4
import EchOS.Lib.BinarySearch
import Mathlib.Data.List.Sort

/-! The map from the logical blocks of an ext4 file to blocks of the volume: extent trees, the
older indirect blocks, and the insertion of an extent into the list an inode holds. -/

namespace EchOS.Fs.Ext4

open Bytes

structure Ext4Inode where
  iSizeLo : UInt32
  iSizeHi : UInt32
  iFlags : UInt32
  iBlock : Vector (BitVec 8) 60

variable (inode : Ext4Inode)

namespace Ext4Inode

def size : UInt64 := inode.iSizeHi.toUInt64 <<< 32 ||| inode.iSizeLo.toUInt64

def hasFlag (flag : UInt32) : Bool := inode.iFlags &&& flag != 0

def inlineDataFl : UInt32 := 0x10000000

def verityFl : UInt32 := 0x00100000

def extentsFl : UInt32 := 0x00080000

def usesExtents : Bool := inode.hasFlag extentsFl

/-- The direct and indirect block pointers, all zero in an inode that uses extents. -/
def indirectBlocks (i : ℕ) : ℕ :=
  if inode.usesExtents then 0 else ofLe (slice inode.iBlock.toList (i * 4) (i * 4 + 4))

end Ext4Inode

structure Ext4ExtentHeader where
  ehMagic : ℕ
  ehEntries : ℕ
  ehMax : ℕ
  ehDepth : ℕ
  ehGeneration : ℕ

def extentMagic : ℕ := 0xF30A

variable (data : List (BitVec 8))

def Ext4ExtentHeader.parse : Option Ext4ExtentHeader :=
  if data.length < 12 then none
  else if ofLe (slice data 0 2) ≠ extentMagic then none
  else some
    { ehMagic := ofLe (slice data 0 2)
      ehEntries := ofLe (slice data 2 4)
      ehMax := ofLe (slice data 4 6)
      ehDepth := ofLe (slice data 6 8)
      ehGeneration := ofLe (slice data 8 12) }

def leafHeader (entries : ℕ) : List (BitVec 8) :=
  toLe 2 extentMagic ++ toLe 2 entries ++ toLe 2 4 ++ toLe 2 0 ++ toLe 4 0

structure Ext4Extent where
  eeBlock : ℕ
  eeLen : ℕ
  eeStart : ℕ
  deriving DecidableEq

namespace Ext4Extent

/-- The top bit of the length marks an extent that was never written, and is dropped. -/
def parse : Option Ext4Extent :=
  if data.length < 12 then none
  else some
    { eeBlock := ofLe (slice data 0 4)
      eeLen := ofLe (slice data 4 6) &&& 0x7FFF
      eeStart := ofLe (slice data 6 8) <<< 32 ||| ofLe (slice data 8 12) }

def serialize (extent : Ext4Extent) : List (BitVec 8) :=
  toLe 4 extent.eeBlock ++ toLe 2 extent.eeLen ++ toLe 2 (extent.eeStart >>> 32)
    ++ toLe 4 extent.eeStart

end Ext4Extent

structure Ext4ExtentIdx where
  eiBlock : ℕ
  eiLeaf : ℕ

def Ext4ExtentIdx.parse : Option Ext4ExtentIdx :=
  if data.length < 12 then none
  else some
    { eiBlock := ofLe (slice data 0 4)
      eiLeaf := ofLe (slice data 8 10) <<< 32 ||| ofLe (slice data 4 8) }

section Search

def entryAt {α : Type} (parse : List (BitVec 8) → Option α) (data : List (BitVec 8)) (i : ℕ) :
    Option α :=
  if data.length < 12 + i * 12 + 12 then none else parse (data.drop (12 + i * 12))

/-- The last entry of a node that does not start behind a logical block. Both kinds of nodes are
searched this way. -/
def searchNode {α : Type} (parse : List (BitVec 8) → Option α) (key : α → ℕ)
    (data : List (BitVec 8)) (entries logicalBlock : ℕ) : Option α :=
  BinarySearch.last (entryAt parse data) (fun e => key e ≤ logicalBlock) entries 0 entries none

def Ext4Extent.locate (extent : Ext4Extent) (logicalBlock : ℕ) : Option ℕ :=
  if logicalBlock < (extent.eeBlock + extent.eeLen) % 2 ^ 32 then
    some ((extent.eeStart + (logicalBlock - extent.eeBlock)) % 2 ^ 64)
  else none

def findExtentInLeafData (logicalBlock : ℕ) : Option ℕ :=
  match Ext4ExtentHeader.parse data with
  | none => none
  | some header =>
    (searchNode Ext4Extent.parse Ext4Extent.eeBlock data header.ehEntries logicalBlock).bind
      (·.locate logicalBlock)

end Search

namespace Volume

/-- Follows an extent tree down to a leaf. The recursion goes as deep as the nodes say; one that is
deeper than any depth a node can name does not come back. -/
def traverseExtentTreeWithStorage (vol : Volume) (logicalBlock : ℕ) :
    ℕ → List (BitVec 8) → Ext4ExtentHeader → Except Ext4Fault (Option ℕ)
  | 0, _, _ => .error .panic
  | rounds + 1, data, header =>
    if header.ehDepth = 0 then .ok (findExtentInLeafData data logicalBlock)
    else
      match searchNode Ext4ExtentIdx.parse Ext4ExtentIdx.eiBlock data header.ehEntries
        logicalBlock with
      | none => .ok none
      | some idx =>
        match readExact vol.storage (vol.fs.blockOffset (UInt64.ofNat idx.eiLeaf))
          vol.fs.blockSize.toNat with
        | .error _ => .ok none
        | .ok child =>
          match Ext4ExtentHeader.parse child with
          | none => .ok none
          | some childHeader =>
            vol.traverseExtentTreeWithStorage logicalBlock rounds child childHeader

def mapBlockExtentTreeWithStorage (vol : Volume) (inode : Ext4Inode) (logicalBlock : ℕ) :
    Except Ext4Fault (Option ℕ) :=
  match Ext4ExtentHeader.parse inode.iBlock.toList with
  | none => .ok none
  | some header =>
    if header.ehDepth = 0 then .ok (findExtentInLeafData inode.iBlock.toList logicalBlock)
    else vol.traverseExtentTreeWithStorage logicalBlock (2 ^ 16 + 1) inode.iBlock.toList header

def readU32FromStorage (vol : Volume) (offset : ℕ) : Option ℕ :=
  let blockSize := vol.fs.blockSize.toUInt64
  let blockOffset := UInt64.ofNat offset &&& ~~~(blockSize - 1)
  let innerOffset := (UInt64.ofNat offset &&& (blockSize - 1)).toNat
  match readExact vol.storage blockOffset.toNat vol.fs.blockSize.toNat with
  | .error _ => none
  | .ok data =>
    if data.length < innerOffset + 4 then none
    else some (ofLe (slice data innerOffset (innerOffset + 4)))

def indirectPointer (vol : Volume) (block index : ℕ) : Option ℕ :=
  if block = 0 then none
  else vol.readU32FromStorage (block * vol.fs.blockSize.toNat + index * 4)

def mapBlockIndirect (vol : Volume) (inode : Ext4Inode) (logicalBlock : ℕ) : Option ℕ :=
  let ptrs := vol.fs.blockSize.toNat / 4
  let doubleBlocks := ptrs * ptrs % 2 ^ 32
  let tripleBlocks := ptrs * ptrs * ptrs % 2 ^ 32
  if logicalBlock < 12 then
    let blk := inode.indirectBlocks logicalBlock
    if blk = 0 then none else some blk
  else if logicalBlock - 12 < ptrs then
    vol.indirectPointer (inode.indirectBlocks 12) (logicalBlock - 12)
  else if logicalBlock - 12 - ptrs < doubleBlocks then
    let remaining := logicalBlock - 12 - ptrs
    (vol.indirectPointer (inode.indirectBlocks 13) (remaining / ptrs)).bind fun indirectBlk =>
      vol.indirectPointer indirectBlk (remaining % ptrs)
  else if logicalBlock - 12 - ptrs - doubleBlocks < tripleBlocks then
    let remaining := logicalBlock - 12 - ptrs - doubleBlocks
    let rem1 := remaining % doubleBlocks
    (vol.indirectPointer (inode.indirectBlocks 14) (remaining / doubleBlocks)).bind
      fun doubleBlk => (vol.indirectPointer doubleBlk (rem1 / ptrs)).bind
        fun indirectBlk => vol.indirectPointer indirectBlk (rem1 % ptrs)
  else none

def mapBlockWithStorage (vol : Volume) (inode : Ext4Inode) (logicalBlock : ℕ) :
    Except Ext4Fault (Option ℕ) :=
  if inode.usesExtents then vol.mapBlockExtentTreeWithStorage inode logicalBlock
  else .ok (vol.mapBlockIndirect inode logicalBlock)

end Volume

section Insert

/-- The extents of a leaf that an inode holds, as far as the inode has room for them. -/
def collectExtents (entries : ℕ) : List Ext4Extent :=
  (List.range (min entries 4)).filterMap fun i => Ext4Extent.parse (data.drop (12 + i * 12))

/-- Adds an extent behind the others, or makes the last one longer if the new one goes on where it
ends, both in the file and on the volume. -/
def mergeExtent (merged : List Ext4Extent) (ext : Ext4Extent) : List Ext4Extent :=
  match merged.getLast? with
  | none => merged ++ [ext]
  | some last =>
    if (last.eeBlock + last.eeLen) % 2 ^ 32 = ext.eeBlock ∧
        (last.eeStart + last.eeLen) % 2 ^ 64 = ext.eeStart then
      merged.dropLast ++ [{ last with eeLen := (last.eeLen + ext.eeLen) % 2 ^ 16 }]
    else merged ++ [ext]

def sortExtents (extents : List Ext4Extent) : List Ext4Extent :=
  extents.insertionSort fun a b => a.eeBlock ≤ b.eeBlock

def encodeLeaf (extents : List Ext4Extent) : List (BitVec 8) :=
  leafHeader extents.length ++ extents.flatMap Ext4Extent.serialize
    ++ List.replicate (48 - 12 * extents.length) 0

def insertExtent (logicalBlock physBlock blockCount : ℕ) : Except Ext4Fault Ext4Inode :=
  -- an inode without a header gets that of an empty leaf
  let iBlock := match Ext4ExtentHeader.parse inode.iBlock.toList with
    | some _ => inode.iBlock.toList
    | none => Disk.patch inode.iBlock.toList 0 (leafHeader 0)
  match Ext4ExtentHeader.parse iBlock with
  | none => .error (.error .corrupted)
  | some header =>
    if header.ehDepth ≠ 0 then .error (.error .notSupported)
    else
      let added : Ext4Extent :=
        { eeBlock := logicalBlock, eeLen := blockCount, eeStart := physBlock }
      let extents := collectExtents iBlock header.ehEntries ++ [added]
      let merged := (sortExtents extents).foldl mergeExtent []
      if 4 < merged.length then .error (.error .notSupported)
      else .ok { inode with
        iFlags := inode.iFlags ||| Ext4Inode.extentsFl
        iBlock := array 60 (encodeLeaf merged) }

end Insert

end EchOS.Fs.Ext4
