import EchOS.Lib.Loop
import EchOS.Lib.WordBits
import EchOS.Memory.PhysAddr

/-! The bitmap allocator of `memory/pmm.rs`. A bit is set where a frame is in use. `usize` has 64
bits, and sums that leave them wrap. `none` is a panic: no room for the bitmap, or an address that
`PhysAddr::new` refuses. -/

namespace EchOS.Memory

inductive MemoryType
  | conventional
  | other (value : UInt32)
  deriving DecidableEq

structure MemoryDescriptor where
  ty : MemoryType
  physStart : UInt64
  pageCount : UInt64
  deriving DecidableEq

namespace MemoryDescriptor

variable (desc : MemoryDescriptor)

def size : UInt64 := desc.pageCount * 4096

def stop : UInt64 := desc.physStart + desc.size

def startFrame : ℕ := (desc.physStart / 4096).toNat

def endFrame : ℕ := (desc.startFrame + desc.pageCount.toNat) % 2 ^ 64

def frames : List ℕ :=
  List.range' desc.startFrame (desc.endFrame - desc.startFrame)

end MemoryDescriptor

structure BitmapPmm where
  bitmap : List (BitVec 64)
  totalFrames : ℕ
  usedFrames : ℕ
  lastIdx : ℕ

variable (pmm : BitmapPmm)

namespace BitmapPmm

def empty : BitmapPmm := ⟨[], 0, 0, 0⟩

def freeFrameInternal (frameIdx : ℕ) : BitmapPmm :=
  if frameIdx = 0 then pmm
  else if pmm.totalFrames ≤ frameIdx then pmm
  else if pmm.bitmap.getD (frameIdx / 64) 0 &&& WordBits.mask 64 frameIdx ≠ 0 then
    { pmm with
      bitmap := WordBits.clear pmm.bitmap frameIdx
      usedFrames := pmm.usedFrames - 1 }
  else pmm

def markFrameUsed (frameIdx : ℕ) : BitmapPmm :=
  if pmm.totalFrames ≤ frameIdx then pmm
  else if pmm.bitmap.getD (frameIdx / 64) 0 &&& WordBits.mask 64 frameIdx = 0 then
    { pmm with
      bitmap := WordBits.set pmm.bitmap frameIdx
      usedFrames := pmm.usedFrames + 1 }
  else pmm

def isFrameFree (frameIdx : ℕ) : Bool :=
  if frameIdx = 0 ∨ pmm.totalFrames ≤ frameIdx then false
  else pmm.bitmap.getD (frameIdx / 64) 0 &&& WordBits.mask 64 frameIdx = 0

section Init

variable (map : List MemoryDescriptor)

def maxPhysAddr : UInt64 :=
  map.foldl (fun max desc => if desc.stop > max then desc.stop else max) 0

def framesOf : ℕ := (maxPhysAddr map / 4096).toNat

def bitmapSizeU64 : ℕ := (framesOf map + 63) / 64

def bitmapSizeBytes : ℕ := bitmapSizeU64 map * 8

def bitmapPhysStart : Option UInt64 :=
  (map.find? fun desc => desc.ty = .conventional ∧ desc.physStart ≠ 0 ∧
    bitmapSizeBytes map ≤ desc.size.toNat).map (·.physStart)

def bitmapFrames (bitmapStart : UInt64) : List ℕ :=
  List.range' (bitmapStart / 4096).toNat ((bitmapSizeBytes map + 4095) / 4096)

def freeDescriptor (desc : MemoryDescriptor) : BitmapPmm :=
  if desc.ty = .conventional then desc.frames.foldl freeFrameInternal pmm else pmm

def init : Option BitmapPmm := do
  let bitmapStart ← bitmapPhysStart map
  let pmm :=
    { pmm with
      bitmap := List.replicate (bitmapSizeU64 map) (BitVec.allOnes 64)
      totalFrames := framesOf map
      usedFrames := framesOf map }
  let pmm := map.foldl freeDescriptor pmm
  some ((bitmapFrames map bitmapStart).foldl markFrameUsed pmm)

end Init

section Contiguous

def firstBusy (pmm : BitmapPmm) (idx : ℕ) : ℕ → ℕ → Option ℕ
  | _, 0 => none
  | offset, left + 1 =>
    if pmm.isFrameFree ((idx + offset) % 2 ^ 64) then pmm.firstBusy idx (offset + 1) left
    else some offset

/-- A round of the outer loop: the run is found, or the search goes on past the busy frame. -/
def contiguousStep (pages idx : ℕ) : Option (ℕ ⊕ Option ℕ) :=
  if (idx + pages) % 2 ^ 64 ≤ pmm.totalFrames then
    match pmm.firstBusy idx 0 pages with
    | some offset => some (.inl ((idx + offset + 1) % 2 ^ 64))
    | none => some (.inr (some idx))
  else some (.inr none)

/-- The outer loop, with more rounds than there are frames. -/
def findContiguous (pages : ℕ) : Option (Option ℕ) :=
  Loop.run (pmm.contiguousStep pages) (pmm.totalFrames + 3) 1

def allocateContiguous [PhysAddr] (pages : UInt64) : Option (Option PhysFrame × BitmapPmm) :=
  if pages = 0 then some (none, pmm)
  else
    match pmm.findContiguous pages.toNat with
    | none => none
    | some none => some (none, pmm)
    | some (some idx) =>
      let pmm := (List.range' idx pages.toNat).foldl markFrameUsed pmm
      (containingAddress (idx * 4096)).map fun frame => (some frame, pmm)

def deallocateContiguous (start : PhysFrame) (pages : UInt64) : BitmapPmm :=
  ((List.range pages.toNat).map fun i => (start.val + i) % 2 ^ 64).foldl freeFrameInternal pmm

end Contiguous

section Frame

def searchWord (i : ℕ) : Option ℕ :=
  let chunk := pmm.bitmap.getD i 0
  if chunk = BitVec.allOnes 64 then none
  else
    (List.range 64).findSome? fun bitIdx =>
      if chunk &&& WordBits.mask 64 bitIdx = 0 ∧ i * 64 + bitIdx < pmm.totalFrames then
        some (i * 64 + bitIdx)
      else none

def search (start stop : ℕ) : Option ℕ :=
  (List.range' start (stop - start)).findSome? pmm.searchWord

/-- From the last word that served a frame to the end, then from the start. -/
def findFrame : Option ℕ :=
  match pmm.search pmm.lastIdx pmm.bitmap.length with
  | some frameIdx => some frameIdx
  | none => if 0 < pmm.lastIdx then pmm.search 0 pmm.lastIdx else none

def allocateFrame [PhysAddr] : Option (Option PhysFrame × BitmapPmm) :=
  match pmm.findFrame with
  | some frameIdx =>
    let pmm := { pmm.markFrameUsed frameIdx with lastIdx := frameIdx / 64 }
    (containingAddress (frameIdx * 4096)).map fun frame => (some frame, pmm)
  | none => some (none, pmm)

end Frame

end BitmapPmm

inductive PmmOp
  | allocateFrame
  | allocateContiguous (pages : UInt64)
  | deallocateContiguous (start : PhysFrame) (pages : UInt64)
  deriving DecidableEq

namespace BitmapPmm

def step [PhysAddr] : PmmOp → Option (Option PhysFrame × BitmapPmm)
  | .allocateFrame => pmm.allocateFrame
  | .allocateContiguous pages => pmm.allocateContiguous pages
  | .deallocateContiguous start pages => some (none, pmm.deallocateContiguous start pages)

def exec [PhysAddr] (ops : List PmmOp) : Option BitmapPmm :=
  ops.foldlM (fun pmm op => (pmm.step op).map Prod.snd) pmm

end BitmapPmm

end EchOS.Memory
