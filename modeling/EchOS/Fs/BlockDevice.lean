import EchOS.Lib.Disk

/-! The block devices that the journals of `fs/` are written to, and CRC-32C. -/

namespace EchOS.Fs

open BitVec

/-- A disk of 512-byte sectors. Its writes and flushes are numbered as they are called, and the
device says which of them fail; a run in which every call from one on fails leaves the image of a
crash there. -/
structure BlockDevice where
  image : Disk.Image
  calls : ℕ
  fails : ℕ → Bool

namespace BlockDevice

def sectorSize : ℕ := 512

def readSectors (drive : BlockDevice) (lba count : ℕ) : List (BitVec 8) :=
  Disk.read drive.image (sectorSize * lba) (sectorSize * (count % 256))

/-- A failed write leaves the image and is reported as the caller maps it. -/
def writeSectors {ε : Type} (onError : ε) (lba : ℕ) (data : List (BitVec 8)) :
    EStateM ε BlockDevice Unit := fun drive =>
  if drive.fails drive.calls then .error onError { drive with calls := drive.calls + 1 }
  else
    .ok () { drive with
      image := Disk.write drive.image (sectorSize * lba) data
      calls := drive.calls + 1 }

def flush {ε : Type} (onError : ε) : EStateM ε BlockDevice Unit := fun drive =>
  if drive.fails drive.calls then .error onError { drive with calls := drive.calls + 1 }
  else .ok () { drive with calls := drive.calls + 1 }

end BlockDevice

def crc32cBit (crc : BitVec 32) : BitVec 32 :=
  let mask : BitVec 32 := if crc &&& 1 ≠ 0 then 0x82F63B78 else 0
  (crc >>> 1) ^^^ mask

def crc32cTable (i : BitVec 8) : BitVec 32 := Nat.repeat crc32cBit 8 (i.setWidth 32)

def crc32cWithSeed (data : List (BitVec 8)) (seed : BitVec 32) : BitVec 32 :=
  data.foldl (fun crc byte => (crc >>> 8) ^^^ crc32cTable (crc.setWidth 8 ^^^ byte)) seed

def crc32c (data : List (BitVec 8)) : BitVec 32 := crc32cWithSeed data 0xFFFFFFFF ^^^ 0xFFFFFFFF

variable (a b : BitVec 32)

variable {a}

end EchOS.Fs
