import EchOS.Lib.Disk

/-! How `stage_platform_image` of `update.rs` writes an image to a partition: in batches of up to
255 sectors, whose sector numbers are cut to 32 bits. A note about it goes to the store. -/

namespace EchOS.Update

open List Disk

inductive StageError
  | artifactTooLarge
  | storeIo

structure PartitionSpan where
  firstLba : ℕ
  sectorCount : ℕ

abbrev Payload := List (BitVec 8)

variable (size : ℕ)

def PartitionSpan.availableBytes (span : PartitionSpan) : ℕ :=
  min (span.sectorCount * size) (2 ^ 64 - 1)

def sectors (image : Payload) : ℕ := (image.length + size - 1) / size

/-- The writes of the loop, each with its first sector. Every round takes at least a sector. -/
def batches : ℕ → ℕ → Payload → List (ℕ × Payload)
  | 0, _, _ => []
  | rounds + 1, nextLba, image =>
    if image.isEmpty then []
    else
      let batchSectors := min (sectors size image) 255
      let batchLen := batchSectors * size
      let sectorBatch := image.take batchLen ++ List.replicate (batchLen - image.length) 0
      (min nextLba (2 ^ 32 - 1), sectorBatch) ::
        batches rounds (min (nextLba + batchSectors) (2 ^ 64 - 1)) (image.drop batchLen)

/-- The device says which of the numbered writes fail. -/
def writeBatches (fails : ℕ → Bool) :
    ℕ → List (ℕ × Payload) → Image → Except StageError Image
  | _, [], disk => .ok disk
  | k, (lba, data) :: rest, disk =>
    if fails k then .error .storeIo
    else writeBatches fails (k + 1) rest (write disk (size * lba) data)

/-- `note` has the sectors that the store writes for the note, if it is on the same disk. -/
def stagePlatformImage (span : PartitionSpan) (image : Payload) (note : List (ℕ × Payload))
    (fails : ℕ → Bool) (disk : Image) : Except StageError Image :=
  if span.availableBytes size < image.length then .error .artifactTooLarge
  else
    writeBatches size fails 0
      (batches size (sectors size image) span.firstLba image ++ note) disk

/-- The sectors from the first one of the partition on hold the image, filled up with zeros, and
the sectors outside of the partition are as they were. -/
structure Holds (first last : ℕ) (image : Payload) (disk disk' : Image) : Prop where
  inside : ∀ k < size * sectors size image, disk' (size * first + k) = image.getD k 0
  outside : ∀ a, a < size * first ∨ size * (last + 1) ≤ a → disk' a = disk a

def written (disk : Image) (writes : List (ℕ × Payload)) : Image :=
  writes.foldl (fun disk w => write disk (size * w.1) w.2) disk

def Covered (writes : List (ℕ × Payload)) (a : ℕ) : Prop :=
  ∃ w ∈ writes, size * w.1 ≤ a ∧ a < size * w.1 + w.2.length

def padded (image : Payload) : Payload :=
  image ++ List.replicate (size * sectors size image - image.length) 0

variable {size} {image : Payload} {writes : List (ℕ × Payload)} {disk disk' : Image}
  {rounds nextLba : ℕ}

theorem written_of_not_covered {a : ℕ} (h : ¬Covered size writes a) :
    written size disk writes a = disk a := by
  induction writes generalizing disk with
  | nil => rfl
  | cons w rest ih =>
    have hrest : ¬Covered size rest a := fun ⟨v, hv, hin⟩ => h ⟨v, mem_cons_of_mem _ hv, hin⟩
    have hw : a < size * w.1 ∨ size * w.1 + w.2.length ≤ a := by
      by_contra hin
      exact h ⟨w, mem_cons_self, by omega, by omega⟩
    exact (ih hrest).trans (write_outside hw)

section Holds

variable {first last : ℕ}
  (h : ∀ disk, Holds size first last image disk (written size disk writes))
include h

theorem Holds.covered {k : ℕ} (hk : k < size * sectors size image) :
    Covered size writes (size * first + k) := by
  by_contra hfree
  have hbyte := fun disk => (written_of_not_covered hfree).symm.trans ((h disk).inside k hk)
  exact absurd ((hbyte fun _ => 0).trans (hbyte fun _ => 1).symm) (by decide)

end Holds

section Batches

variable (hsize : 0 < size)
include hsize

theorem length_padded : (padded size image).length = size * sectors size image := by
  have hlt := Nat.lt_mul_div_succ (image.length + size - 1) hsize
  rw [Nat.mul_succ] at hlt
  rw [padded, length_append, length_replicate, sectors]
  omega

end Batches

end EchOS.Update
