import EchOS.Lib.SwapRemove
import EchOS.Memory.FrameTable
import Mathlib.Algebra.BigOperators.Group.Finset.Piecewise
import Mathlib.Data.Fintype.Basic
import Mathlib.Algebra.Order.Group.Int

/-! The per-CPU reference cache of `memory/frame_ownership/refcache.rs`: deltas are cached
on each CPU, flushed to the frame table, and frames whose count reached zero are reviewed. -/

namespace EchOS.Memory

def maxCpuSlots : ℕ := 256
def refcacheSize : ℕ := 64
def reviewQueueSize : ℕ := 32
def i32Max : ℤ := 2 ^ 31 - 1
def i32Min : ℤ := -2 ^ 31

structure DeltaEntry where
  phys : ℕ
  delta : ℤ

structure ReviewEntry where
  phys : ℕ
  addedEpoch : ℕ
  dirty : Bool

def cacheSlot (phys : ℕ) : Fin refcacheSize :=
  ⟨phys / 4096 % refcacheSize, Nat.mod_lt _ (by decide)⟩

@[simp] theorem cacheSlot_frameKey (phys : ℕ) : cacheSlot (frameKey phys) = cacheSlot phys := by
  simp only [cacheSlot, frameKey, Fin.mk.injEq]
  congr 1
  omega

/-- One CPU's cache and review queue. A cached frame stands in the slot of its address;
the queue is the filled part of the source's array. -/
structure RefCacheCpuState where
  cache : Fin refcacheSize → DeltaEntry
  review : List ReviewEntry
  epoch : ℕ
  slotted : ∀ i, (cache i).phys ≠ 0 →
    frameKey (cache i).phys = (cache i).phys ∧ cacheSlot (cache i).phys = i
  bound : review.length ≤ reviewQueueSize

namespace RefCacheCpuState

def new : RefCacheCpuState := ⟨fun _ => ⟨0, 0⟩, [], 0, fun _ h => absurd rfl h, by simp⟩

variable (st : RefCacheCpuState)

def setDelta (slot : Fin refcacheSize) (delta : ℤ) : RefCacheCpuState where
  cache i := if i = slot then ⟨(st.cache slot).phys, delta⟩ else st.cache i
  review := st.review
  epoch := st.epoch
  slotted i := by
    split_ifs with hi
    · subst hi
      exact st.slotted i
    · exact st.slotted i
  bound := st.bound

def claim (phys : ℕ) (delta : ℤ) : RefCacheCpuState where
  cache i := if i = cacheSlot phys then ⟨frameKey phys, delta⟩ else st.cache i
  review := st.review
  epoch := st.epoch
  slotted i := by
    split_ifs with hi
    · subst hi
      intro _
      exact ⟨frameKey_frameKey phys, cacheSlot_frameKey phys⟩
    · exact st.slotted i
  bound := st.bound

def enqueueReview (phys currentEpoch : ℕ) : RefCacheCpuState :=
  if h : st.review.length < reviewQueueSize then
    { st with
      review := st.review ++ [⟨phys, currentEpoch, false⟩]
      bound := by rw [List.length_append]; exact h }
  else st

def removeReview (idx : ℕ) : RefCacheCpuState :=
  { st with
    review := SwapRemove.swapRemove st.review idx
    bound := Nat.le_trans (SwapRemove.length_swapRemove_le _ _) st.bound }

/-- A review entry that is still dirty starts over at the current epoch. -/
def renewReview (idx phys globalEpoch : ℕ) : RefCacheCpuState :=
  { st with
    review := st.review.set idx ⟨phys, globalEpoch, false⟩
    bound := by rw [List.length_set]; exact st.bound }

def cachedDelta (phys : ℕ) : ℤ :=
  let cached := st.cache (cacheSlot phys)
  if cached.phys = frameKey phys then cached.delta else 0

end RefCacheCpuState

structure RefCache where
  table : FrameTable
  cpus : Fin maxCpuSlots → RefCacheCpuState
  globalEpoch : ℕ
  drainList : List ℕ

/-- CPUs past the last slot share it. -/
def currentCpuSlot (cpu : ℕ) : Fin maxCpuSlots :=
  if h : cpu < maxCpuSlots then ⟨cpu, h⟩ else ⟨maxCpuSlots - 1, by decide⟩

namespace RefCache

def new : RefCache := ⟨.new, fun _ => .new, 0, []⟩

variable (s : RefCache)

def setCpu (c : Fin maxCpuSlots) (st : RefCacheCpuState) : RefCache :=
  { s with cpus := fun c' => if c' = c then st else s.cpus c' }

/-- Move a delta to the frame table; a count of zero puts the frame under review. -/
def flushDelta (c : Fin maxCpuSlots) (old : DeltaEntry) : RefCache :=
  let (newGlobal, table) := s.table.refcacheGlobalAdd old.phys old.delta
  let s := { s with table }
  if newGlobal = 0 then s.setCpu c ((s.cpus c).enqueueReview old.phys (s.cpus c).epoch) else s

/-- Flush what a slot holds before it is reused. -/
def evict (c : Fin maxCpuSlots) (slot : Fin refcacheSize) : RefCache :=
  let old := (s.cpus c).cache slot
  if old.phys ≠ 0 ∧ old.delta ≠ 0 then s.flushDelta c old else s

/-- The common body of `inc` and `dec`: adjust the cached delta of the frame, or evict the
slot's frame and start from the first delta. -/
def adjust (c : Fin maxCpuSlots) (phys : ℕ) (next : ℤ → ℤ) (first : ℤ) : RefCache :=
  let slot := cacheSlot phys
  let entry := (s.cpus c).cache slot
  if entry.phys = frameKey phys then
    s.setCpu c ((s.cpus c).setDelta slot (next entry.delta))
  else
    let s := s.evict c slot
    s.setCpu c ((s.cpus c).claim phys first)

def inc (c : Fin maxCpuSlots) (phys : ℕ) : RefCache :=
  s.adjust c phys (fun delta => min (delta + 1) i32Max) 1

def dec (c : Fin maxCpuSlots) (phys : ℕ) : RefCache :=
  s.adjust c phys (fun delta => max (delta - 1) i32Min) (-1)

def flushSlot (c : Fin maxCpuSlots) (slot : Fin refcacheSize) : RefCache :=
  if ((s.cpus c).cache slot).phys = 0 then s
  else
    let s := s.evict c slot
    s.setCpu c ((s.cpus c).setDelta slot 0)

def flush (c : Fin maxCpuSlots) : RefCache :=
  (List.finRange refcacheSize).foldl (fun s slot => s.flushSlot c slot) s

def epochsPassed (globalEpoch addedEpoch : ℕ) : ℕ :=
  (globalEpoch + 2 ^ 64 - addedEpoch) % 2 ^ 64

/-- The review loop of `tick`; every round either moves on or shortens the queue, so it
takes as many rounds as the queue had entries. -/
def reviewFrom (s : RefCache) (c : Fin maxCpuSlots) (globalEpoch : ℕ) : ℕ → ℕ → RefCache
  | 0, _ => s
  | rounds + 1, i =>
    match (s.cpus c).review[i]? with
    | none => s
    | some e =>
      if epochsPassed globalEpoch e.addedEpoch < 2 then
        s.reviewFrom c globalEpoch rounds (i + 1)
      else
        let (freed, table) := s.table.refcacheTryRemove e.phys
        let s := { s with table }
        if freed then
          let s := { s with drainList := s.drainList ++ [e.phys] }
          (s.setCpu c ((s.cpus c).removeReview i)).reviewFrom c globalEpoch rounds i
        else if e.dirty then
          (s.setCpu c ((s.cpus c).renewReview i e.phys globalEpoch)).reviewFrom c globalEpoch
            rounds (i + 1)
        else
          (s.setCpu c ((s.cpus c).removeReview i)).reviewFrom c globalEpoch rounds i

def advanceEpoch (c : Fin maxCpuSlots) : RefCache :=
  { s.setCpu c { s.cpus c with epoch := s.globalEpoch } with
    globalEpoch := (s.globalEpoch + 1) % 2 ^ 64 }

def reviewTick (c : Fin maxCpuSlots) : RefCache :=
  (s.advanceEpoch c).reviewFrom c s.globalEpoch ((s.advanceEpoch c).cpus c).review.length 0

def tick (c : Fin maxCpuSlots) : RefCache := (s.flush c).reviewTick c

end RefCache

end EchOS.Memory
