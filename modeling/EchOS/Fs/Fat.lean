import EchOS.Lib.Bytes
import EchOS.Lib.Loop
import Mathlib.Data.Nat.Bitwise

/-! The file allocation table of a FAT32 volume: its entries, and the operations that allocate,
extend, shorten and free the chains of clusters it links. -/

namespace EchOS.Fs.Fat

open Bytes

abbrev FatData := List (BitVec 8)

def fat32Free : ℕ := 0

def fat32Eof : ℕ := 0x0FFFFFF8

structure Fat32Fs where
  totalClusters : UInt32

variable (fatData : FatData)

/-- An entry without its four reserved bits; past the table everything is an end of chain. -/
def readFatEntry (cluster : ℕ) : ℕ :=
  let offset := cluster * 4
  if fatData.length < offset + 4 then fat32Eof
  else ofLe (slice fatData offset (offset + 4)) &&& 0x0FFFFFFF

def writeFatEntry (cluster value : ℕ) : FatData :=
  let offset := cluster * 4
  if offset + 4 ≤ fatData.length then
    Disk.patch fatData offset (toLe 4 ((value &&& 0x0FFFFFFF) ||| 0xF0000000))
  else fatData

def isEof (cluster : ℕ) : Prop := fat32Eof ≤ cluster

def isFree (cluster : ℕ) : Prop := cluster = fat32Free

instance (cluster : ℕ) : Decidable (isEof cluster) := inferInstanceAs (Decidable (_ ≤ _))

instance (cluster : ℕ) : Decidable (isFree cluster) := inferInstanceAs (Decidable (_ = _))

/-- How often a loop that frees or follows a chain can go round: once for each entry, once for a
cluster past the table and once to see that it is done. -/
def rounds : ℕ := fatData.length / 4 + 2

def freeStep : FatData × ℕ → Option (FatData × ℕ ⊕ FatData)
  | (fatData, cluster) =>
    if ¬ isEof cluster ∧ ¬ isFree cluster then
      let next := readFatEntry fatData cluster
      some (.inl (writeFatEntry fatData cluster fat32Free, next))
    else some (.inr fatData)

/-- `none` if the loop does not end. -/
def freeClusters (startCluster : ℕ) : Option FatData :=
  Loop.run freeStep (rounds fatData) (fatData, startCluster)

def lastStep (current : ℕ) : Option (ℕ ⊕ ℕ) :=
  if ¬ isEof current ∧ ¬ isFree current then
    let next := readFatEntry fatData current
    if isEof next then some (.inr current) else some (.inl next)
  else some (.inr current)

/-- The search for free clusters of `extend_chain`: each one found is linked to the one before, and
the last one found becomes the end. -/
def linkFree (additional : ℕ) : List ℕ → FatData → ℕ → ℕ → FatData
  | [], fatData, prev, added =>
    if 0 < added then writeFatEntry fatData prev fat32Eof else fatData
  | cluster :: rest, fatData, prev, added =>
    if readFatEntry fatData cluster = fat32Free then
      let fatData := writeFatEntry fatData prev cluster
      if additional ≤ added + 1 then writeFatEntry fatData cluster fat32Eof
      else linkFree additional rest fatData cluster (added + 1)
    else linkFree additional rest fatData prev added

/-- The search for free clusters of `allocate_clusters`, which has no cluster to link the first one
to. -/
def allocateFree (count : ℕ) : List ℕ → FatData → Option ℕ → ℕ → ℕ → Option ℕ × FatData
  | [], fatData, firstCluster, prevCluster, allocated =>
    (firstCluster,
      if 0 < allocated then writeFatEntry fatData prevCluster fat32Eof else fatData)
  | cluster :: rest, fatData, firstCluster, prevCluster, allocated =>
    if readFatEntry fatData cluster = fat32Free then
      let fatData := if firstCluster.isNone then fatData
        else writeFatEntry fatData prevCluster cluster
      let firstCluster := firstCluster.or (some cluster)
      if count ≤ allocated + 1 then (firstCluster, writeFatEntry fatData cluster fat32Eof)
      else allocateFree count rest fatData firstCluster cluster (allocated + 1)
    else allocateFree count rest fatData firstCluster prevCluster allocated

/-- One cluster of `truncate_chain`, with the number of clusters before it. -/
def truncateStep (newCount : ℕ) : FatData × ℕ × ℕ → Option ((FatData × ℕ × ℕ) ⊕ FatData)
  | (fatData, current, idx) =>
    if ¬ isEof current ∧ ¬ isFree current ∧ 2 ≤ current then
      let next := readFatEntry fatData current
      let idx := idx + 1
      let fatData := if newCount < idx then writeFatEntry fatData current fat32Free
        else if idx = newCount then writeFatEntry fatData current fat32Eof
        else fatData
      if newCount < idx ∧ ¬ isEof next then (freeClusters fatData next).map .inr
      else some (.inl (fatData, next, idx))
    else some (.inr fatData)

def truncateChain (startCluster newCount : ℕ) : Option FatData :=
  Loop.run (truncateStep newCount) (rounds fatData) (fatData, startCluster, 0)

namespace Fat32Fs

variable (fs : Fat32Fs)

def clusters : List ℕ := List.range' 2 (fs.totalClusters.toNat - 2)

def allocateClusters (fatData : FatData) (count : ℕ) : Option ℕ × FatData :=
  allocateFree count fs.clusters fatData none 0 0

/-- Always returns the start cluster, so only the table is kept of the result. -/
def extendChain (fatData : FatData) (startCluster additional : ℕ) : Option FatData :=
  if additional = 0 then some fatData
  else (Loop.run (lastStep fatData) (rounds fatData) startCluster).map fun last =>
    linkFree additional fs.clusters fatData last 0

end Fat32Fs

structure State where
  fatData : FatData
  heads : List ℕ

inductive Op
  | allocate (count : ℕ)
  | extend (head additional : ℕ)
  | truncate (head newCount : ℕ)
  | free (head : ℕ)

def Op.Live (st : State) : Op → Prop
  | .allocate _ => True
  | .extend head _ => head ∈ st.heads
  | .truncate head _ => head ∈ st.heads
  | .free head => head ∈ st.heads

/-- One call, and what it does to the heads in use; `none` if it does not return. -/
def step (fs : Fat32Fs) (st : State) : Op → Option State
  | .allocate count =>
    let r := fs.allocateClusters st.fatData count
    some { fatData := r.2, heads := r.1.toList ++ st.heads }
  | .extend head additional =>
    (fs.extendChain st.fatData head additional).map fun fatData => { st with fatData := fatData }
  | .truncate head newCount =>
    (truncateChain st.fatData head newCount).map fun fatData =>
      { fatData := fatData, heads := if newCount = 0 then st.heads.erase head else st.heads }
  | .free head =>
    (freeClusters st.fatData head).map fun fatData =>
      { fatData := fatData, heads := st.heads.erase head }

def exec (fs : Fat32Fs) : State → List Op → Option State
  | st, [] => some st
  | st, op :: ops => (step fs st op).bind fun st' => exec fs st' ops

def LiveAlong (fs : Fat32Fs) : State → List Op → Prop
  | _, [] => True
  | st, op :: ops => op.Live st ∧ ∀ st', step fs st op = some st' → LiveAlong fs st' ops

end EchOS.Fs.Fat
