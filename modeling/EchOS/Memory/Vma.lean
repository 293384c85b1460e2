import Mathlib.Tactic.Common
import EchOS.Lib.Loop

/-! The VMA map of `memory/vma.rs`: a skip list of nodes with tagged pointers. Nodes live in
an arena and are never given out twice. -/

namespace EchOS.Memory

def maxHeight : ℕ := 16

inductive VmaKind
  | anonymous (id : ℕ)
  | image (segStart fileOffset fileSize : ℕ)
  | file (inode fileOffset fileSize : ℕ)
  deriving DecidableEq

/-- `stop` is the `end` of the source. -/
structure Vma where
  start : ℕ
  stop : ℕ
  flags : BitVec 64
  kind : VmaKind
  cow : Bool
  shared : Bool
  locked : Bool
  deriving DecidableEq

namespace Vma

def saturatingAdd (a b : ℕ) : ℕ := min (a + b) (2 ^ 64 - 1)

/-- Where the backing of a right neighbour has to begin. -/
def expectedOffset (vma : Vma) (fileOffset : ℕ) : ℕ :=
  saturatingAdd fileOffset (vma.stop - vma.start)

def canMergeWith (vma other : Vma) : Bool :=
  vma.stop == other.start && vma.flags == other.flags && vma.cow == other.cow &&
  vma.shared == other.shared && vma.locked == other.locked &&
  match vma.kind, other.kind with
  | .anonymous lid, .anonymous rid => lid == rid
  | .image ls lo _, .image rs ro _ => ls == rs && ro == vma.expectedOffset lo
  | .file li lo _, .file ri ro _ => li == ri && ro == vma.expectedOffset lo
  | _, _ => false

end Vma

abbrev NodeId := ℕ

/-- A pointer to a node with the two low bits it carries. -/
@[ext] structure TaggedPtr where
  node : Option NodeId
  flag : BitVec 2
  deriving DecidableEq

namespace TaggedPtr

def lockedBit : BitVec 2 := 0b01
def invalidatedBit : BitVec 2 := 0b10

def clean (node : Option NodeId) : TaggedPtr := ⟨node, 0⟩

def isLocked (ptr : TaggedPtr) : Bool := ptr.flag &&& lockedBit != 0
def isInvalidated (ptr : TaggedPtr) : Bool := ptr.flag &&& invalidatedBit != 0

def oddFlag (ptr : TaggedPtr) : Bool := ptr.flag != 0 && ptr.flag != lockedBit

end TaggedPtr

structure Node where
  start : ℕ
  stop : ℕ
  vma : Vma
  height : ℕ
  next : ℕ → TaggedPtr

def Node.new (vma : Vma) (height : ℕ) : Node :=
  ⟨vma.start, vma.stop, vma, height, fun _ => .clean none⟩

/-- Nodes from `fresh` on have not been allocated. -/
structure VmaMap where
  nodes : NodeId → Node
  fresh : NodeId
  height : ℕ
  len : BitVec 64
  retired : List NodeId

namespace VmaMap

def head : NodeId := 0

def new : VmaMap where
  nodes _ := Node.new ⟨0, 0, 0, .anonymous 0, false, false, false⟩ maxHeight
  fresh := 1
  height := 1
  len := 0
  retired := []

variable (m : VmaMap)

/-- Rounds after which a loop over the nodes has met one of them twice. -/
def rounds : ℕ := m.fresh + 1

def load (x : NodeId) (level : ℕ) : TaggedPtr := (m.nodes x).next level

def nextPtr (x : NodeId) (level : ℕ) : Option NodeId := (m.load x level).node

def store (x : NodeId) (level : ℕ) (ptr : TaggedPtr) : VmaMap :=
  { m with
    nodes := fun y =>
      if y = x then
        { m.nodes y with next := fun i => if i = level then ptr else (m.nodes y).next i }
      else m.nodes y }

def casNext (x : NodeId) (level : ℕ) (old new : TaggedPtr) : Bool × VmaMap :=
  if m.load x level = old then (true, m.store x level new) else (false, m)

def alloc (vma : Vma) (height : ℕ) : NodeId × VmaMap :=
  (m.fresh, { m with
    nodes := fun y => if y = m.fresh then Node.new vma height else m.nodes y
    fresh := m.fresh + 1 })

def pushRetired (x : NodeId) : VmaMap := { m with retired := m.retired ++ [x] }

def randomU32Bounded (seed : BitVec 64) (bound : BitVec 32) : BitVec 32 × BitVec 64 :=
  let next := seed + 0x9e3779b97f4a7c15
  let z := (next ^^^ (next >>> 30)) * 0xbf58476d1ce4e5b9
  let z := (z ^^^ (z >>> 27)) * 0x94d049bb133111eb
  let z := z ^^^ (z >>> 31)
  (z.setWidth 32 % bound, next)

/-- The height grows while the coin falls on zero, for at most the tosses given. -/
def growHeight : ℕ → ℕ → BitVec 64 → ℕ × BitVec 64
  | 0, h, seed => (h, seed)
  | tosses + 1, h, seed =>
    let (r, seed) := randomU32Bounded seed 2
    if r < 1 then growHeight tosses (h + 1) seed else (h, seed)

@[irreducible] def randomHeight (seed : BitVec 64) : ℕ × BitVec 64 :=
  growHeight (maxHeight - 1) 1 seed

/-- Advance along a level while the next node starts at or before the address. -/
def findPredsStep (addr level : ℕ) (x : NodeId) : Option (NodeId ⊕ NodeId) :=
  match m.nextPtr x level with
  | some next => if (m.nodes next).start ≤ addr then some (.inl next) else some (.inr x)
  | none => some (.inr x)

/-- The levels below the given one, from the top down. -/
def findPredsBelow (m : VmaMap) (addr : ℕ) : ℕ → NodeId → (ℕ → NodeId) → Option (ℕ → NodeId)
  | 0, _, preds => some preds
  | level + 1, x, preds => do
    let x ← Loop.run (m.findPredsStep addr level) m.rounds x
    m.findPredsBelow addr level x fun i => if i = level then x else preds i

/-- Levels from the height of the map on have the sentinel as predecessor. -/
def findPreds (addr : ℕ) : Option (ℕ → NodeId) :=
  m.findPredsBelow addr m.height head fun _ => head

def find (addr : ℕ) : Option (Option Vma) := do
  let preds ← m.findPreds addr
  let node := preds 0
  if node ≠ head ∧ (m.nodes node).start ≤ addr ∧ addr < (m.nodes node).stop then
    return some (m.nodes node).vma
  else return none

/-- Look for a node that meets the range, up to the first that starts behind it. -/
def overlapsStep (start stop : ℕ) (cur : Option NodeId) : Option (Option NodeId ⊕ Bool) :=
  match cur with
  | none => some (.inr false)
  | some node =>
    if stop ≤ (m.nodes node).start then some (.inr false)
    else if (m.nodes node).start < stop ∧ start < (m.nodes node).stop then some (.inr true)
    else some (.inl (m.nextPtr node 0))

def overlaps (start stop : ℕ) : Option Bool :=
  if stop ≤ start then some false
  else do
    let preds ← m.findPreds start
    Loop.run (m.overlapsStep start stop) m.rounds (m.nextPtr (preds 0) 0)

/-- Collect the VMAs that meet the range, up to the first node that starts behind it. -/
def findOverlappingStep (start stop : ℕ) (s : Option NodeId × List Vma) :
    Option ((Option NodeId × List Vma) ⊕ List Vma) :=
  match s.1 with
  | none => some (.inr s.2)
  | some node =>
    if stop ≤ (m.nodes node).start then some (.inr s.2)
    else if start < (m.nodes node).stop ∧ (m.nodes node).start < stop then
      some (.inl (m.nextPtr node 0, s.2 ++ [(m.nodes node).vma]))
    else some (.inl (m.nextPtr node 0, s.2))

def findOverlapping (start stop : ℕ) : Option (List Vma) :=
  if stop ≤ start then some []
  else do
    let preds ← m.findPreds start
    Loop.run (m.findOverlappingStep start stop) m.rounds (m.nextPtr (preds 0) 0, [])

def collectStep (s : Option NodeId × List Vma) : Option ((Option NodeId × List Vma) ⊕ List Vma) :=
  match s.1 with
  | none => some (.inr s.2)
  | some cur => some (.inl (m.nextPtr cur 0, s.2 ++ [(m.nodes cur).vma]))

def collectAll : Option (List Vma) :=
  Loop.run m.collectStep m.rounds (m.nextPtr head 0, [])

end VmaMap

end EchOS.Memory
