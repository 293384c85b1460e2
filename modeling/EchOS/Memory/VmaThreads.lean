import EchOS.Lib.Run
import EchOS.Memory.VmaInterval

/-! Interval locking in the VMA map with any number of threads: `lock_interval`,
`unlock_interval` and `swap_interval` of `memory/vma.rs`, one atomic access to a pointer at a
time and in every possible order. -/

namespace EchOS.Memory.VmaMap

open TaggedPtr

structure Interval where
  start : ℕ
  stop : ℕ
  deriving DecidableEq

/-- `get_pred_succ_concurrent` before each of its accesses. -/
inductive Search
  /-- Read the height of the map. -/
  | enter
  /-- Read the pointer of `prev`. -/
  | read (level : ℕ) (prev : NodeId)
  /-- Phase 1: read the pointer of the node at the cursor. -/
  | before (level : ℕ) (c : Cursor)
  | helpBefore (level : ℕ) (c : Cursor) (nodeRaw : TaggedPtr)
  /-- Phase 2: read the pointer of the node at the cursor. -/
  | meeting (level : ℕ) (c : Cursor)
  | helpMeeting (level : ℕ) (c : Cursor) (node : NodeId) (nextRaw : TaggedPtr)
  deriving DecidableEq

namespace Search

/-- The predecessor at a level is known: it is where the level below begins. -/
def finish : ℕ → NodeId → Search ⊕ NodeId
  | 0, prev => .inr prev
  | level + 1, prev => .inl (.read level prev)

def leave (r : Interval) (m : VmaMap) (level : ℕ) (c : Cursor) : Search ⊕ NodeId :=
  match c.raw.node with
  | none => finish level c.prev
  | some node =>
    if r.stop ≤ (m.nodes node).start then finish level c.prev
    else if level = 0 ∧ (m.nodes node).stop ≤ r.start then .inl (.read level node)
    else finish level c.prev

/-- One access; the search is over when it gives the predecessor at level 0. -/
def advance (r : Interval) (m : VmaMap) : Search → VmaMap × (Search ⊕ NodeId)
  | .enter =>
    -- levels from the height on have the sentinel as predecessor
    (m, finish (min m.height maxHeight) head)
  | .read level prev => (m, .inl (.before level ⟨prev, m.load prev level⟩))
  | .before level c =>
    match c.raw.node with
    | none => (m, finish level c.prev)
    | some node =>
      let nodeRaw := m.load node level
      if nodeRaw.flag = invalidatedBit then (m, .inl .enter)
      else if nodeRaw.oddFlag then (m, .inl (.helpBefore level c nodeRaw))
      else if nodeRaw.flag = lockedBit then (m, .inl (.meeting level c))
      else if (m.nodes node).stop ≤ r.start then (m, .inl (.read level node))
      else (m, .inl (.meeting level c))
  | .helpBefore level c nodeRaw =>
    let (ok, m) := m.casNext c.prev level c.raw nodeRaw
    (m, .inl (if ok then .read level c.prev else .enter))
  | .meeting level c =>
    match c.raw.node with
    | none => (m, finish level c.prev)
    | some node =>
      let nextRaw := m.load node level
      if nextRaw.flag = invalidatedBit then (m, .inl .enter)
      else if r.stop ≤ (m.nodes node).start then (m, leave r m level c)
      else
        match nextRaw.node with
        | none => (m, leave r m level c)
        | some next =>
          if r.stop ≤ (m.nodes next).start then (m, leave r m level c)
          else if level = 0 ∧ (m.nodes next).stop ≤ r.start then (m, leave r m level c)
          else if nextRaw.oddFlag then (m, .inl (.helpMeeting level c node nextRaw))
          else (m, .inl (.meeting level ⟨node, nextRaw⟩))
  | .helpMeeting level c node nextRaw =>
    let (ok, m) := m.casNext node level nextRaw nextRaw
    (m, .inl (if ok then .meeting level c else .enter))

end Search

structure Swap where
  guard : IntervalGuard
  newNodes : List NodeId
  deriving DecidableEq

def Swap.old (swap : Swap) : List NodeId := swap.guard.locked.tail

/-- A store of step 3 of `swap_interval`: link two new nodes, or the last one to what follows
the old nodes. -/
inductive Wire
  | link (level : ℕ) (left right : NodeId)
  | last (level : ℕ) (node : NodeId)
  deriving DecidableEq

/-- What follows a call of `unlock_list` or `unlock_node`. -/
inductive Resume
  | done
  | walk (r : Interval) (pred : NodeId) (locked : List NodeId)
  deriving DecidableEq

/-- A thread before each of its accesses. -/
inductive Pc
  | idle
  | search (r : Interval) (s : Search)
  /-- The predecessor is found: read its pointer, then try to lock it. -/
  | readPred (r : Interval) (node : NodeId)
  | casPred (r : Interval) (node : NodeId) (raw : TaggedPtr)
  /-- The walk: read the pointer of the last node, then that of the node after it. -/
  | walk (r : Interval) (pred : NodeId) (locked : List NodeId)
  | readNext (r : Interval) (pred : NodeId) (raw : TaggedPtr) (next : NodeId) (locked : List NodeId)
  | casSkip (r : Interval) (pred : NodeId) (raw nextRaw : TaggedPtr) (locked : List NodeId)
  | casNext (r : Interval) (pred next : NodeId) (nextRaw : TaggedPtr) (locked : List NodeId)
  | unlock (rest : List NodeId) (after : Resume)
  | casUnlock (node : NodeId) (raw : TaggedPtr) (rest : List NodeId) (after : Resume)
  /-- `lock_interval` has returned. -/
  | holding (guard : IntervalGuard)
  /-- Step 1 of `swap_interval`, for the nodes and levels left. -/
  | mark (swap : Swap) (work : List (NodeId × ℕ))
  | casMark (swap : Swap) (node : NodeId) (level : ℕ) (raw : TaggedPtr) (work : List (NodeId × ℕ))
  /-- Step 2, with the search for the first node of the work at `x`. -/
  | unlink (swap : Swap) (x : NodeId) (work : List (NodeId × ℕ))
  | readUnlinked (swap : Swap) (x : NodeId) (xRaw : TaggedPtr) (node : NodeId) (level : ℕ)
      (work : List (NodeId × ℕ))
  | casUnlink (swap : Swap) (x : NodeId) (xRaw : TaggedPtr) (succ : Option NodeId) (node : NodeId)
      (level : ℕ) (work : List (NodeId × ℕ))
  /-- Step 3. -/
  | wire (swap : Swap) (work : List Wire)
  | wireLast (swap : Swap) (level : ℕ) (node : NodeId) (count : ℕ) (succ : Option NodeId)
      (work : List Wire)
  /-- Step 4 without new nodes. -/
  | readCut (swap : Swap)
  | cut (swap : Swap) (count : ℕ) (succ : Option NodeId)
  /-- Step 5. -/
  | invalidate (old rest : List NodeId)
  | storeInvalid (old : List NodeId) (node : NodeId) (raw : TaggedPtr) (rest : List NodeId)
  deriving DecidableEq

namespace Resume

def pc : Resume → Pc
  | .done => .idle
  | .walk r pred locked => .walk r pred locked

end Resume

def upperLevels (m : VmaMap) (nodes : List NodeId) : List (NodeId × ℕ) :=
  nodes.flatMap fun x => (List.range (m.nodes x).height).tail.reverse.map fun level => (x, level)

def wireWork (m : VmaMap) (newNodes : List NodeId) : List Wire :=
  (List.range (m.maxNodeHeight newNodes)).flatMap fun level =>
    ((newNodes.zip newNodes.tail).filter fun pair => level < (m.nodes pair.2).height).map
        (fun pair => .link level pair.1 pair.2) ++
      ((newNodes.getLast?.toList).filter fun last => level < (m.nodes last).height).map
        fun last => .last level last

namespace Pc

/-- One access of a thread. The counter `len`, which none of these calls reads, changes along
with the store that commits a swap. -/
def advance (m : VmaMap) : Pc → VmaMap × Pc
  | .idle => (m, .idle)
  | .search r s =>
    match s.advance r m with
    | (m, .inl s) => (m, .search r s)
    | (m, .inr node) => (m, .readPred r node)
  | .readPred r node =>
    let raw := m.load node 0
    if raw.isLocked ∨ raw.isInvalidated ∨ raw.flag ≠ 0 then (m, .search r .enter)
    else (m, .casPred r node raw)
  | .casPred r node raw =>
    let (ok, m) := m.casNext node 0 raw ⟨raw.node, lockedBit⟩
    (m, if ok then .walk r node [node] else .search r .enter)
  | .walk r pred locked =>
    let raw := m.load pred 0
    match raw.node with
    | none => (m, .holding ⟨locked.headD head, locked⟩)
    | some next =>
      if r.stop ≤ (m.nodes next).start then (m, .holding ⟨locked.headD head, locked⟩)
      else (m, .readNext r pred raw next locked)
  | .readNext r pred raw next locked =>
    let nextRaw := m.load next 0
    -- `continue` is in the walk here, which goes on with the list of what it has unlocked
    if nextRaw.isInvalidated then (m, .unlock locked (.walk r pred locked))
    else if nextRaw.flag ≠ 0 ∧ !nextRaw.isLocked then (m, .casSkip r pred raw nextRaw locked)
    else (m, .casNext r pred next nextRaw locked)
  | .casSkip r pred raw nextRaw locked =>
    let (_, m) := m.casNext pred 0 raw ⟨nextRaw.node, lockedBit⟩
    (m, .walk r pred locked)
  | .casNext r pred next nextRaw locked =>
    let (ok, m) := m.casNext next 0 nextRaw ⟨nextRaw.node, lockedBit⟩
    if !ok then (m, .walk r pred locked)
    else
      let locked := locked ++ [next]
      if (m.nodes next).stop ≤ r.start then
        (m, .unlock [locked.headD head] (.walk r next locked.tail))
      else (m, .walk r next locked)
  | .unlock [] after => (m, after.pc)
  | .unlock (node :: rest) after => (m, .casUnlock node (m.load node 0) rest after)
  | .casUnlock node raw rest after =>
    let (ok, m) := m.casNext node 0 raw (.clean raw.node)
    (m, .unlock (if ok then rest else node :: rest) after)
  | .holding guard => (m, .holding guard)
  | .mark swap [] => (m, .unlink swap head (m.upperLevels swap.old))
  | .mark swap ((node, level) :: work) => (m, .casMark swap node level (m.load node level) work)
  | .casMark swap node level raw work =>
    let (ok, m) := m.casNext node level raw ⟨raw.node, lockedBit⟩
    (m, .mark swap (if ok then work else (node, level) :: work))
  | .unlink swap _ [] =>
    (m, if swap.newNodes = [] then .readCut swap else .wire swap (m.wireWork swap.newNodes))
  | .unlink swap x ((node, level) :: work) =>
    let xRaw := m.load x level
    match xRaw.node with
    | none => (m, .unlink swap head work)
    | some next =>
      if next = node then (m, .readUnlinked swap x xRaw node level work)
      else (m, .unlink swap next ((node, level) :: work))
  | .readUnlinked swap x xRaw node level work =>
    (m, .casUnlink swap x xRaw (m.nextPtr node level) node level work)
  | .casUnlink swap x xRaw succ node level work =>
    let (ok, m) := m.casNext x level xRaw (.clean succ)
    (m, .unlink swap head (if ok then work else (node, level) :: work))
  | .wire swap [] =>
    ({ m with len := m.len - swap.old.length + swap.newNodes.length }.store swap.guard.pred 0
      (.clean swap.newNodes.head?), .invalidate swap.old swap.old)
  | .wire swap (.link level left right :: work) =>
    (m.store left level (.clean (some right)), .wire swap work)
  | .wire swap (.last level node :: work) =>
    (m, .wireLast swap level node swap.old.length (m.nextPtr swap.guard.pred 0) work)
  | .wireLast swap level node 0 succ work =>
    (m.store node level (.clean succ), .wire swap work)
  | .wireLast swap level node (count + 1) succ work =>
    (m, .wireLast swap level node count (succ.bind fun x => m.nextPtr x level) work)
  | .readCut swap => (m, .cut swap swap.old.length (m.nextPtr swap.guard.pred 0))
  | .cut swap 0 succ =>
    ({ m with len := m.len - swap.old.length }.store swap.guard.pred 0 (.clean succ),
      .invalidate swap.old swap.old)
  | .cut swap (count + 1) succ => (m, .cut swap count (succ.bind fun x => m.nextPtr x 0))
  | .invalidate old [] => (old.foldl pushRetired m, .idle)
  | .invalidate old (node :: rest) => (m, .storeInvalid old node (m.load node 0) rest)
  | .storeInvalid old node raw rest =>
    (m.store node 0 ⟨raw.node, invalidatedBit⟩, .invalidate old rest)

/-- The locked list of the guard a thread has and has not given back: from the return of
`lock_interval` to the call of `unlock_interval` or the commit of `swap_interval`. -/
def outstanding : Pc → List NodeId
  | .holding guard => guard.locked
  | .mark swap _ | .casMark swap _ _ _ _ | .unlink swap _ _ | .readUnlinked swap _ _ _ _ _
  | .casUnlink swap _ _ _ _ _ _ | .wire swap _ | .wireLast swap _ _ _ _ _ | .readCut swap
  | .cut swap _ _ => swap.guard.locked
  | _ => []

/-- A walk that reads the pointer of the node to be locked next finds no flag on it. -/
def readsClear (m : VmaMap) : Pc → Bool
  | .readNext _ _ _ next _ => (m.load next 0).flag = 0
  | _ => true

end Pc

abbrev ThreadId := ℕ

structure System where
  map : VmaMap
  pc : ThreadId → Pc

/-- `swap` comes with the VMAs and heights of the new nodes. -/
inductive Action
  | lock (t : ThreadId) (r : Interval)
  | unlock (t : ThreadId)
  | swap (t : ThreadId) (vmas : List (Vma × ℕ))
  | run (t : ThreadId)

namespace System

def init (m : VmaMap) : System := ⟨m, fun _ => .idle⟩

def setPc (s : System) (t : ThreadId) (pc : Pc) : System :=
  { s with pc := Function.update s.pc t pc }

def allocAll : VmaMap → List (Vma × ℕ) → List NodeId × VmaMap
  | m, [] => ([], m)
  | m, (vma, height) :: vmas =>
    let (x, m) := m.alloc vma height
    let (xs, m) := allocAll m vmas
    (x :: xs, m)

/-- A call begins when the thread is ready for it. -/
def step (s : System) : Action → System
  | .lock t r => if s.pc t = .idle then s.setPc t (.search r .enter) else s
  | .unlock t =>
    match s.pc t with
    | .holding guard => s.setPc t (.unlock guard.locked .done)
    | _ => s
  | .swap t vmas =>
    match s.pc t with
    | .holding guard =>
      let (newNodes, map) := allocAll s.map vmas
      { s with map := map }.setPc t
        (.mark ⟨guard, newNodes⟩ (map.upperLevels guard.locked.tail))
    | _ => s
  | .run t =>
    let (map, pc) := (s.pc t).advance s.map
    { s with map := map }.setPc t pc

/-- No node is in the locked lists of two guards. -/
def Exclusion (s : System) : Prop :=
  ∀ t t', t ≠ t' → ∀ x ∈ (s.pc t).outstanding, x ∉ (s.pc t').outstanding

def ReadsClear (s : System) : Action → Prop
  | .run t => (s.pc t).readsClear s.map
  | .lock _ _ | .unlock _ | .swap _ _ => True

instance (s : System) : DecidablePred s.ReadsClear
  | .run t => inferInstanceAs (Decidable ((s.pc t).readsClear s.map))
  | .lock _ _ | .unlock _ | .swap _ _ => inferInstanceAs (Decidable True)

end System

end EchOS.Memory.VmaMap
