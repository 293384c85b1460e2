import EchOS.Memory.Vma

/-! Interval locking in the VMA map, and the operations built on it, as one thread runs
them. -/

namespace EchOS.Memory.VmaMap

open TaggedPtr

/-- A place in a level: a node and the pointer read from it. -/
structure Cursor where
  prev : NodeId
  raw : TaggedPtr
  deriving DecidableEq

/-- Phase 1 of the search: pass the nodes that end before the range. A result without a
cursor means that the search starts again. -/
def passBefore (start level : ℕ) (s : VmaMap × Cursor) :
    Option ((VmaMap × Cursor) ⊕ (VmaMap × Option Cursor)) :=
  let (m, c) := s
  match c.raw.node with
  | none => some (.inr (m, some c))
  | some node =>
    let nodeRaw := m.load node level
    if nodeRaw.flag = invalidatedBit then some (.inr (m, none))
    else if nodeRaw.oddFlag then
      -- help to unlink
      let (ok, m) := m.casNext c.prev level c.raw ⟨nodeRaw.node, nodeRaw.flag⟩
      if ok then some (.inl (m, ⟨c.prev, m.load c.prev level⟩)) else some (.inr (m, none))
    else if nodeRaw.flag = lockedBit then some (.inr (m, some c))
    else if (m.nodes node).stop ≤ start then some (.inl (m, ⟨node, m.load node level⟩))
    else some (.inr (m, some c))

/-- Phase 2: step over the nodes that meet the range, as long as another one follows. -/
def passMeeting (start stop level : ℕ) (s : VmaMap × Cursor) :
    Option ((VmaMap × Cursor) ⊕ (VmaMap × Option Cursor)) :=
  let (m, c) := s
  match c.raw.node with
  | none => some (.inr (m, some c))
  | some node =>
    let nextRaw := m.load node level
    if nextRaw.flag = invalidatedBit then some (.inr (m, none))
    else if stop ≤ (m.nodes node).start then some (.inr (m, some c))
    else
      match nextRaw.node with
      | none => some (.inr (m, some c))
      | some next =>
        if stop ≤ (m.nodes next).start then some (.inr (m, some c))
        else if level = 0 ∧ (m.nodes next).stop ≤ start then some (.inr (m, some c))
        else if nextRaw.oddFlag then
          let (ok, m) := m.casNext node level nextRaw ⟨nextRaw.node, nextRaw.flag⟩
          if ok then some (.inl (m, c)) else some (.inr (m, none))
        else some (.inl (m, ⟨node, nextRaw⟩))

/-- Both phases, and another round if a gap comes before the node found. -/
def searchLevel (start stop level : ℕ) (s : VmaMap × Cursor) :
    Option ((VmaMap × Cursor) ⊕ (VmaMap × Option Cursor)) := do
  let (m, c) ← Loop.run (passBefore start level) s.1.rounds s
  match c with
  | none => return .inr (m, none)
  | some c =>
    let (m, c) ← Loop.run (passMeeting start stop level) m.rounds (m, c)
    match c with
    | none => return .inr (m, none)
    | some c =>
      match c.raw.node with
      | none => return .inr (m, some c)
      | some node =>
        if stop ≤ (m.nodes node).start then return .inr (m, some c)
        else if level = 0 ∧ (m.nodes node).stop ≤ start then
          return .inl (m, ⟨node, m.load node level⟩)
        else return .inr (m, some c)

structure PredSucc where
  preds : ℕ → NodeId
  succs : ℕ → Option NodeId

def PredSucc.set (ps : PredSucc) (level : ℕ) (pred : NodeId) (succ : Option NodeId) : PredSucc :=
  ⟨fun i => if i = level then pred else ps.preds i,
    fun i => if i = level then succ else ps.succs i⟩

def predSuccBelow (start stop : ℕ) : ℕ → VmaMap → NodeId → PredSucc →
    Option (VmaMap × Option PredSucc)
  | 0, m, _, ps => some (m, some ps)
  | level + 1, m, x, ps =>
    if m.height ≤ level then predSuccBelow start stop level m x (ps.set level head none)
    else do
      let (m, c) ← Loop.run (searchLevel start stop level) m.rounds (m, ⟨x, m.load x level⟩)
      match c with
      | none => return (m, none)
      | some c => predSuccBelow start stop level m c.prev (ps.set level c.prev c.raw.node)

variable (m : VmaMap)

def getPredSuccConcurrent (start stop : ℕ) : Option (VmaMap × PredSucc) :=
  Loop.run (fun m => do
    let (m, ps) ← predSuccBelow start stop maxHeight m head ⟨fun _ => head, fun _ => none⟩
    match ps with
    | none => return .inl m
    | some ps => return .inr (m, ps)) m.rounds m

/-- `locked` begins with the predecessor. -/
structure IntervalGuard where
  pred : NodeId
  locked : List NodeId
  deriving DecidableEq

def unlockNode (x : NodeId) : VmaMap := m.store x 0 (.clean (m.nextPtr x 0))

def unlockList (xs : List NodeId) : VmaMap := xs.foldl unlockNode m

def unlockInterval (guard : IntervalGuard) : VmaMap := m.unlockList guard.locked

/-- Lock the node after the last one locked, if it starts before the end of the range. -/
def lockNext (start stop : ℕ) (s : VmaMap × NodeId × List NodeId) :
    Option ((VmaMap × NodeId × List NodeId) ⊕ (VmaMap × List NodeId)) :=
  let (m, pred, locked) := s
  let raw := m.load pred 0
  match raw.node with
  | none => some (.inr (m, locked))
  | some next =>
    if stop ≤ (m.nodes next).start then some (.inr (m, locked))
    else
      let nextRaw := m.load next 0
      if nextRaw.isInvalidated then some (.inl (m.unlockList locked, pred, locked))
      else if nextRaw.flag ≠ 0 ∧ !nextRaw.isLocked then
        let (_, m) := m.casNext pred 0 raw ⟨nextRaw.node, lockedBit⟩
        some (.inl (m, pred, locked))
      else
        let (ok, m) := m.casNext next 0 nextRaw ⟨nextRaw.node, lockedBit⟩
        if !ok then some (.inl (m, pred, locked))
        else
          let locked := locked ++ [next]
          if (m.nodes next).stop ≤ start then
            -- the node ends before the range: it takes the place of the predecessor
            some (.inl (m.unlockNode (locked.headD head), next, locked.tail))
          else some (.inl (m, next, locked))

def lockIntervalStep (start stop : ℕ) (m : VmaMap) :
    Option (VmaMap ⊕ (IntervalGuard × VmaMap)) := do
  let (m, ps) ← m.getPredSuccConcurrent start stop
  let node := ps.preds 0
  let raw := m.load node 0
  if raw.isLocked ∨ raw.isInvalidated ∨ raw.flag ≠ 0 then return .inl m
  else
    let (ok, m) := m.casNext node 0 raw ⟨raw.node, lockedBit⟩
    if !ok then return .inl m
    else
      let (m, locked) ← Loop.run (lockNext start stop) m.rounds (m, node, [node])
      return .inr (⟨locked.headD head, locked⟩, m)

def lockInterval (start stop : ℕ) : Option (IntervalGuard × VmaMap) :=
  Loop.run (lockIntervalStep start stop) m.rounds m

/-- Mark the pointers of a node above level 0 as deleted, from the top down. -/
def markDeleted (x : NodeId) : VmaMap :=
  ((List.range (m.nodes x).height).tail.reverse).foldl
    (fun m level => m.store x level ⟨m.nextPtr x level, lockedBit⟩) m

def unlinkStep (node : NodeId) (level : ℕ) (s : VmaMap × NodeId) :
    Option ((VmaMap × NodeId) ⊕ VmaMap) :=
  let (m, x) := s
  let raw := m.load x level
  match raw.node with
  | none => some (.inr m)
  | some next =>
    if next = node then
      let (ok, m) := m.casNext x level raw (.clean (m.nextPtr node level))
      if ok then some (.inr m) else some (.inl (m, head))
    else some (.inl (m, next))

def unlinkLevels (node : NodeId) : Option VmaMap :=
  ((List.range (m.nodes node).height).tail.reverse).foldlM
    (fun m level => Loop.run (unlinkStep node level) m.rounds (m, head)) m

def skip (m : VmaMap) (level : ℕ) : ℕ → Option NodeId → Option NodeId
  | 0, ptr => ptr
  | _ + 1, none => none
  | n + 1, some x => m.skip level n (m.nextPtr x level)

/-- Link the new nodes at a level and the last of them to the old successor. -/
def wireLevel (pred : NodeId) (oldCount : ℕ) (newNodes : List NodeId) (m : VmaMap)
    (level : ℕ) : VmaMap :=
  let linked := (newNodes.zip newNodes.tail).foldl
    (fun m pair => if level < (m.nodes pair.2).height then
      m.store pair.1 level (.clean (some pair.2)) else m) m
  match newNodes.getLast? with
  | none => linked
  | some last =>
    if level < (linked.nodes last).height then
      linked.store last level (.clean (linked.skip level oldCount (linked.nextPtr pred 0)))
    else linked

def maxNodeHeight (xs : List NodeId) : ℕ :=
  xs.foldl (fun h x => max h (m.nodes x).height) 0

/-- Wire the new nodes and link the predecessor to the first of them, or past the old nodes
if there are none. -/
def commit (pred : NodeId) (oldCount : ℕ) (newNodes : List NodeId) : VmaMap :=
  match newNodes with
  | first :: _ =>
    let m := (List.range (m.maxNodeHeight newNodes)).foldl (wireLevel pred oldCount newNodes) m
    { m with len := m.len - oldCount + newNodes.length }.store pred 0 (.clean (some first))
  | [] =>
    { m with len := m.len - oldCount }.store pred 0
      (.clean (m.skip 0 oldCount (m.nextPtr pred 0)))

def invalidate (x : NodeId) : VmaMap :=
  m.store x 0 ⟨m.nextPtr x 0, invalidatedBit⟩

/-- Put the new nodes in the place of the old ones, then invalidate and retire the old. -/
def swapInterval (guard : IntervalGuard) (newNodes : List NodeId) : Option VmaMap := do
  let old := guard.locked.tail
  let m := old.foldl markDeleted m
  let m ← old.foldlM unlinkLevels m
  let m := m.commit guard.pred old.length newNodes
  let m := old.foldl invalidate m
  return old.foldl pushRetired m

def findBeforeStep (ptr : NodeId) (x : NodeId) : Option (NodeId ⊕ NodeId) :=
  match m.nextPtr x 0 with
  | none => some (.inr x)
  | some next => if next = ptr then some (.inr x) else some (.inl next)

def mergedVma (left right : Vma) : Vma where
  start := left.start
  stop := right.stop
  flags := left.flags
  kind := left.kind
  cow := left.cow && right.cow
  shared := left.shared && right.shared
  locked := left.locked && right.locked

def unlinkAfter (x right : NodeId) : VmaMap :=
  { (m.markDeleted right).store x 0 (.clean (m.nextPtr right 0)) with
    len := m.len - 1 }.pushRetired right

/-- Swap the left of two neighbours for the merged node and unlink the right one. -/
def mergePair (height : ℕ) (left right : NodeId) : Option (Bool × VmaMap) := do
  let leftVma := (m.nodes left).vma
  let (merged, m) := m.alloc (mergedVma leftVma (m.nodes right).vma) height
  let (guard, m) ← m.lockInterval leftVma.start leftVma.stop
  if guard.locked.tail.length = 1 ∧
      (m.nodes (guard.locked.tail.headD head)).start = leftVma.start then
    let m ← m.swapInterval guard [merged]
    return (true, m.unlinkAfter merged right)
  else return (false, m.unlockInterval guard)

def mergeWithSuccessor (seed : BitVec 64) (ptr : NodeId) : Option VmaMap :=
  match m.nextPtr ptr 0 with
  | none => some m
  | some succ =>
    if (m.nodes ptr).vma.canMergeWith (m.nodes succ).vma then do
      let (_, m) ← m.mergePair (randomHeight seed).1 ptr succ
      return m
    else some m

/-- Merge a node with its predecessor or, failing that, with its successor. -/
def mergeNeighbours (seed : BitVec 64) (ptr : NodeId) : Option VmaMap := do
  let before ← Loop.run (m.findBeforeStep ptr) m.rounds head
  if before ≠ head ∧ (m.nodes before).vma.canMergeWith (m.nodes ptr).vma then
    let (height, seed) := randomHeight seed
    let (done, m) ← m.mergePair height before ptr
    if done then return m else m.mergeWithSuccessor seed ptr
  else m.mergeWithSuccessor seed ptr

/-- The seed is what the shared generator holds when the call begins. -/
def insert (seed : BitVec 64) (vma : Vma) : Option (Bool × VmaMap) :=
  if vma.stop ≤ vma.start then some (false, m)
  else do
    let (guard, m) ← m.lockInterval vma.start vma.stop
    if guard.locked.tail.any fun x =>
        (m.nodes x).start < vma.stop && vma.start < (m.nodes x).stop then
      return (false, m.unlockInterval guard)
    else
      let (height, seed) := randomHeight seed
      let (ptr, m) := m.alloc vma height
      let m := if m.height < height then { m with height := height } else m
      let m ← m.swapInterval guard [ptr]
      let m ← m.mergeNeighbours seed ptr
      return (true, m)

/-- `Node::new` for one VMA after the other, each with the next height of the generator. -/
def allocAll (m : VmaMap) (seed : BitVec 64) : List Vma → List NodeId × VmaMap
  | [] => ([], m)
  | vma :: vmas =>
    let drawn := randomHeight seed
    let allocated := m.alloc vma drawn.1
    let rest := allocated.2.allocAll drawn.2 vmas
    (allocated.1 :: rest.1, rest.2)

def replaceInterval (seed : BitVec 64) (start stop : ℕ)
    (pieces : List Node → List Vma) : Option VmaMap := do
  let (guard, m) ← m.lockInterval start stop
  let (new, m) := m.allocAll seed (pieces (guard.locked.tail.map m.nodes))
  m.swapInterval guard new

def leftPiece (n : Node) (start : ℕ) : List Vma :=
  if n.start < start then [{ n.vma with stop := start }] else []

def rightPiece (n : Node) (stop : ℕ) : List Vma :=
  if stop < n.stop then [{ n.vma with start := stop }] else []

def midPiece (n : Node) (start stop : ℕ) (flags : BitVec 64) : List Vma :=
  let midStart := max n.start start
  let midStop := min n.stop stop
  if midStart < midStop then [{ n.vma with start := midStart, stop := midStop, flags := flags }]
  else []

/-- The pieces `update_flags` cuts a node into. -/
def flagPieces (start stop : ℕ) (flags : BitVec 64) (n : Node) : List Vma :=
  leftPiece n start ++ (midPiece n start stop flags ++ rightPiece n stop)

def updateFlags (seed : BitVec 64) (start stop : ℕ) (flags : BitVec 64) : Option VmaMap :=
  if stop ≤ start then some m
  else m.replaceInterval seed start stop fun old => old.flatMap (flagPieces start stop flags)

/-- The pieces outside the range come first, then the VMA for the range. -/
def insertOrUpdate (seed : BitVec 64) (start stop : ℕ) (vma : Vma) : Option (Bool × VmaMap) :=
  if stop ≤ start then some (false, m)
  else do
    let m ← m.replaceInterval seed start stop fun old =>
      (old.flatMap fun n => leftPiece n start ++ rightPiece n stop) ++
        [{ vma with start := start, stop := stop }]
    return (true, m)

def remove (start stop : ℕ) : Option VmaMap :=
  if stop ≤ start then some m
  else do
    let (guard, m) ← m.lockInterval start stop
    if guard.locked.length ≤ 1 then return m.unlockInterval guard
    else m.swapInterval guard []

end EchOS.Memory.VmaMap
