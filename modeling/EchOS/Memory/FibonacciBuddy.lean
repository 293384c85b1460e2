import EchOS.Lib.SwapRemove
import EchOS.Memory.PhysAddr

/-! The Fibonacci buddy allocator. Addresses are natural numbers, and an operation that
panics returns `none`. -/
namespace EchOS.Memory

def pageSize : ℕ := 4096

def fibonacciSeries : Vector ℕ 32 :=
  #v[1, 2, 3, 5, 8, 13, 21, 34, 55, 89, 144, 233, 377, 610, 987, 1597, 2584, 4181, 6765, 10946,
    17711, 28657, 46368, 75025, 121393, 196418, 317811, 514229, 832040, 1346269, 2178309, 3524578]

/-- Pages of a block in free list `i`. -/
def fib (i : Fin 32) : ℕ := fibonacciSeries[i]

def maxBlocksPerList : ℕ := 64

/-- The occupied part of a fixed array of 64 addresses. -/
structure FixedBlockList where
  items : List ℕ
  bounded : items.length ≤ maxBlocksPerList

namespace FixedBlockList

def empty : FixedBlockList := ⟨[], Nat.zero_le _⟩

/-- A full list drops the address. -/
def push (l : FixedBlockList) (addr : ℕ) : FixedBlockList :=
  if h : l.items.length < maxBlocksPerList then
    ⟨l.items ++ [addr], by simpa using Nat.succ_le_of_lt h⟩
  else l

def swapRemove (l : FixedBlockList) (index : ℕ) : FixedBlockList :=
  ⟨SwapRemove.swapRemove l.items index,
    Nat.le_trans (SwapRemove.length_swapRemove_le _ _) l.bounded⟩

def retainNotEqual (l : FixedBlockList) (addr : ℕ) : FixedBlockList :=
  ⟨l.items.filter (· ≠ addr), Nat.le_trans (List.length_filter_le _ _) l.bounded⟩

end FixedBlockList

structure FibonacciBuddyAllocator where
  freeLists : Fin 32 → FixedBlockList
  totalPages : ℕ
  usedPages : ℕ
  baseAddress : ℕ

/-- First index whose block holds `pages` pages; the last index when none does. -/
def findFibIndex (pages : ℕ) : Fin 32 :=
  ((List.finRange 32).find? fun i => pages ≤ fib i).getD 31

def findFibIndexFloor (pages : ℕ) : Fin 32 :=
  ((List.finRange 32).takeWhile fun i => fib i ≤ pages).getLastD 0

/-- Pages needed for `size` bytes; the addition wraps at the machine word. -/
def pagesFor (size : ℕ) : ℕ := (size + pageSize - 1) % 2 ^ 64 / pageSize

def minPosition : List ℕ → Option ℕ
  | [] => none
  | a :: l =>
    match minPosition l with
    | none => some 0
    | some p => if l.getD p 0 < a then some (p + 1) else some 0

theorem lt_lists {i : ℕ} (h : i + 2 < 32) : i < 32 := by omega

theorem succ_lt_lists {i : ℕ} (h : i + 2 < 32) : i + 1 < 32 := by omega

namespace FibonacciBuddyAllocator

scoped instance : NeZero 32 := ⟨by decide⟩

variable (a : FibonacciBuddyAllocator)

def setList (i : Fin 32) (l : FixedBlockList) : FibonacciBuddyAllocator :=
  { a with freeLists := Function.update a.freeLists i l }

def push (a : FibonacciBuddyAllocator) (i : Fin 32) (addr : ℕ) : FibonacciBuddyAllocator :=
  a.setList i ((a.freeLists i).push addr)

def removeAt (i : Fin 32) (p : ℕ) : FibonacciBuddyAllocator :=
  a.setList i ((a.freeLists i).swapRemove p)

def addUsed (pages : ℕ) : FibonacciBuddyAllocator :=
  { a with usedPages := a.usedPages + pages }

def subUsed (pages : ℕ) : FibonacciBuddyAllocator :=
  { a with usedPages := a.usedPages - pages }

/-- The filling loop of `new`. Every round takes at least one page, so `remaining` rounds
are enough. -/
def fill [PhysAddr] (a : FibonacciBuddyAllocator) : (fuel remaining current : ℕ) →
    Option FibonacciBuddyAllocator
  | 0, _, _ => some a
  | fuel + 1, remaining, current =>
    if remaining = 0 then some a
    else do
      let idx := findFibIndexFloor remaining
      let next ← PhysAddr.new (current + fib idx * pageSize)
      (a.push idx current).fill fuel (remaining - fib idx) next

def new [PhysAddr] (base size : ℕ) : Option FibonacciBuddyAllocator :=
  let totalPages := size / pageSize
  fill ⟨fun _ => .empty, totalPages, 0, base⟩ totalPages totalPages base

def takeLowestBlock (idx : Fin 32) : Option (ℕ × FibonacciBuddyAllocator) := do
  let p ← minPosition (a.freeLists idx).items
  return ((a.freeLists idx).items.getD p 0, a.removeAt idx p)

/-- A free block seen while scanning: its list, its position and its address. -/
structure Candidate where
  idx : Fin 32
  position : ℕ
  addr : ℕ

def candidates (target : Fin 32) : List Candidate :=
  ((List.finRange 32).filter (target < ·)).flatMap fun idx =>
    (a.freeLists idx).items.mapIdx fun p addr => ⟨idx, p, addr⟩

def better (best : Option Candidate) (c : Candidate) : Option Candidate :=
  match best with
  | none => some c
  | some b => if c.addr < b.addr ∨ (c.addr = b.addr ∧ c.idx < b.idx) then some c else some b

def takeLowestSuitableBlock (target : Fin 32) : Option (Fin 32 × ℕ × FibonacciBuddyAllocator) := do
  let c ← (a.candidates target).foldl better none
  return (c.idx, (a.freeLists c.idx).items.getD c.position 0, a.removeAt c.idx c.position)

/-- `splitBlock block i target`: halve a block of list `i` down to list `target`. The left
part keeps the address; the right part goes to its free list. -/
def splitBlock [PhysAddr] (a : FibonacciBuddyAllocator) (block : ℕ) :
    (i : ℕ) → i < 32 → (target : ℕ) → Option FibonacciBuddyAllocator
  | 0, _, _ => some a
  | 1, _, target =>
    if target = 0 then do
      let right ← PhysAddr.new (block + pageSize)
      return a.push 0 right
    else some a
  | i + 2, h, target =>
    if target < i + 2 then do
      let right ← PhysAddr.new (block + fib ⟨i + 1, succ_lt_lists h⟩ * pageSize)
      (a.push ⟨i, lt_lists h⟩ right).splitBlock block (i + 1) (succ_lt_lists h) target
    else some a

/-- `split_block` with the address it returns: the loop never moves `current`. -/
def splitBlockAt [PhysAddr] (block : ℕ) (fromIdx toIdx : Fin 32) :
    Option (ℕ × FibonacciBuddyAllocator) := do
  let a ← a.splitBlock block fromIdx fromIdx.isLt toIdx
  return (block, a)

def allocate [PhysAddr] (size : ℕ) : Option (Option ℕ × FibonacciBuddyAllocator) :=
  if size = 0 then some (none, a)
  else
    let target := findFibIndex (pagesFor size)
    match a.takeLowestBlock target with
    | some (block, a) => some (some block, a.addUsed (fib target))
    | none =>
      match a.takeLowestSuitableBlock target with
      | none => some (none, a)
      | some (larger, block, a) => do
        let a ← a.splitBlock block larger larger.isLt target
        return (some block, a.addUsed (fib target))

def findBuddy [PhysAddr] (addr : ℕ) (idx : Fin 32) : Option ℕ :=
  let offsetPages := (addr - a.baseAddress) / pageSize
  PhysAddr.new (a.baseAddress + (offsetPages ^^^ fib idx) * pageSize)

def findBlockInFreelist (addr : ℕ) : Option (Fin 32) :=
  (List.finRange 32).find? fun idx => addr ∈ (a.freeLists idx).items

/-- The recursion climbs one list a round, so `31 - idx` rounds are enough. -/
def tryCoalesceFrom [PhysAddr] (a : FibonacciBuddyAllocator) (addr : ℕ) (idx : ℕ) :
    (rounds : ℕ) → idx + rounds = 31 → Option FibonacciBuddyAllocator
  | 0, _ => some a
  | rounds + 1, h =>
    have hidx : idx + 1 < 32 := by omega
    match a.findBuddy addr ⟨idx, by omega⟩ with
    | none => none
    | some buddy =>
      if a.findBlockInFreelist buddy = some ⟨idx, by omega⟩ then
        let i : Fin 32 := ⟨idx, by omega⟩
        let a := a.setList i ((a.freeLists i).retainNotEqual buddy)
        let coalesced := if addr < buddy then addr else buddy
        (a.push ⟨idx + 1, hidx⟩ coalesced).tryCoalesceFrom coalesced (idx + 1) rounds (by omega)
      else some a

def tryCoalesce [PhysAddr] (addr : ℕ) (idx : Fin 32) : Option FibonacciBuddyAllocator :=
  a.tryCoalesceFrom addr idx (31 - idx) (by omega)

def deallocate [PhysAddr] (addr size : ℕ) : Option FibonacciBuddyAllocator :=
  if size = 0 then some a
  else
    let target := findFibIndex (pagesFor size)
    ((a.push target addr).subUsed (fib target)).tryCoalesce addr target

end FibonacciBuddyAllocator

end EchOS.Memory
