import Mathlib.Data.List.Basic
import EchOS.Lib.GraphSearch

/-! The file lock manager of `fs/file_lock.rs`: the tables, their operations and the wait-for
graph. A table without an entry for a key is one with an empty list there. -/

namespace EchOS.Fs

inductive LockType
  | rdlck | wrlck | unlck
  deriving DecidableEq

/-- A record lock. The owner `lPid` is a process for a POSIX lock and a descriptor for one of
an open file description. -/
structure FileLock where
  lType : LockType
  lStart : UInt64
  lLen : UInt64
  lPid : UInt64
  isOfd : Bool
  deriving DecidableEq

namespace FileLock

def stop (lock : FileLock) : ℕ :=
  if lock.lLen = 0 then 2 ^ 64 - 1
  else min (lock.lStart.toNat + lock.lLen.toNat) (2 ^ 64 - 1)

def overlaps (lock other : FileLock) : Bool :=
  lock.lStart.toNat < other.stop && other.lStart.toNat < lock.stop

def conflictsWith (lock other : FileLock) : Bool :=
  if lock.isOfd = other.isOfd ∧ lock.lPid = other.lPid then false
  else if lock.lType = .unlck ∨ other.lType = .unlck then false
  else if lock.lType = .rdlck ∧ other.lType = .rdlck then false
  else lock.overlaps other

def containsOffset (lock : FileLock) (offset : UInt64) : Bool :=
  lock.lStart ≤ offset && offset.toNat < lock.stop

end FileLock

inductive FlockType
  | shared | exclusive | unlock
  deriving DecidableEq

structure FlockLock where
  fd : UInt64
  lockType : FlockType
  pid : UInt64
  deriving DecidableEq

inductive FileLockError
  | conflict | invalidLock | deadlock | permissionDenied
  deriving DecidableEq

structure FileLockManager where
  posixLocks : UInt64 → List FileLock
  flockLocks : UInt64 → List FlockLock
  waitForGraph : List (UInt64 × List UInt64)
  totalLocks : UInt64
  totalConflicts : UInt64

namespace FileLockManager

def new : FileLockManager := ⟨fun _ => [], fun _ => [], [], 0, 0⟩

variable (m : FileLockManager)

def canAcquirePosixLock (inode : UInt64) (lock : FileLock) : Bool :=
  !(m.posixLocks inode).any lock.conflictsWith

def setPosixLocks (inode : UInt64) (locks : List FileLock) : FileLockManager :=
  { m with posixLocks := fun i => if i = inode then locks else m.posixLocks i }

def acquirePosixLock (inode : UInt64) (lock : FileLock) :
    Except FileLockError Unit × FileLockManager :=
  if (m.posixLocks inode).any lock.conflictsWith then
    (.error .conflict, { m with totalConflicts := m.totalConflicts + 1 })
  else if lock.lType = .unlck then
    (.ok (), m.setPosixLocks inode
      ((m.posixLocks inode).filter fun l => l.lPid ≠ lock.lPid || !l.overlaps lock))
  else
    (.ok (), { m.setPosixLocks inode (m.posixLocks inode ++ [lock]) with
      totalLocks := m.totalLocks + 1 })

def getConflictingLock (inode : UInt64) (lock : FileLock) : Option FileLock :=
  (m.posixLocks inode).find? lock.conflictsWith

def releaseAllLocks (pid : UInt64) : FileLockManager :=
  { m with
    posixLocks := fun i => (m.posixLocks i).filter fun l => l.isOfd || l.lPid ≠ pid
    flockLocks := fun i => (m.flockLocks i).filter fun l => l.pid ≠ pid }

def releaseOfdLocks (fd : UInt64) : FileLockManager :=
  { m with
    posixLocks := fun i => (m.posixLocks i).filter fun l => !(l.isOfd && l.lPid == fd) }

def isLocked (inode offset : UInt64) (write : Bool) : Bool :=
  (m.posixLocks inode).any fun l =>
    l.containsOffset offset && (l.lType == .wrlck || (l.lType == .rdlck && write))

def holders (inode : UInt64) (lock : FileLock) : List UInt64 :=
  ((m.posixLocks inode).filter lock.conflictsWith).map (·.lPid)

def waitingFor (pid : UInt64) : List UInt64 :=
  (m.waitForGraph.lookup pid).getD []

def detectRounds (stack : List UInt64) : ℕ :=
  stack.length + GraphSearch.pending m.waitingFor [] (m.waitForGraph.map Prod.fst) + 1

/-- The search from the owners of conflicting locks for the process that wants to wait. Sets of
owners are lists here: their order and repetitions do not matter to the answer. -/
def detectDeadlock (waiter inode : UInt64) (lock : FileLock) : Option Bool :=
  if lock.isOfd then some false
  else
    let stack := (m.holders inode lock).reverse
    Loop.run (GraphSearch.step m.waitingFor waiter) (m.detectRounds stack) ([], stack)

def addWaitEdges (waiter inode : UInt64) (lock : FileLock) : FileLockManager :=
  if lock.isOfd then m
  else
    { m with
      waitForGraph := (waiter, m.holders inode lock) ::
        m.waitForGraph.filter fun entry => entry.1 ≠ waiter }

def removeWaitEdges (pid : UInt64) : FileLockManager :=
  { m with
    waitForGraph := (m.waitForGraph.filter fun entry => entry.1 ≠ pid).map
      fun entry => (entry.1, entry.2.filter (· ≠ pid)) }

def locksAfter (inode : UInt64) (lock : FileLock) : List FileLock :=
  if lock.lType = .unlck then
    (m.posixLocks inode).filter fun l => l.lPid ≠ lock.lPid || !l.overlaps lock
  else m.posixLocks inode ++ [lock]

variable {m} {inode : UInt64} {lock : FileLock}

theorem acquirePosixLock_of_conflict (h : m.canAcquirePosixLock inode lock = false) :
    m.acquirePosixLock inode lock =
      (.error .conflict, { m with totalConflicts := m.totalConflicts + 1 }) :=
  if_pos (by simpa [canAcquirePosixLock] using h)

theorem acquirePosixLock_of_free (h : m.canAcquirePosixLock inode lock = true) :
    ∃ m', m.acquirePosixLock inode lock = (.ok (), m') ∧ m'.waitForGraph = m.waitForGraph ∧
      ∀ inode', m'.posixLocks inode' =
        if inode' = inode then m.locksAfter inode lock else m.posixLocks inode' := by
  unfold acquirePosixLock locksAfter
  rw [if_neg (by simpa [canAcquirePosixLock] using h)]
  split_ifs with htype
  · exact ⟨_, rfl, rfl, fun _ => rfl⟩
  · exact ⟨_, rfl, rfl, fun _ => rfl⟩

end FileLockManager

end EchOS.Fs
