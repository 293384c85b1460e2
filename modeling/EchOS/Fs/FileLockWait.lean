import EchOS.Fs.FileLock
import EchOS.Lib.Run

/-! `sys_fcntl_lock` of `fs/file_lock.rs` and the processes that wait in it. -/

namespace EchOS.Fs

structure LockArg where
  lType : ℤ
  lStart : UInt64
  lLen : UInt64
  lPid : UInt64
  deriving DecidableEq

def fGetlk : ℤ := 5
def fSetlk : ℤ := 6
def fSetlkw : ℤ := 7
def fOfdGetlk : ℤ := 36
def fOfdSetlk : ℤ := 37
def fOfdSetlkw : ℤ := 38

def LockType.ofInt (value : ℤ) : Option LockType :=
  if value = 0 then some .rdlck
  else if value = 1 then some .wrlck
  else if value = 2 then some .unlck
  else none

def isOfdCommand (cmd : ℤ) : Bool := cmd = fOfdGetlk || cmd = fOfdSetlk || cmd = fOfdSetlkw

def posixCommand (cmd : ℤ) : ℤ :=
  if cmd = fOfdGetlk then fGetlk
  else if cmd = fOfdSetlk then fSetlk
  else if cmd = fOfdSetlkw then fSetlkw
  else cmd

/-- How a call ends: with an errno and the lock it reports, or waiting for a lock. -/
inductive FcntlOutcome
  | returned (errno : ℤ) (reported : Option FileLock)
  | waiting (lock : FileLock)

/-- The request with its owner filled in, or the errno of a request that is not valid. -/
def lockOf (pid : UInt64) (fd cmd : ℤ) (arg : LockArg) : Except ℤ FileLock :=
  if fd < 0 then .error (-9)
  else
    match LockType.ofInt arg.lType with
    | none => .error (-22)
    | some lType =>
      if isOfdCommand cmd ∧ arg.lPid ≠ 0 then .error (-22)
      else
        .ok ⟨lType, arg.lStart, arg.lLen,
          if isOfdCommand cmd then UInt64.ofNat fd.toNat else pid, isOfdCommand cmd⟩

/-- The call up to the first attempt to take the lock of a blocking command. `inode` is what
the descriptor table gives for `fd`, and `pid` the caller. -/
def sysFcntlLock (m : FileLockManager) (pid inode : UInt64) (fd cmd : ℤ) (arg : LockArg) :
    Option (FcntlOutcome × FileLockManager) :=
  match lockOf pid fd cmd arg with
  | .error errno => some (.returned errno none, m)
  | .ok lock =>
    if posixCommand cmd = fGetlk then
      match m.getConflictingLock inode lock with
      | some held =>
        let lPid := if held.isOfd then UInt64.ofNat (2 ^ 64 - 1) else held.lPid
        some (.returned 0 (some { held with lPid := lPid }), m)
      | none => some (.returned 0 (some { lock with lType := .unlck }), m)
    else if posixCommand cmd = fSetlk then
      match m.acquirePosixLock inode lock with
      | (.ok (), m) => some (.returned 0 none, m)
      | (.error .conflict, m) => some (.returned (-11) none, m)
      | (.error _, m) => some (.returned (-22) none, m)
    else if posixCommand cmd = fSetlkw then
      match m.detectDeadlock lock.lPid inode lock with
      | none => none
      | some true => some (.returned (-35) none, m)
      | some false => some (.waiting lock, m.addWaitEdges lock.lPid inode lock)
    else some (.returned (-22) none, m)

/-- One attempt of a blocking command to take its lock; `false` if it has to try again. -/
def retryLock (m : FileLockManager) (inode : UInt64) (lock : FileLock) : Bool × FileLockManager :=
  match m.acquirePosixLock inode lock with
  | (.ok (), m) => (true, m.removeWaitEdges lock.lPid)
  | (.error .conflict, m) => (false, m)
  | (.error _, m) => (true, m.removeWaitEdges lock.lPid)

structure LockSystem where
  manager : FileLockManager
  waiting : UInt64 → Option (UInt64 × FileLock)

inductive LockEvent
  | call (pid inode : UInt64) (fd cmd : ℤ) (arg : LockArg)
  | retry (pid : UInt64)

namespace LockSystem

def init : LockSystem := ⟨.new, fun _ => none⟩

def setWaiting (s : LockSystem) (pid : UInt64) (request : Option (UInt64 × FileLock)) :
    UInt64 → Option (UInt64 × FileLock) :=
  fun p => if p = pid then request else s.waiting p

/-- A process that waits makes no other call, and one that does not wait has nothing to retry. -/
def step (s : LockSystem) : LockEvent → LockSystem
  | .call pid inode fd cmd arg =>
    match s.waiting pid with
    | some _ => s
    | none =>
      match sysFcntlLock s.manager pid inode fd cmd arg with
      | none => s
      | some (.returned _ _, m) => { s with manager := m }
      | some (.waiting lock, m) => ⟨m, s.setWaiting pid (some (inode, lock))⟩
  | .retry pid =>
    match s.waiting pid with
    | none => s
    | some (inode, lock) =>
      match retryLock s.manager inode lock with
      | (true, m) => ⟨m, s.setWaiting pid none⟩
      | (false, m) => { s with manager := m }

/-- The process waits in `F_SETLKW` for a lock that another process holds. -/
def BlockedOn (s : LockSystem) (pid holder : UInt64) : Prop :=
  ∃ inode request, s.waiting pid = some (inode, request) ∧ request.isOfd = false ∧
    ∃ held ∈ s.manager.posixLocks inode, held.isOfd = false ∧ held.lPid = holder ∧
      request.conflictsWith held = true

def Deadlocked (s : LockSystem) : Prop := ∃ pid, Relation.TransGen s.BlockedOn pid pid

end LockSystem

end EchOS.Fs
