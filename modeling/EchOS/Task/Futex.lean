import EchOS.Lib.Run

/-! Waiting on addresses in `task/futex.rs`, one locked access at a time: tasks that run
`sys_futex_wait` and one that stores to a word and calls `sys_futex_wake`, interleaved in every
possible order. -/

namespace EchOS.Scheduling.Futex

abbrev TaskId := ℕ

inductive WakeReason
  | signaled | timedOut
  deriving DecidableEq

structure WakeRecord where
  reason : WakeReason
  addr : UInt64
  deriving DecidableEq

/-- A waiter in the table. `task` tells whether its parked task is still there. -/
structure AddressWaiter where
  taskId : TaskId
  task : Bool
  addresses : List UInt64
  bitset : UInt32
  deadlineTick : Option UInt64
  deriving DecidableEq

/-- The three tables and the counter, each behind a lock of its own. -/
structure AddressWaitManager where
  nextWaiterId : ℕ
  waiters : ℕ → Option AddressWaiter
  addressIndex : UInt64 → List ℕ
  wakeRecords : TaskId → Option WakeRecord

namespace AddressWaitManager

def new : AddressWaitManager := ⟨1, fun _ => none, fun _ => [], fun _ => none⟩

def pushIndex (index : UInt64 → List ℕ) (id : ℕ) (addresses : List UInt64) : UInt64 → List ℕ :=
  addresses.foldl (fun index addr => Function.update index addr (index addr ++ [id])) index

def dropIndex (index : UInt64 → List ℕ) (id : ℕ) (addresses : List UInt64) : UInt64 → List ℕ :=
  addresses.foldl (fun index addr => Function.update index addr ((index addr).filter (· ≠ id)))
    index

/-- The first waiters of a list that are in the table and answer to the bitset. -/
def matchWaiters (waiters : ℕ → Option AddressWaiter) (maxCount : ℕ) (bitset : Option UInt32) :
    List ℕ → List ℕ → List ℕ
  | [], matched => matched
  | id :: ids, matched =>
    if maxCount ≤ matched.length then matched
    else
      match waiters id with
      | none => matchWaiters waiters maxCount bitset ids matched
      | some waiter =>
        if ∃ mask ∈ bitset, waiter.bitset &&& mask = 0 then
          matchWaiters waiters maxCount bitset ids matched
        else matchWaiters waiters maxCount bitset ids (matched ++ [id])

end AddressWaitManager

/-- The arguments of `sys_futex_wait`, without a timeout. -/
structure WaitCall where
  uaddr : UInt64
  expected : UInt32
  bitset : UInt32
  hasBitset : Bool

def WaitCall.effectiveBitset (call : WaitCall) : UInt32 :=
  if call.hasBitset then call.bitset else UInt32.ofNat (2 ^ 32 - 1)

inductive WaitResult
  | eagain | einval | timedOut | signaled
  deriving DecidableEq

/-- Where a waiter is: the next access it makes. -/
inductive WaiterPc
  | start
  | compared
  | taken
  | numbered (id : ℕ)
  | inserted (id : ℕ)
  | blocked (id : ℕ)
  | returned (result : WaitResult)
  deriving DecidableEq

/-- Where the waker is: before its store, inside `wake_matches` or inside the `resolve` of a
waiter, with what is left to resolve and the number resolved. -/
inductive WakerPc
  | start
  | stored
  | listed (ids : List ℕ)
  | resolving (ids : List ℕ) (woken : ℕ)
  | unindexing (id : ℕ) (waiter : AddressWaiter) (ids : List ℕ) (woken : ℕ)
  | recording (id : ℕ) (waiter : AddressWaiter) (ids : List ℕ) (woken : ℕ)
  | waking (id : ℕ) (waiter : AddressWaiter) (ids : List ℕ) (woken : ℕ)
  | done (woken : ℕ)

/-- The waiters, by task, and what the waker stores and wakes. -/
structure Scenario where
  waits : List WaitCall
  uaddr : UInt64
  value : UInt32
  count : UInt32
  bitset : Option UInt32

structure System where
  memory : UInt64 → UInt32
  manager : AddressWaitManager
  waiter : TaskId → WaiterPc
  waker : WakerPc
  awake : TaskId → Bool

inductive Event
  | waiter (task : TaskId) (parked : Bool)
  | waker

namespace System

def init (memory : UInt64 → UInt32) : System :=
  ⟨memory, .new, fun _ => .start, .start, fun _ => false⟩

def compareU32 (s : System) (addr : UInt64) (expected : UInt32) : Bool :=
  addr ≠ 0 && s.memory addr = expected

def setPc (s : System) (task : TaskId) (pc : WaiterPc) : System :=
  { s with waiter := Function.update s.waiter task pc }

def entry (call : WaitCall) (task : TaskId) : AddressWaiter :=
  ⟨task, true, [call.uaddr], call.effectiveBitset, none⟩

def waiterStep (s : System) (call : WaitCall) (task : TaskId) (parked : Bool) : System :=
  match s.waiter task with
  | .start =>
    if !s.compareU32 call.uaddr call.expected then s.setPc task (.returned .eagain)
    else if call.hasBitset && call.bitset = 0 then s.setPc task (.returned .einval)
    else s.setPc task .compared
  | .compared => if parked then s.setPc task .taken else s.setPc task (.returned .timedOut)
  | .taken =>
    { s.setPc task (.numbered s.manager.nextWaiterId) with
      manager := { s.manager with nextWaiterId := s.manager.nextWaiterId + 1 } }
  | .numbered id =>
    { s.setPc task (.inserted id) with
      manager := { s.manager with
        waiters := Function.update s.manager.waiters id (some (entry call task)) } }
  | .inserted id =>
    { s.setPc task (.blocked id) with
      manager := { s.manager with
        addressIndex := AddressWaitManager.pushIndex s.manager.addressIndex id [call.uaddr] } }
  | .blocked _ =>
    if s.awake task then
      let result := match s.manager.wakeRecords task with
        | some ⟨.signaled, _⟩ => .signaled
        | _ => .timedOut
      { s.setPc task (.returned result) with
        manager := { s.manager with
          wakeRecords := Function.update s.manager.wakeRecords task none } }
    else s
  | .returned _ => s

def wakerStep (c : Scenario) (s : System) : System :=
  match s.waker with
  | .start =>
    { s with memory := Function.update s.memory c.uaddr c.value, waker := .stored }
  | .stored =>
    if s.manager.addressIndex c.uaddr = [] then { s with waker := .done 0 }
    else { s with waker := .listed (s.manager.addressIndex c.uaddr) }
  | .listed ids =>
    { s with waker := .resolving (AddressWaitManager.matchWaiters s.manager.waiters
        c.count.toNat c.bitset ids []) 0 }
  | .resolving [] woken => { s with waker := .done woken }
  | .resolving (id :: ids) woken =>
    match s.manager.waiters id with
    | none => { s with waker := .resolving ids woken }
    | some waiter =>
      { s with
        manager := { s.manager with waiters := Function.update s.manager.waiters id none }
        waker := .unindexing id waiter ids woken }
  | .unindexing id waiter ids woken =>
    { s with
      manager := { s.manager with
        addressIndex := AddressWaitManager.dropIndex s.manager.addressIndex id waiter.addresses }
      waker := .recording id waiter ids woken }
  | .recording id waiter ids woken =>
    { s with
      manager := { s.manager with
        wakeRecords := Function.update s.manager.wakeRecords waiter.taskId
          (some ⟨.signaled, c.uaddr⟩) }
      waker := .waking id waiter ids woken }
  | .waking _ waiter ids woken =>
    if waiter.task then
      { s with awake := Function.update s.awake waiter.taskId true
               waker := .resolving ids (woken + 1) }
    else { s with waker := .resolving ids woken }
  | .done _ => s

def step (c : Scenario) (s : System) : Event → System
  | .waiter task parked =>
    match c.waits[task]? with
    | none => s
    | some call => s.waiterStep call task parked
  | .waker => s.wakerStep c

end System

end EchOS.Scheduling.Futex
