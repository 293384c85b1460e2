import EchOS.Lib.RingWindow
import EchOS.Lib.Run

/-! The work-stealing deque of `task/deque.rs`, one atomic access at a time: an owner that
pushes and pops and any number of thieves, interleaved in every possible order. -/

namespace EchOS.Scheduling

def dequeSize : ℕ := 4096

instance : NeZero dequeSize := ⟨by decide⟩

/-- Where the owner is: the next atomic access it makes and the values it has loaded. -/
inductive OwnerPc (α : Type*)
  | idle
  | pushLoadTop (task : α) (b : ℤ)
  | pushStoreSlot (task : α) (b : ℤ)
  | pushStoreBottom (task : α) (b : ℤ)
  | popStoreBottom (b : ℤ)
  | popLoadTop (b : ℤ)
  | popLoadSlot (b t : ℤ)
  | popCasTop (b t : ℤ) (taskPtr : Option α)
  | popRestore (b : ℤ) (result : Option (Option α))

inductive ThiefPc (α : Type*)
  | idle
  | stealLoadBottom (t : ℤ)
  | stealLoadSlot (t : ℤ)
  | stealCasTop (t : ℤ) (taskPtr : Option α)

/-- The shared deque and its threads, with a log of what the calls returned: the tasks of
successful pushes, the pointers handed out, and the bottom and top of each failed push.
A pointer is `none` when it is null. -/
structure Deque (α : Type*) where
  buffer : Fin dequeSize → Option α
  top : ℤ
  bottom : ℤ
  owner : OwnerPc α
  thief : ℕ → ThiefPc α
  pushed : List α
  returned : List (Option α)
  rejected : List (ℤ × ℤ)

namespace Deque

variable {α : Type*}

/-- Calls begin with their first access; the other two operations continue a call. -/
inductive Op (α : Type*)
  | push (task : α)
  | pop
  | owner
  | steal (thief : ℕ)
  | thief (thief : ℕ)

def new : Deque α := ⟨fun _ => none, 0, 0, .idle, fun _ => .idle, [], [], []⟩

def idx (k : ℤ) : Fin dequeSize := RingWindow.slot dequeSize k

/-- `b.wrapping_sub(t) as usize >= DEQUE_SIZE`: a negative difference is a huge one. -/
def isFull (b t : ℤ) : Bool := b - t < 0 || dequeSize ≤ b - t

variable (s : Deque α)

def push (task : α) : Deque α := { s with owner := .pushLoadTop task s.bottom }

def pop : Deque α := { s with owner := .popStoreBottom (s.bottom - 1) }

def ownerStep : Deque α :=
  match s.owner with
  | .idle => s
  | .pushLoadTop task b =>
    if isFull b s.top then { s with owner := .idle, rejected := (b, s.top) :: s.rejected }
    else { s with owner := .pushStoreSlot task b }
  | .pushStoreSlot task b =>
    { s with
      buffer := Function.update s.buffer (idx b) (some task)
      owner := .pushStoreBottom task b }
  | .pushStoreBottom task b =>
    { s with bottom := b + 1, owner := .idle, pushed := task :: s.pushed }
  | .popStoreBottom b => { s with bottom := b, owner := .popLoadTop b }
  | .popLoadTop b =>
    if s.top ≤ b then { s with owner := .popLoadSlot b s.top }
    else { s with owner := .popRestore b none }
  | .popLoadSlot b t =>
    if t = b then { s with owner := .popCasTop b t (s.buffer (idx b)) }
    else { s with owner := .idle, returned := s.buffer (idx b) :: s.returned }
  | .popCasTop b t taskPtr =>
    if s.top = t then { s with top := t + 1, owner := .popRestore b (some taskPtr) }
    else { s with owner := .popRestore b none }
  | .popRestore b result =>
    { s with bottom := b + 1, owner := .idle, returned := result.toList ++ s.returned }

def setThief (i : ℕ) (pc : ThiefPc α) : Deque α :=
  { s with thief := Function.update s.thief i pc }

def steal (i : ℕ) : Deque α := s.setThief i (.stealLoadBottom s.top)

def thiefStep (i : ℕ) : Deque α :=
  match s.thief i with
  | .idle => s
  | .stealLoadBottom t =>
    if t < s.bottom then s.setThief i (.stealLoadSlot t) else s.setThief i .idle
  | .stealLoadSlot t => s.setThief i (.stealCasTop t (s.buffer (idx t)))
  | .stealCasTop t taskPtr =>
    if s.top = t then
      { s.setThief i .idle with top := t + 1, returned := taskPtr :: s.returned }
    else s.setThief i .idle

/-- A thread begins a call only when it is not inside one. -/
def step : Op α → Deque α
  | .push task =>
    match s.owner with
    | .idle => s.push task
    | _ => s
  | .pop =>
    match s.owner with
    | .idle => s.pop
    | _ => s
  | .owner => s.ownerStep
  | .steal i =>
    match s.thief i with
    | .idle => s.steal i
    | _ => s
  | .thief i => s.thiefStep i

end Deque

end EchOS.Scheduling
