import EchOS.Lib.Buckets

/-! The hierarchical timing wheel of `task/timer.rs`. -/

namespace EchOS.Scheduling

inductive TaskState
  | ready
  | running
  | blocked
  | sleeping (wakeTick : ℕ)
  | terminated
  | stopped
  | zombie
  deriving DecidableEq

structure Task (α : Type*) where
  body : α
  state : TaskState
  deriving DecidableEq

def wheelSize : ℕ := 256
def wheelBits : ℕ := 8

def wheelSlot (tick : ℕ) : Fin wheelSize := ⟨tick % wheelSize, Nat.mod_lt _ (by decide)⟩

theorem eq_wheelSlot_iff {idx : Fin wheelSize} {tick : ℕ} :
    idx = wheelSlot tick ↔ idx.val = tick % wheelSize := Fin.ext_iff

structure TimingWheel (α : Type*) where
  wheels : Fin 4 × Fin wheelSize → List (Task α)
  currentTick : ℕ

namespace TimingWheel

scoped instance : NeZero 4 := ⟨by decide⟩

variable {α : Type*}

def new : TimingWheel α := ⟨fun _ => [], 0⟩

variable (t : TimingWheel α)

def pushBack (level : Fin 4) (idx : Fin wheelSize) (task : Task α) : TimingWheel α :=
  { t with wheels := Buckets.push t.wheels (level, idx) task }

def schedule (task : Task α) (wakeTick : ℕ) : TimingWheel α :=
  let task := { task with state := .sleeping wakeTick }
  if wakeTick ≤ t.currentTick then t.pushBack 0 (wheelSlot (t.currentTick + 1)) task
  else
    let diff := wakeTick - t.currentTick
    if diff < wheelSize then t.pushBack 0 (wheelSlot wakeTick) task
    else if diff < 1 <<< (2 * wheelBits) then
      t.pushBack 1 (wheelSlot (wakeTick >>> wheelBits)) task
    else if diff < 1 <<< (3 * wheelBits) then
      t.pushBack 2 (wheelSlot (wakeTick >>> (2 * wheelBits))) task
    else t.pushBack 3 (wheelSlot (wakeTick >>> (3 * wheelBits))) task

/-- Schedule a task taken from an upper wheel again; one that is not sleeping is scheduled
for the tick of the cascade. -/
def reschedule (tick : ℕ) (t : TimingWheel α) (task : Task α) : TimingWheel α :=
  match task.state with
  | .sleeping wakeTick => t.schedule task wakeTick
  | _ => t.schedule task tick

def cascade (level : Fin 4) (tick : ℕ) : TimingWheel α :=
  let idx := wheelSlot (tick >>> (level * wheelBits))
  let tasksToMove := t.wheels (level, idx)
  let t := { t with wheels := Buckets.clear t.wheels (level, idx) }
  tasksToMove.foldl (reschedule tick) t

/-- Cascade a level when all wheels below it have come round. -/
def cascadeIfDue (level : Fin 4) (tick : ℕ) : TimingWheel α :=
  if tick % 1 <<< (level * wheelBits) = 0 then t.cascade level tick else t

def tick : List (Task α) × TimingWheel α :=
  let current := t.currentTick
  let idx := wheelSlot current
  let wokenTasks := t.wheels (0, idx)
  let t : TimingWheel α := ⟨Buckets.clear t.wheels (0, idx), current + 1⟩
  let t := t.cascadeIfDue 1 (current + 1)
  let t := t.cascadeIfDue 2 (current + 1)
  let t := t.cascadeIfDue 3 (current + 1)
  (wokenTasks, t)

end TimingWheel

end EchOS.Scheduling
