import Mathlib.Data.Vector.Basic
import EchOS.Lib.Run

/-! The appliance boot control block and its six operations. Fields are the
machine integers of the on-disk record; slots, stages and reasons are stored as
bytes and read back through `ofByte`. -/
namespace EchOS.Boot

inductive SlotId
  | none | systemA | systemB | recovery
  deriving DecidableEq

def SlotId.toByte : SlotId → UInt8
  | .none => 0
  | .systemA => 1
  | .systemB => 2
  | .recovery => 3

def SlotId.ofByte (value : UInt8) : SlotId :=
  if value = 1 then .systemA
  else if value = 2 then .systemB
  else if value = 3 then .recovery
  else .none

def SlotId.inactivePair : SlotId → SlotId
  | .systemA => .systemB
  | .systemB => .systemA
  | .recovery | .none => .systemA

inductive BootStage
  | loaderEntry | bootControlLoaded | kernelCoreReady | storageMounted | networkReady
  | displayReady | desktopReady | appBasketReady | recovery
  deriving DecidableEq

def BootStage.toByte : BootStage → UInt8
  | .loaderEntry => 1
  | .bootControlLoaded => 2
  | .kernelCoreReady => 3
  | .storageMounted => 4
  | .networkReady => 5
  | .displayReady => 6
  | .desktopReady => 7
  | .appBasketReady => 8
  | .recovery => 9

def BootStage.ofByte (value : UInt8) : BootStage :=
  if value = 1 then .loaderEntry
  else if value = 2 then .bootControlLoaded
  else if value = 3 then .kernelCoreReady
  else if value = 4 then .storageMounted
  else if value = 5 then .networkReady
  else if value = 6 then .displayReady
  else if value = 7 then .desktopReady
  else if value = 8 then .appBasketReady
  else if value = 9 then .recovery
  else .loaderEntry

inductive RollbackReason
  | none | bootAttemptsExceeded | panic | updateRejected | recoveryRequested
  deriving DecidableEq

def RollbackReason.toByte : RollbackReason → UInt8
  | .none => 0
  | .bootAttemptsExceeded => 1
  | .panic => 2
  | .updateRejected => 3
  | .recoveryRequested => 4

structure BootControlBlock where
  magic : UInt32
  version : UInt16
  headerSize : UInt16
  activeByte : UInt8
  pendingByte : UInt8
  attemptsRemaining : UInt8
  bootOk : UInt8
  lastBootStage : UInt8
  rollbackReason : UInt8
  panicCount : UInt32
  slotGenerationA : UInt64
  slotGenerationB : UInt64
  bootEpoch : UInt64
  reserved : Vector UInt8 80
  crc32 : UInt32
  deriving DecidableEq

/-- `ECBC` read as a little-endian word. -/
def bootControlMagic : UInt32 := 0x43424345

def bootControlVersion : UInt16 := 1

def defaultBootAttempts : UInt8 := 3

def blockSize : UInt16 := 136

private def leBytes (n : ℕ) (value : ℕ) : List UInt8 :=
  (List.range n).map fun i => UInt8.ofNat (value / 256 ^ i)

variable (b : BootControlBlock)

namespace BootControlBlock

/-- The record in memory order. The two bytes before `panicCount`, the four before
`slotGenerationA` and the four after `crc32` are alignment padding. -/
def bytesOf : List UInt8 :=
  leBytes 4 b.magic.toNat ++ leBytes 2 b.version.toNat ++ leBytes 2 b.headerSize.toNat ++
  [b.activeByte, b.pendingByte, b.attemptsRemaining, b.bootOk, b.lastBootStage,
    b.rollbackReason, 0, 0] ++
  leBytes 4 b.panicCount.toNat ++ [0, 0, 0, 0] ++
  leBytes 8 b.slotGenerationA.toNat ++ leBytes 8 b.slotGenerationB.toNat ++
  leBytes 8 b.bootEpoch.toNat ++ b.reserved.toList ++
  leBytes 4 b.crc32.toNat ++ [0, 0, 0, 0]

end BootControlBlock

private def crcBit (crc : UInt32) : UInt32 :=
  (crc >>> 1) ^^^ ((0 - (crc &&& 1)) &&& 0xedb88320)

def crc32Of (bytes : List UInt8) : UInt32 :=
  ~~~ bytes.foldl (fun crc byte => Nat.iterate crcBit 8 (crc ^^^ byte.toUInt32)) 0xffffffff

private def satSucc32 (n : UInt32) : UInt32 := if n = 0xffffffff then n else n + 1

private def satSucc64 (n : UInt64) : UInt64 := if n = 0xffffffffffffffff then n else n + 1

theorem le_satSucc64 (n : UInt64) : n ≤ satSucc64 n := by
  unfold satSucc64
  split_ifs with h
  · exact UInt64.le_refl n
  · rw [UInt64.le_iff_toNat_le, UInt64.toNat_add]
    have hlt := n.toNat_lt
    have hne : n.toNat ≠ 0xffffffffffffffff := fun heq => h (UInt64.toNat_inj.mp heq)
    simp only [UInt64.toNat_one]
    omega

namespace BootControlBlock

def new : BootControlBlock where
  magic := bootControlMagic
  version := bootControlVersion
  headerSize := blockSize
  activeByte := SlotId.systemA.toByte
  pendingByte := SlotId.none.toByte
  attemptsRemaining := defaultBootAttempts
  bootOk := 1
  lastBootStage := BootStage.loaderEntry.toByte
  rollbackReason := RollbackReason.none.toByte
  panicCount := 0
  slotGenerationA := 1
  slotGenerationB := 0
  bootEpoch := 0
  reserved := Vector.replicate 80 0
  crc32 := 0

def withCrc : BootControlBlock :=
  { b with crc32 := crc32Of (bytesOf { b with crc32 := 0 }) }

def default : BootControlBlock := new.withCrc

def validate : Bool :=
  if b.magic ≠ bootControlMagic ∨ b.version ≠ bootControlVersion ∨ b.headerSize ≠ blockSize then
    false
  else b.crc32 == crc32Of (bytesOf { b with crc32 := 0 })

def activeSlot : SlotId := SlotId.ofByte b.activeByte

def pendingSlot : SlotId := SlotId.ofByte b.pendingByte

def lastStage : BootStage := BootStage.ofByte b.lastBootStage

def rollbackToStable (reason : RollbackReason) : BootControlBlock :=
  let stable := b.pendingSlot.inactivePair
  withCrc { b with
    activeByte := stable.toByte
    pendingByte := SlotId.none.toByte
    attemptsRemaining := defaultBootAttempts
    bootOk := 0
    lastBootStage := BootStage.recovery.toByte
    rollbackReason := reason.toByte }

/-- First part of `beginBoot`: the pending slot, if any, becomes the active one. -/
def selectSlot : BootControlBlock :=
  if b.pendingSlot ≠ .none then { b with activeByte := b.pendingSlot.toByte }
  else if b.activeSlot = .none then { b with activeByte := SlotId.systemA.toByte }
  else b

/-- Last part of `beginBoot`: use up one attempt, or roll back when none is left. -/
def useAttempt : BootControlBlock :=
  if b.attemptsRemaining = 0 then b.rollbackToStable .bootAttemptsExceeded
  else { b with attemptsRemaining := b.attemptsRemaining - 1 }

def beginBoot : BootControlBlock :=
  let b := b.selectSlot
  let b := { b with
    bootEpoch := satSucc64 b.bootEpoch
    bootOk := 0
    lastBootStage := BootStage.loaderEntry.toByte
    rollbackReason := RollbackReason.none.toByte }
  b.useAttempt.withCrc

def stageUpdate (target : SlotId) : BootControlBlock :=
  let b := { b with
    pendingByte := target.toByte
    bootOk := 0
    attemptsRemaining := defaultBootAttempts }
  let b := match target with
    | .systemA => { b with slotGenerationA := satSucc64 b.slotGenerationA }
    | .systemB => { b with slotGenerationB := satSucc64 b.slotGenerationB }
    | _ => b
  b.withCrc

/-- Stages are ordered by their discriminants. -/
def publishStage (stage : BootStage) : BootControlBlock :=
  if b.lastStage.toByte < stage.toByte then withCrc { b with lastBootStage := stage.toByte }
  else b

def promotePending : BootControlBlock :=
  if b.pendingSlot ≠ .none then
    { b with activeByte := b.pendingByte, pendingByte := SlotId.none.toByte }
  else b

def markBootSuccess : BootControlBlock :=
  let b := promotePending { b with bootOk := 1, attemptsRemaining := defaultBootAttempts }
  let b := { b with rollbackReason := RollbackReason.none.toByte }
  (b.publishStage .appBasketReady).withCrc

def recordPanic (stage : BootStage) : BootControlBlock :=
  withCrc { b with
    panicCount := satSucc32 b.panicCount
    bootOk := 0
    lastBootStage := stage.toByte
    rollbackReason := RollbackReason.panic.toByte }

end BootControlBlock

end EchOS.Boot
