import EchOS.Lib.ByteStore
import EchOS.Net.EbpfInsn

/-! The eBPF virtual machine of `net/ebpf.rs` and its interpreter, one instruction at a
time. -/

namespace EchOS.Net.Ebpf

inductive EbpfError
  | invalidOpcode
  | invalidRegister
  | memoryAccess
  | segmentationFault
  | stackOverflow
  | infiniteLoop
  | callError
  | jitError
  | invalidElf
  | verifierRejected
  deriving DecidableEq

inductive Fault
  | error (e : EbpfError)
  | panic
  deriving DecidableEq

def bpfStackSize : ℕ := 512

/-- What the kernel answers to helper calls; the first argument is the number of the
instruction that calls, so that every call may be answered differently. -/
structure Helpers where
  mapLookupElem : ℕ → BitVec 32 → List (BitVec 8) → Option (List (BitVec 8))
  mapUpdateElem : ℕ → BitVec 32 → List (BitVec 8) → List (BitVec 8) → BitVec 64 → Bool
  mapDeleteElem : ℕ → BitVec 32 → List (BitVec 8) → Bool
  ticks : ℕ → BitVec 64
  random : ℕ → BitVec 32
  cpuId : ℕ → BitVec 64

def Helpers.noMaps : Helpers :=
  ⟨fun _ _ _ => none, fun _ _ _ _ _ => false, fun _ _ _ => false, fun _ => 0, fun _ => 0,
    fun _ => 0⟩

structure EbpfVm where
  registers : ℕ → BitVec 64
  stack : ℕ → BitVec 8
  program : List (BitVec 64)
  insnCount : ℕ

variable (vm : EbpfVm)

namespace EbpfVm

def new (program : List (BitVec 64)) : EbpfVm := ⟨fun _ => 0, fun _ => 0, program, 0⟩

/-- What `execute` does before it interprets: registers cleared, R10 at the top of the
stack, the context in R1. -/
def enter (ctx : BitVec 64) : EbpfVm :=
  { vm with registers := fun r => if r = 10 then bpfStackSize else if r = 1 then ctx else 0 }

def reg (r : ℕ) : Except Fault (BitVec 64) :=
  if r < 11 then .ok (vm.registers r) else .error .panic

def setReg (r : ℕ) (v : BitVec 64) : Except Fault EbpfVm :=
  if r < 11 then .ok { vm with registers := fun k => if k = r then v else vm.registers k }
  else .error .panic

def operand (insn : DecodedInsn) : Except Fault (BitVec 64) :=
  if insn.usesSrcReg then vm.reg insn.src else .ok insn.imm64

def stackWindow (addr : BitVec 64) (size : BitVec 8) : Except Fault (ℕ × ℕ) :=
  if addr.toNat < bpfStackSize then
    match accessSizeBytes size with
    | none => .error (.error .memoryAccess)
    | some accessSize =>
      if bpfStackSize < addr.toNat + accessSize then .error (.error .memoryAccess)
      else .ok (addr.toNat, accessSize)
  else .error (.error .memoryAccess)

def memoryRead (addr : BitVec 64) (size : BitVec 8) : Except Fault (BitVec 64) := do
  let (offset, accessSize) ← stackWindow addr size
  return BitVec.ofNat 64 (ByteStore.readLe vm.stack offset accessSize)

def memoryWrite (addr value : BitVec 64) (size : BitVec 8) : Except Fault EbpfVm := do
  let (offset, accessSize) ← stackWindow addr size
  return { vm with stack := ByteStore.writeLe vm.stack offset accessSize value.toNat }

def readStackBytes (addr : BitVec 64) (count : ℕ) : Except Fault (List (BitVec 8)) :=
  if addr.toNat < bpfStackSize then
    if bpfStackSize < addr.toNat + count then .error (.error .memoryAccess)
    else .ok ((List.range count).map fun i => vm.stack (addr.toNat + i))
  else .ok (List.replicate count 0)

/-- Where a looked-up value is put: 64 bytes below the top of the stack. -/
def mapValueOffset : ℕ := bpfStackSize - 64

/-- The first eight bytes of a looked-up value go to the stack. -/
def storeMapValue (value : List (BitVec 8)) : EbpfVm :=
  { vm with
    stack := fun a =>
      if mapValueOffset ≤ a ∧ a < mapValueOffset + min 8 value.length then
        value.getD (a - mapValueOffset) 0
      else vm.stack a }

def builtinCall (helpers : Helpers) (funcId : ℤ) : Except Fault (EbpfVm × BitVec 64) :=
  let mapId := (vm.registers 1).setWidth 32
  if funcId = 1 then do
    let key ← vm.readStackBytes (vm.registers 2) 4
    match helpers.mapLookupElem vm.insnCount mapId key with
    | some value => return (vm.storeMapValue value, mapValueOffset)
    | none => return (vm, 0)
  else if funcId = 2 then do
    let key ← vm.readStackBytes (vm.registers 2) 4
    let value ← vm.readStackBytes (vm.registers 3) 4
    if helpers.mapUpdateElem vm.insnCount mapId key value (vm.registers 4) then return (vm, 0)
    else return (vm, BitVec.allOnes 64)
  else if funcId = 3 then do
    let key ← vm.readStackBytes (vm.registers 2) 4
    if helpers.mapDeleteElem vm.insnCount mapId key then return (vm, 0)
    else return (vm, BitVec.allOnes 64)
  else if funcId = 4 then return (vm, 0)
  else if funcId = 5 then return (vm, helpers.ticks vm.insnCount * 1000000)
  else if funcId = 6 then return (vm, 0)
  else if funcId = 7 then return (vm, (helpers.random vm.insnCount).setWidth 64)
  else if funcId = 12 then return (vm, BitVec.allOnes 64)
  else if funcId = 14 then return (vm, helpers.cpuId vm.insnCount <<< 32)
  else if funcId = 16 then return (vm, 0)
  else .error (.error .callError)

/-- Arithmetic of the operations that need no check; shifts use the low bits of their
count. -/
def evalAlu (op : AluOp) (d r : BitVec 64) : BitVec 64 :=
  let shift := (r.setWidth 32).toNat % 64
  match op with
  | .add => d + r
  | .sub => d - r
  | .mul => d * r
  | .div => d / r
  | .or => d ||| r
  | .and => d &&& r
  | .lsh => d <<< shift
  | .rsh => d >>> shift
  | .neg => -d
  | .mod => d % r
  | .xor => d ^^^ r
  | .mov => r
  | .arsh => d.sshiftRight shift

def aluStep (insn : DecodedInsn) (op : AluOp) : Except Fault EbpfVm :=
  match op with
  | .neg => do
    let d ← vm.reg insn.dst
    vm.setReg insn.dst (-d)
  | .mov => do
    let r ← vm.operand insn
    vm.setReg insn.dst r
  | .div | .mod => do
    let divisor ← vm.operand insn
    if divisor = 0 then .error (.error .callError)
    else
      let d ← vm.reg insn.dst
      vm.setReg insn.dst (evalAlu op d divisor)
  | _ => do
    let r ← vm.operand insn
    let d ← vm.reg insn.dst
    vm.setReg insn.dst (evalAlu op d r)

def compares (op : JmpOp) (d r : BitVec 64) : Bool :=
  match op with
  | .jeq => d == r
  | .jgt => r.ult d
  | .jge => r.ule d
  | .jset => d &&& r != 0
  | .jne => d != r
  | .jsgt => r.slt d
  | .jsge => r.sle d
  | _ => true

inductive Flow
  | next (vm : EbpfVm) (pc : ℕ)
  | jump (vm : EbpfVm) (pc : ℕ)
  | ret (value : BitVec 64)

def jumpTo (pc : ℕ) (off : ℤ) : Except Fault Flow :=
  match checkedJumpTarget pc off vm.program.length with
  | some target => .ok (.jump vm target)
  | none => .error (.error .invalidOpcode)

def jmpStep (helpers : Helpers) (pc : ℕ) (insn : DecodedInsn) (op : JmpOp) : Except Fault Flow :=
  match op with
  | .ja => vm.jumpTo pc insn.off
  | .call => do
    let (vm, result) ← vm.builtinCall helpers insn.imm.toInt
    let vm ← vm.setReg 0 result
    return .next vm pc
  | .exit => .ok (.ret (vm.registers 0))
  | _ => do
    let r ← vm.operand insn
    let d ← vm.reg insn.dst
    if compares op d r then vm.jumpTo pc insn.off else return .next vm pc

/-- A pseudo-instruction that loads a map number into R0; it takes two places. -/
def ldStep (insn : DecodedInsn) : EbpfVm :=
  if insn.opcode = 0x18 ∧ insn.dst = 1 ∧ insn.imm ≠ 0 then
    { vm with registers := fun k => if k = 0 then insn.imm.setWidth 64 else vm.registers k }
  else vm

def execInsn (helpers : Helpers) (pc : ℕ) (insn : DecodedInsn) : Except Fault Flow :=
  match insn.cls with
  | .ld => .ok (.next (vm.ldStep insn) (pc + 1))
  | .alu =>
    match insn.aluOp with
    | some op => do
      let vm ← vm.aluStep insn op
      return .next vm pc
    | none => .error (.error .invalidOpcode)
  | .ldx => do
    let base ← vm.reg insn.src
    let value ← vm.memoryRead (base + insn.off64) insn.size
    let vm ← vm.setReg insn.dst value
    return .next vm pc
  | .stx => do
    let base ← vm.reg insn.dst
    let value ← vm.reg insn.src
    let vm ← vm.memoryWrite (base + insn.off64) value insn.size
    return .next vm pc
  | .jmp =>
    match insn.jmpOp with
    | some op => vm.jmpStep helpers pc insn op
    | none => .error (.error .invalidOpcode)
  | _ => .error (.error .invalidOpcode)

end EbpfVm

/-- The interpreter's loop: about to execute the instruction at `pc`, or finished. -/
inductive Machine
  | running (vm : EbpfVm) (pc : ℕ)
  | halted (result : Except Fault (BitVec 64))

namespace Machine

def instructionLimit : ℕ := 1000000

def resume (pc : ℕ) : Machine :=
  if pc < vm.program.length then .running vm pc else .halted (.ok (vm.registers 0))

/-- Go on after an instruction; only one that falls through meets the count check. -/
def follow : Except Fault EbpfVm.Flow → Machine
  | .error fault => .halted (.error fault)
  | .ok (.ret value) => .halted (.ok value)
  | .ok (.jump vm pc) => resume vm pc
  | .ok (.next vm pc) =>
    if instructionLimit < vm.insnCount then .halted (.error (.error .infiniteLoop))
    else resume vm (pc + 1)

def step (helpers : Helpers) : Machine → Machine
  | .halted result => .halted result
  | .running vm pc =>
    let vm := { vm with insnCount := (vm.insnCount + 1) % 2 ^ 64 }
    follow (vm.execInsn helpers pc (decodeInstruction (vm.program.getD pc 0)))

def after (helpers : Helpers) (m : Machine) : ℕ → Machine
  | 0 => m
  | n + 1 => step helpers (after helpers m n)

def isHalted : Machine → Bool
  | .halted _ => true
  | .running _ _ => false

end Machine

end EchOS.Net.Ebpf
