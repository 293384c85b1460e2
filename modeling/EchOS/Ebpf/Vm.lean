import Mathlib.Algebra.Group.Int.Defs
import EchOS.Lib.ByteStore
import EchOS.Lib.Loop

/-! The eBPF virtual machine of `ebpf.rs`, whose instructions have the Linux encoding. -/

namespace EchOS.Ebpf

inductive InsnClass
  | ld | ldx | st | stx | alu | jmp | jmp32 | alu64
  deriving DecidableEq

def InsnClass.ofOpcode (opcode : BitVec 8) : InsnClass :=
  let cls := opcode &&& 0x07
  if cls = 0x00 then .ld
  else if cls = 0x01 then .ldx
  else if cls = 0x02 then .st
  else if cls = 0x03 then .stx
  else if cls = 0x04 then .alu
  else if cls = 0x05 then .jmp
  else if cls = 0x06 then .jmp32
  else .alu64

inductive AluOp
  | add | sub | mul | div | or | and | lsh | rsh | neg | mod | xor | mov | arsh | swap
  deriving DecidableEq

/-- `swap` is `BPF_END`. -/
def AluOp.ofOpcode (opcode : BitVec 8) : Option AluOp :=
  let op := opcode &&& 0xf0
  if op = 0x00 then some .add
  else if op = 0x10 then some .sub
  else if op = 0x20 then some .mul
  else if op = 0x30 then some .div
  else if op = 0x40 then some .or
  else if op = 0x50 then some .and
  else if op = 0x60 then some .lsh
  else if op = 0x70 then some .rsh
  else if op = 0x80 then some .neg
  else if op = 0x90 then some .mod
  else if op = 0xa0 then some .xor
  else if op = 0xb0 then some .mov
  else if op = 0xc0 then some .arsh
  else if op = 0xd0 then some .swap
  else none

inductive JmpOp
  | ja | jeq | jgt | jge | jset | jne | jsgt | jsge | call | exit | jlt | jle | jslt | jsle
  deriving DecidableEq

def JmpOp.ofOpcode (opcode : BitVec 8) : Option JmpOp :=
  let op := opcode &&& 0xf0
  if op = 0x00 then some .ja
  else if op = 0x10 then some .jeq
  else if op = 0x20 then some .jgt
  else if op = 0x30 then some .jge
  else if op = 0x40 then some .jset
  else if op = 0x50 then some .jne
  else if op = 0x60 then some .jsgt
  else if op = 0x70 then some .jsge
  else if op = 0x80 then some .call
  else if op = 0x90 then some .exit
  else if op = 0xa0 then some .jlt
  else if op = 0xb0 then some .jle
  else if op = 0xc0 then some .jslt
  else if op = 0xd0 then some .jsle
  else none

def memSizeBytes (opcode : BitVec 8) : ℕ :=
  let size := opcode &&& 0x18
  if size = 0x10 then 1
  else if size = 0x08 then 2
  else if size = 0x00 then 4
  else 8

structure BpfInsn where
  opcode : BitVec 8
  regs : BitVec 8
  off : BitVec 16
  imm : BitVec 32
  deriving DecidableEq

namespace BpfInsn

variable (insn : BpfInsn)

def dstReg : ℕ := (insn.regs &&& 0x0f).toNat

def srcReg : ℕ := ((insn.regs >>> 4) &&& 0x0f).toNat

def cls : InsnClass := .ofOpcode insn.opcode

def aluOp : Option AluOp := AluOp.ofOpcode insn.opcode

def jmpOp : Option JmpOp := JmpOp.ofOpcode insn.opcode

def usesSrc : Bool := insn.opcode &&& 0x08 == 0x08

def memSize : ℕ := memSizeBytes insn.opcode

def imm64 : BitVec 64 := insn.imm.signExtend 64

def off64 : BitVec 64 := insn.off.signExtend 64

def isLddw : Bool := insn.cls == .ld && insn.memSize == 8

def new (opcode dst src : BitVec 8) (off : BitVec 16) (imm : BitVec 32) : BpfInsn :=
  ⟨opcode, (src <<< 4) ||| (dst &&& 0x0f), off, imm⟩

end BpfInsn

inductive BpfError
  | divisionByZero
  | invalidRegister (reg : ℕ)
  | stackOutOfBounds (offset : ℤ) (size : ℕ)
  | memoryAccessViolation (addr : BitVec 64) (size : ℕ)
  | invalidOpcode (opcode : BitVec 8)
  | exceededStepLimit
  | verificationFailed (reason : String)
  | unknownHelper (id : BitVec 32)
  | readOnlyRegister
  | unreachableInstruction (pc : ℕ)
  | programTooLarge (len : ℕ)
  | invalidProgram
  | invalidInstruction (pc : ℕ)
  | invalidJumpTarget
  deriving DecidableEq

/-- Why the machine stops without a value: it returns an error, or a register index is out of
range and it panics. -/
inductive Fault
  | error (e : BpfError)
  | panic
  deriving DecidableEq

def bpfRegCount : ℕ := 11
def bpfRegFp : ℕ := 10
def bpfStackSize : ℕ := 512
def bpfMaxInsns : ℕ := 4096
def bpfMaxSteps : ℕ := 1000000

/-- A helper may answer differently at every call: it is given the number of the step. -/
abbrev Helper := ℕ → BitVec 64 → BitVec 64 → BitVec 64 → BitVec 64 → BitVec 64 → BitVec 64

/-- Registers beyond R10 and stack bytes beyond the stack are never used. -/
structure BpfVm where
  regs : ℕ → BitVec 64
  stack : ℕ → BitVec 8
  pc : ℕ
  steps : ℕ
  running : Bool
  helpers : ℕ → Option Helper

namespace BpfVm

def new : BpfVm :=
  ⟨fun r => if r = bpfRegFp then bpfStackSize else 0, fun _ => 0, 0, 0, false, fun _ => none⟩

variable (vm : BpfVm)

def setReg (r : ℕ) (value : BitVec 64) : BpfVm :=
  { vm with regs := fun k => if k = r then value else vm.regs k }

def next : BpfVm := { vm with pc := vm.pc + 1 }

def reg (r : ℕ) : Except Fault (BitVec 64) :=
  if r < bpfRegCount then .ok (vm.regs r) else .error .panic

def checkDst (r : ℕ) : Except Fault Unit :=
  if bpfRegCount ≤ r ∨ r = bpfRegFp then .error (.error (.invalidRegister r)) else .ok ()

def checkSrc (r : ℕ) : Except Fault Unit :=
  if bpfRegCount ≤ r then .error (.error (.invalidRegister r)) else .ok ()

def aluOperand (insn : BpfInsn) : Except Fault (BitVec 64) :=
  if insn.usesSrc then do
    checkSrc insn.srcReg
    return vm.regs insn.srcReg
  else .ok insn.imm64

def swapBytes (value : BitVec 64) (n : ℕ) : BitVec 64 :=
  BitVec.ofNat 64 (((List.range n).map fun i =>
    (value.toNat / 256 ^ i % 256) * 256 ^ (n - 1 - i)).sum)

/-- Arithmetic of one width; shifts use their count modulo the width. -/
def evalAlu {w : ℕ} (op : AluOp) (d r : BitVec w) : BitVec w :=
  let shift := (r.setWidth 32).toNat % w
  match op with
  | .add => d + r
  | .sub => d - r
  | .mul => d * r
  | .div => d / r
  | .mod => d % r
  | .or => d ||| r
  | .and => d &&& r
  | .xor => d ^^^ r
  | .lsh => d <<< shift
  | .rsh => d >>> shift
  | .arsh => d.sshiftRight shift
  | .neg => -d
  | .mov | .swap => r

def execAlu64 (insn : BpfInsn) : Except Fault BpfVm := do
  checkDst insn.dstReg
  let srcVal ← vm.aluOperand insn
  let dstVal := vm.regs insn.dstReg
  match insn.aluOp with
  | none => .error (.error (.invalidOpcode insn.opcode))
  | some .swap =>
    if insn.imm = 16 then return (vm.setReg insn.dstReg (swapBytes dstVal 2)).next
    else if insn.imm = 32 then return (vm.setReg insn.dstReg (swapBytes dstVal 4)).next
    else if insn.imm = 64 then return (vm.setReg insn.dstReg (swapBytes dstVal 8)).next
    else .error (.error (.invalidOpcode insn.opcode))
  | some op =>
    if (op = .div ∨ op = .mod) ∧ srcVal = 0 then .error (.error .divisionByZero)
    else return (vm.setReg insn.dstReg (evalAlu op dstVal srcVal)).next

def execAlu32 (insn : BpfInsn) : Except Fault BpfVm := do
  checkDst insn.dstReg
  let srcVal := (← vm.aluOperand insn).setWidth 32
  let dstVal := (vm.regs insn.dstReg).setWidth 32
  match insn.aluOp with
  | none | some .swap => .error (.error (.invalidOpcode insn.opcode))
  | some op =>
    if (op = .div ∨ op = .mod) ∧ srcVal = 0 then .error (.error .divisionByZero)
    else return (vm.setReg insn.dstReg ((evalAlu op dstVal srcVal).setWidth 64)).next

/-- The jump target as the source computes it, in 64-bit arithmetic. -/
def jumpTarget (pc : ℕ) (off : BitVec 16) : ℕ := ((pc + 1 + off.toInt) % 2 ^ 64).toNat

def jumpTo (insn : BpfInsn) (progLen : ℕ) : Except Fault BpfVm :=
  let target := jumpTarget vm.pc insn.off
  if progLen ≤ target then .error (.error (.unreachableInstruction target))
  else .ok { vm with pc := target }

def compares {w : ℕ} (op : JmpOp) (d r : BitVec w) : Option Bool :=
  match op with
  | .jeq => some (d == r)
  | .jne => some (d != r)
  | .jgt => some (r.ult d)
  | .jge => some (r.ule d)
  | .jlt => some (d.ult r)
  | .jle => some (d.ule r)
  | .jsgt => some (r.slt d)
  | .jsge => some (r.sle d)
  | .jslt => some (d.slt r)
  | .jsle => some (d.sle r)
  | .jset => some (d &&& r != 0)
  | _ => none

/-- The second operand of a jump; the register file is indexed without a check. -/
def jmpOperand (insn : BpfInsn) : Except Fault (BitVec 64) :=
  if insn.usesSrc then vm.reg insn.srcReg else .ok insn.imm64

/-- A conditional jump on the low `w` bits. -/
def branch (insn : BpfInsn) (progLen w : ℕ) : Except Fault BpfVm := do
  let dstVal ← vm.reg insn.dstReg
  let srcVal ← vm.jmpOperand insn
  match insn.jmpOp.bind fun op => compares op (dstVal.setWidth w) (srcVal.setWidth w) with
  | none => .error (.error (.invalidOpcode insn.opcode))
  | some true => vm.jumpTo insn progLen
  | some false => return vm.next

/-- The helper table has 64 places. -/
def helper (id : BitVec 32) : Option Helper :=
  if id.toNat < 64 then vm.helpers id.toNat else none

def execJmp (insn : BpfInsn) (progLen : ℕ) : Except Fault BpfVm :=
  match insn.jmpOp with
  | some .exit => .ok { vm with running := false }
  | some .call =>
    match vm.helper insn.imm with
    | some func =>
      .ok (vm.setReg 0 (func vm.steps (vm.regs 1) (vm.regs 2) (vm.regs 3) (vm.regs 4)
        (vm.regs 5))).next
    | none => .error (.error (.unknownHelper insn.imm))
  | some .ja => vm.jumpTo insn progLen
  | _ => vm.branch insn progLen 64

def execJmp32 (insn : BpfInsn) (progLen : ℕ) : Except Fault BpfVm :=
  vm.branch insn progLen 32

/-- The place of an access: the address is that of the byte above it. -/
def checkStackBounds (offset : BitVec 64) (size : ℕ) : Except Fault ℕ :=
  if offset.toNat < size ∨ bpfStackSize < offset.toNat then
    .error (.error (.stackOutOfBounds offset.toInt size))
  else .ok (offset.toNat - size)

def stackRead (addr : BitVec 64) (size : ℕ) : Except Fault (BitVec 64) := do
  let idx ← checkStackBounds addr size
  return BitVec.ofNat 64 (ByteStore.readLe vm.stack idx size)

def stackWrite (addr : BitVec 64) (size : ℕ) (value : BitVec 64) : Except Fault BpfVm := do
  let idx ← checkStackBounds addr size
  return { vm with stack := ByteStore.writeLe vm.stack idx size value.toNat }

def execLdx (insn : BpfInsn) : Except Fault BpfVm := do
  checkDst insn.dstReg
  checkSrc insn.srcReg
  let value ← vm.stackRead (vm.regs insn.srcReg + insn.off64) insn.memSize
  return (vm.setReg insn.dstReg value).next

def execSt (insn : BpfInsn) : Except Fault BpfVm := do
  checkSrc insn.dstReg
  let vm ← vm.stackWrite (vm.regs insn.dstReg + insn.off64) insn.memSize insn.imm64
  return vm.next

/-- The atomic form needs a size of 8, which sets a bit that its mode has clear. -/
def execStx (insn : BpfInsn) : Except Fault BpfVm := do
  checkSrc insn.dstReg
  checkSrc insn.srcReg
  let addr := vm.regs insn.dstReg + insn.off64
  let value := vm.regs insn.srcReg
  if insn.memSize = 8 ∧ insn.opcode &&& 0xf0 = 0xc0 then
    let old ← vm.stackRead addr 8
    let vm ← vm.stackWrite addr 8 (old + value)
    return vm.next
  else
    let vm ← vm.stackWrite addr insn.memSize value
    return vm.next

def execLd (insn : BpfInsn) (program : List BpfInsn) : Except Fault BpfVm := do
  checkDst insn.dstReg
  if insn.memSize = 8 then
    match program[vm.pc + 1]? with
    | none => .error (.error (.unreachableInstruction (vm.pc + 1)))
    | some nextInsn =>
      let value := insn.imm.setWidth 64 ||| (nextInsn.imm.setWidth 64 <<< 32)
      let vm := vm.setReg insn.dstReg value
      return { vm with pc := vm.pc + 2 }
  else .error (.error (.invalidOpcode insn.opcode))

def execInsn (program : List BpfInsn) (insn : BpfInsn) : Except Fault BpfVm :=
  match insn.cls with
  | .alu64 => vm.execAlu64 insn
  | .alu => vm.execAlu32 insn
  | .jmp => vm.execJmp insn program.length
  | .jmp32 => vm.execJmp32 insn program.length
  | .ldx => vm.execLdx insn
  | .st => vm.execSt insn
  | .stx => vm.execStx insn
  | .ld => vm.execLd insn program

/-- One round of the loop: the result and the machine it is left with, or the next round. -/
def round (program : List BpfInsn) (vm : BpfVm) :
    Option (BpfVm ⊕ (Except Fault (BitVec 64) × BpfVm)) :=
  if !vm.running then some (.inr (.ok (vm.regs 0), vm))
  else
    match program[vm.pc]? with
    | none => some (.inr (.error (.error (.unreachableInstruction vm.pc)), vm))
    | some insn =>
      if bpfMaxSteps ≤ vm.steps then some (.inr (.error (.error .exceededStepLimit), vm))
      else
        let vm := { vm with steps := vm.steps + 1 }
        match vm.execInsn program insn with
        | .ok vm => some (.inl vm)
        | .error fault => some (.inr (.error fault, vm))

/-- Registers cleared but for the frame pointer and the context. The stack stays. -/
def enter (ctx : BitVec 64) : BpfVm :=
  { vm with
    regs := fun r => if r = 1 then ctx else if r = bpfRegFp then bpfStackSize else 0
    pc := 0
    steps := 0
    running := true }

def execute (program : List BpfInsn) (ctx : BitVec 64) :
    Option (Except Fault (BitVec 64) × BpfVm) :=
  Loop.run (round program) (bpfMaxSteps + 1) (vm.enter ctx)

end BpfVm

end EchOS.Ebpf
