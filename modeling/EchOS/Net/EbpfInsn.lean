import Mathlib.Tactic.Common
import Mathlib.Algebra.Group.Int.Defs

/-! Instruction encoding of the eBPF machine in `net/ebpf.rs`. -/

namespace EchOS.Net.Ebpf

inductive InsnClass
  | ld
  | ldx
  | st
  | stx
  | alu
  | jmp
  | ret
  | misc
  deriving DecidableEq

def InsnClass.ofOpcode (opcode : BitVec 8) : InsnClass :=
  let cls := opcode &&& 0x07
  if cls = 0x00 then .ld
  else if cls = 0x01 then .ldx
  else if cls = 0x02 then .st
  else if cls = 0x03 then .stx
  else if cls = 0x04 then .alu
  else if cls = 0x05 then .jmp
  else if cls = 0x06 then .ret
  else .misc

inductive AluOp
  | add
  | sub
  | mul
  | div
  | or
  | and
  | lsh
  | rsh
  | neg
  | mod
  | xor
  | mov
  | arsh
  deriving DecidableEq

def AluOp.ofOpcode (opcode : BitVec 8) : Option AluOp :=
  let op := opcode &&& 0xf0
  if op = 0x00 then some .add
  else if op = 0x10 then some .sub
  else if op = 0x20 then some .mul
  else if op = 0x30 then some .div
  else if op = 0x40 then some .or
  else if op = 0x50 then some .and
  else if op = 0x60 then some .lsh
  else if op = 0x70 then some .rsh
  else if op = 0x80 then some .neg
  else if op = 0x90 then some .mod
  else if op = 0xa0 then some .xor
  else if op = 0xb0 then some .mov
  else if op = 0xc0 then some .arsh
  else none

inductive JmpOp
  | ja
  | jeq
  | jgt
  | jge
  | jset
  | jne
  | jsgt
  | jsge
  | call
  | exit
  deriving DecidableEq

def JmpOp.ofOpcode (opcode : BitVec 8) : Option JmpOp :=
  let op := opcode &&& 0xf0
  if op = 0x00 then some .ja
  else if op = 0x10 then some .jeq
  else if op = 0x20 then some .jgt
  else if op = 0x30 then some .jge
  else if op = 0x40 then some .jset
  else if op = 0x50 then some .jne
  else if op = 0x60 then some .jsgt
  else if op = 0x70 then some .jsge
  else if op = 0x80 then some .call
  else if op = 0x90 then some .exit
  else none

structure DecodedInsn where
  opcode : BitVec 8
  dst : ℕ
  src : ℕ
  off : ℤ
  imm : BitVec 32
  deriving DecidableEq

namespace DecodedInsn

variable (insn : DecodedInsn)

def cls : InsnClass := .ofOpcode insn.opcode

def aluOp : Option AluOp := AluOp.ofOpcode insn.opcode

def jmpOp : Option JmpOp := JmpOp.ofOpcode insn.opcode

def usesSrcReg : Bool := insn.opcode &&& 0x08 == 0x08

def size : BitVec 8 := insn.opcode &&& 0x18

def imm64 : BitVec 64 := insn.imm.signExtend 64

def off64 : BitVec 64 := BitVec.ofInt 64 insn.off

end DecodedInsn

def decodeInstruction (insn : BitVec 64) : DecodedInsn where
  opcode := (insn >>> 56).setWidth 8
  dst := ((insn >>> 48).setWidth 8).toNat
  src := ((insn >>> 40).setWidth 8).toNat
  off := ((insn >>> 32).setWidth 16).toInt
  imm := insn.setWidth 32

def checkedJumpTarget (pc : ℕ) (off : ℤ) (programLen : ℕ) : Option ℕ :=
  let target : ℤ := pc + 1 + off
  if target < 0 ∨ programLen ≤ target then none else some target.toNat

def accessSizeBytes (size : BitVec 8) : Option ℕ :=
  if size = 0x10 then some 1
  else if size = 0x08 then some 2
  else if size = 0x00 then some 4
  else if size = 0x18 then some 8
  else none

end EchOS.Net.Ebpf
