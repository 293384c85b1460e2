import EchOS.Ebpf.Vm

/-! The program verifier of `ebpf.rs`: one walk over the program that steps over the second
slots of two-slot loads. -/

namespace EchOS.Ebpf

namespace BpfInsn

def isJump (insn : BpfInsn) : Bool :=
  (insn.cls == .jmp || insn.cls == .jmp32) && insn.jmpOp != some .exit && insn.jmpOp != some .call

def width (insn : BpfInsn) : ℕ := if insn.isLddw then 2 else 1

end BpfInsn

namespace BpfVerifier

def target (i : ℕ) (insn : BpfInsn) : ℤ := i + 1 + insn.off.toInt

def checkJump (progLen i : ℕ) (insn : BpfInsn) : Except BpfError Unit :=
  if !insn.isJump then .ok ()
  else if target i insn < 0 ∨ (progLen : ℤ) ≤ target i insn then
    .error (.verificationFailed
      s!"Dallanma hedefi sınır dışı: PC={i}, target={target i insn}")
  else if insn.jmpOp ≠ some .ja ∧ insn.off.toInt < 0 then
    .error (.verificationFailed
      s!"Geriye dallanma tespit edildi: PC={i}, off={insn.off.toInt}")
  else .ok ()

def checkInsn (progLen i : ℕ) (insn : BpfInsn) : Except BpfError Unit := do
  if bpfRegCount ≤ insn.dstReg then .error (.invalidRegister insn.dstReg)
  else if insn.usesSrc ∧ bpfRegCount ≤ insn.srcReg then .error (.invalidRegister insn.srcReg)
  else if (insn.cls = .alu ∨ insn.cls = .alu64) ∧ insn.dstReg = bpfRegFp then
    .error .readOnlyRegister
  else
    checkJump progLen i insn
    if insn.isLddw ∧ progLen ≤ i + 1 then
      .error (.verificationFailed s!"LDDW eksik ikinci talimat: PC={i}")
    else .ok ()

def walk (program : List BpfInsn) : ℕ → ℕ → Except BpfError Unit
  | 0, _ => .ok ()
  | rounds + 1, i =>
    match program[i]? with
    | none => .ok ()
    | some insn => do
      checkInsn program.length i insn
      walk program rounds (i + insn.width)

def verify (program : List BpfInsn) : Except BpfError Unit :=
  match program.getLast? with
  | none => .error (.verificationFailed "Program boş")
  | some last =>
    if bpfMaxInsns < program.length then .error (.programTooLarge program.length)
    else if last.cls ≠ .jmp ∨ last.jmpOp ≠ some .exit then
      .error (.verificationFailed "Son talimat EXIT değil")
    else walk program program.length 0

def visitsFrom (program : List BpfInsn) : ℕ → ℕ → List ℕ
  | 0, _ => []
  | rounds + 1, i =>
    match program[i]? with
    | none => []
    | some insn => i :: visitsFrom program rounds (i + insn.width)

def visits (program : List BpfInsn) : List ℕ := visitsFrom program program.length 0

end BpfVerifier

end EchOS.Ebpf
