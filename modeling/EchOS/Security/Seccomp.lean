import EchOS.Lib.ClassicBpf

/-! The system call filters of `security/seccomp.rs`. The interpreter matches the class of an
instruction against local variables; such a pattern takes every value, so that its first arm, the
one for loads, is taken for every instruction and no instruction ever returns. -/

namespace EchOS.Security.Seccomp

open ClassicBpf

def seccompModeDisabled : BitVec 32 := 0
def seccompModeStrict : BitVec 32 := 1
def seccompModeFilter : BitVec 32 := 2

def seccompRetKillProcess : BitVec 32 := 0x80000000
def seccompRetAllow : BitVec 32 := 0x7fff0000
def seccompRetAction : BitVec 32 := 0x7fff0000

/-- The system calls of the strict mode: read, write, open, close, exit, exit_group, mmap, brk and
execve. -/
def seccompStrictAllowed : List (BitVec 32) := [0, 1, 2, 3, 60, 231, 9, 12, 59]

def bpfClassLd : BitVec 16 := 0x00
def bpfClassJmp : BitVec 16 := 0x05
def bpfClassRet : BitVec 16 := 0x06
def bpfSizeW : BitVec 16 := 0x00
def bpfModeImm : BitVec 16 := 0x00
def bpfModeAbs : BitVec 16 := 0x20
def bpfSrcK : BitVec 16 := 0x00
def bpfJmpJeq : BitVec 16 := 0x10
def bpfJmpJgt : BitVec 16 := 0x20
def bpfJmpJge : BitVec 16 := 0x30

structure BpfInstruction where
  code : BitVec 16
  jt : BitVec 8
  jf : BitVec 8
  k : BitVec 32
  deriving DecidableEq

namespace BpfInstruction

def ldImm (k : BitVec 32) : BpfInstruction := ⟨bpfClassLd ||| bpfSizeW ||| bpfModeImm, 0, 0, k⟩

def ldAbs (offset : BitVec 32) : BpfInstruction :=
  ⟨bpfClassLd ||| bpfSizeW ||| bpfModeAbs, 0, 0, offset⟩

def jeq (k : BitVec 32) (jt jf : BitVec 8) : BpfInstruction :=
  ⟨bpfClassJmp ||| bpfJmpJeq ||| bpfSrcK, jt, jf, k⟩

def jgt (k : BitVec 32) (jt jf : BitVec 8) : BpfInstruction :=
  ⟨bpfClassJmp ||| bpfJmpJgt ||| bpfSrcK, jt, jf, k⟩

def jge (k : BitVec 32) (jt jf : BitVec 8) : BpfInstruction :=
  ⟨bpfClassJmp ||| bpfJmpJge ||| bpfSrcK, jt, jf, k⟩

def ret (k : BitVec 32) : BpfInstruction := ⟨bpfClassRet ||| bpfSrcK, 0, 0, k⟩

/-- The instruction that the source's constructors build. -/
def ofClassic : Instr → BpfInstruction
  | .ldImm k => ldImm k
  | .ldAbs offset => ldAbs offset
  | .jeq k jt jf => jeq k jt jf
  | .jgt k jt jf => jgt k jt jf
  | .jge k jt jf => jge k jt jf
  | .ret k => ret k

end BpfInstruction

structure SeccompData where
  nr : BitVec 32
  arch : BitVec 32
  instructionPointer : BitVec 64
  args : Fin 6 → BitVec 64

namespace SeccompData

def new (nr : BitVec 32) (args : Fin 6 → BitVec 64) : SeccompData := ⟨nr, 0xC000003E, 0, args⟩

def getField (data : SeccompData) (offset : ℕ) : BitVec 32 :=
  if offset = 0 then data.nr
  else if offset = 4 then data.arch
  else if 8 ≤ offset ∧ offset ≤ 15 then
    let idx := (offset - 8) / 8
    if h : idx < 6 then (data.args ⟨idx, h⟩ >>> (offset % 8 * 8)).setWidth 32 else 0
  else 0

end SeccompData

structure BpfProgram where
  instructions : List BpfInstruction

namespace BpfProgram

def load (data : SeccompData) (instr : BpfInstruction) (a : BitVec 32) : BitVec 32 :=
  let mode := instr.code &&& 0xe0
  if mode = bpfModeAbs then data.getField instr.k.toNat
  else if mode = bpfModeImm then instr.k
  else a

def executeFrom (program : BpfProgram) (data : SeccompData) : ℕ → ℕ → BitVec 32 → BitVec 32
  | 0, _, _ => seccompRetAllow
  | left + 1, pc, a =>
    match program.instructions[pc]? with
    | none => seccompRetAllow
    -- the arms for the other classes are never reached, those for jumps and returns among them
    | some instr => program.executeFrom data left (pc + 1) (load data instr a)

def execute (program : BpfProgram) (data : SeccompData) : BitVec 32 :=
  program.executeFrom data program.instructions.length 0 0

end BpfProgram

structure SeccompFilter where
  id : BitVec 32
  program : BpfProgram
  defaultAction : BitVec 32
  flags : BitVec 32

/-- A program that says nothing leaves the decision to the filter. -/
def SeccompFilter.evaluate (filter : SeccompFilter) (data : SeccompData) : BitVec 32 :=
  let action := filter.program.execute data &&& seccompRetAction
  if action = 0 then filter.defaultAction else action

inductive SeccompError
  | alreadySet
  | invalidFilter
  | permissionDenied
  deriving DecidableEq

structure SeccompContext where
  mode : BitVec 32
  filter : Option SeccompFilter

variable (context : SeccompContext) (program : BpfProgram)

namespace SeccompContext

def new : SeccompContext := ⟨seccompModeDisabled, none⟩

def setFilter (filter : SeccompFilter) : Except SeccompError SeccompContext :=
  if context.mode = seccompModeStrict then .error .alreadySet
  else .ok ⟨seccompModeFilter, some filter⟩

def checkSyscall (nr : BitVec 32) (args : Fin 6 → BitVec 64) : BitVec 32 :=
  if context.mode = seccompModeDisabled then seccompRetAllow
  else if context.mode = seccompModeStrict then
    if seccompStrictAllowed.contains nr then seccompRetAllow else seccompRetKillProcess
  else if context.mode = seccompModeFilter then
    match context.filter with
    | some filter => filter.evaluate (SeccompData.new nr args)
    | none => seccompRetAllow
  else seccompRetAllow

end SeccompContext

/-! ### What a filter does -/

theorem BpfProgram.executeFrom_eq (data : SeccompData) (left pc : ℕ)
    (a : BitVec 32) : program.executeFrom data left pc a = seccompRetAllow := by
  induction left generalizing pc a with
  | zero => rfl
  | succ left ih =>
    rw [executeFrom]
    split
    · rfl
    · exact ih _ _

theorem BpfProgram.execute_eq (data : SeccompData) : program.execute data = seccompRetAllow :=
  program.executeFrom_eq data _ 0 0

namespace SeccompContext

/-- The filter of a context is enforced on a system call for which classic BPF returns `k`: its
program returns `k`, and the call is let pass only if `k` says so. -/
def Enforces (k nr : BitVec 32) (args : Fin 6 → BitVec 64) : Prop :=
  (∃ filter ∈ context.filter, filter.program.execute (SeccompData.new nr args) = k) ∧
    (context.checkSyscall nr args = seccompRetAllow → k &&& seccompRetAction = seccompRetAllow)

/-- A filter all of whose paths end in a return is enforced exactly on the system calls that it
lets pass: the interpreter lets all of them pass. -/
theorem enforces_iff (context context' : SeccompContext) (id defaultAction flags : BitVec 32)
    (program : List Instr) (hends : Ends program 0)
    (hset : context.setFilter
      ⟨id, ⟨program.map BpfInstruction.ofClassic⟩, defaultAction, flags⟩ = .ok context')
    (nr : BitVec 32) (args : Fin 6 → BitVec 64) :
    ∃ k, result (fun offset => (SeccompData.new nr args).getField offset.toNat) program =
        some k ∧
      (context'.Enforces k nr args ↔ k = seccompRetAllow) := by
  obtain ⟨k, hresult⟩ :=
    hends.result_eq_some fun offset => (SeccompData.new nr args).getField offset.toNat
  refine ⟨k, hresult, ?_⟩
  unfold setFilter at hset
  split_ifs at hset with hstrict
  cases hset
  constructor
  · rintro ⟨⟨filter, -, hexecute⟩, -⟩
    rw [← hexecute, BpfProgram.execute_eq]
  · rintro rfl
    exact ⟨⟨_, rfl, BpfProgram.execute_eq _ _⟩, fun _ => rfl⟩

def noWrite : List Instr :=
  [.ldAbs 0, .jeq 1 0 1, .ret seccompRetKillProcess, .ret seccompRetAllow]

/-- Reading is let pass, as the filter says. -/
theorem noWrite_lets_read :
    ∃ k, result (fun offset => (SeccompData.new 0 fun _ => 0).getField offset.toNat)
        noWrite = some k ∧
      (SeccompContext.Enforces ⟨seccompModeFilter, some ⟨1, ⟨noWrite.map BpfInstruction.ofClassic⟩,
        seccompRetKillProcess, 0⟩⟩ k 0 (fun _ => 0) ↔ k = seccompRetAllow) :=
  enforces_iff new _ 1 seccompRetKillProcess 0 noWrite
    (.ldAbs rfl (.jeq rfl (.ret rfl) (.ret rfl))) rfl 0 fun _ => 0

/-- Writing is let pass, too. -/
theorem noWrite_lets_write :
    result (fun offset => (SeccompData.new 1 fun _ => 0).getField offset.toNat) noWrite =
        some seccompRetKillProcess ∧
      SeccompContext.checkSyscall ⟨seccompModeFilter, some ⟨1,
        ⟨noWrite.map BpfInstruction.ofClassic⟩, seccompRetKillProcess, 0⟩⟩ 1 (fun _ => 0) =
        seccompRetAllow := by
  decide

end SeccompContext

end EchOS.Security.Seccomp
