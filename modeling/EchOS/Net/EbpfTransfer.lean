import EchOS.Net.EbpfPointers

/-! One instruction of the interpreter against one transfer of the verifier: what the
instruction leaves is described by a state the transfer sends on, and the only failures are
those the verifier does not look for. -/

namespace EchOS.Net.Ebpf

open EbpfVm VerifierRegState List Except Fallible

/-- Failures the verifier is there to exclude. -/
def Fault.unsound : Fault → Bool
  | .panic => true
  | .error e => e == .invalidOpcode || e == .memoryAccess || e == .callError

def VerifierRegState.isPointer (st : VerifierRegState) : Bool :=
  st.kind == .stackPtr || st.kind == .ctxPtr

theorem VerifierRegState.address_eq_none {ctx : BitVec 64} {st : VerifierRegState}
    (h : st.isPointer = false) : st.address ctx = none := by
  obtain ⟨kind, offset⟩ := st
  cases kind <;> simp_all [isPointer, address]

/-- A helper's four bytes lie inside the stack, or outside of it where they read as zero. -/
def bytesServed (addr : BitVec 64) : Bool :=
  bpfStackSize ≤ addr.toNat || addr.toNat + 4 ≤ bpfStackSize

/-- The helpers that read a key, or a key and a value, find them. -/
def helperServed (vm : EbpfVm) (funcId : ℤ) : Bool :=
  bytesServed (vm.registers 2) && (funcId != 2 || bytesServed (vm.registers 3))

/-- What the verifier does not check: a zero divisor in a register, a context load outside
the machine's memory, a key or value across the end of the stack. -/
def instructionServed (ctx : BitVec 64) (state : VerifierState) (vm : EbpfVm)
    (insn : DecodedInsn) : Bool :=
  match insn.cls with
  | .alu => !insn.aluOp.any (vm.dividesByZero insn)
  | .ldx => loadServed ctx state insn
  | .jmp => insn.jmpOp != some .call || helperServed vm insn.imm.toInt
  | _ => true

/-- A map lookup does not write over a pointer that the verifier believes to be spilled. -/
def lookupKeepsSpill (state : VerifierState) (insn : DecodedInsn) : Bool :=
  !(insn.cls == .jmp && insn.jmpOp == some .call && insn.imm.toInt == 1) ||
    (state.stackSpill (mapValueOffset / 8)).all fun st => !st.isPointer

def Outcome (ctx : BitVec 64) (next : List (ℕ × VerifierState)) (served : Bool) :
    Except Fault Flow → Prop
  | .ok (.next vm pc) => served = true ∧ ∃ out, (pc + 1, out) ∈ next ∧ Describes ctx out vm
  | .ok (.jump vm pc) => served = true ∧ ∃ out, (pc, out) ∈ next ∧ Describes ctx out vm
  | .ok (.ret _) => served = true
  | .error fault => served = false ∧ fault.unsound = true

variable {pc len : ℕ}

theorem orReject_eq_ok {next : Option ℕ} : orReject next = .ok pc ↔ next = some pc := by
  cases next <;> simp [orReject]

theorem fallThrough_eq_ok {next : ℕ} (h : fallThrough pc len = .ok next) :
    next = pc + 1 ∧ pc + 1 < len := by
  have hnext := orReject_eq_ok.mp h
  split_ifs at hnext with hlt
  exact ⟨(Option.some.inj hnext).symm, hlt⟩

theorem verifierSuccessors_of_ne_jmp {insn : DecodedInsn} {succ : Successors}
    (hcls : insn.cls ≠ .jmp) (h : verifierSuccessors len pc insn = .ok succ) :
    succ = (some (pc + 1), none) ∧ pc + 1 < len := by
  unfold verifierSuccessors at h
  rw [if_neg hcls] at h
  obtain ⟨next, hnext, h⟩ := bind_eq_ok.mp h
  obtain ⟨rfl, hlt⟩ := fallThrough_eq_ok hnext
  exact ⟨(ok.inj h).symm, hlt⟩

section

variable {ctx : BitVec 64} {state out : VerifierState} {vm : EbpfVm} {helpers : Helpers}
  {len pc : ℕ} {insn : DecodedInsn} {succ : Successors} {next : List (ℕ × VerifierState)}
  {op : JmpOp}

section

variable (h : Describes ctx state vm) (hdst : insn.dst ≤ 10) (hsrc : insn.src ≤ 10)
include h hdst hsrc

theorem outcome_alu {op : AluOp} (hcls : insn.cls = .alu) (hop : insn.aluOp = some op)
    (hout : verifierApplyAlu insn op state = .ok out) :
    Outcome ctx [(pc + 1, out)] (instructionServed ctx state vm insn)
      (vm.execInsn helpers pc insn) := by
  have hexec : vm.execInsn helpers pc insn =
      (vm.aluStep insn op >>= fun vm => pure (.next vm pc)) := by
    simp only [execInsn, hcls, hop]
  have hzero := zero_operand_iff hout vm
  have hserved : instructionServed ctx state vm insn = !vm.dividesByZero insn op := by
    simp [instructionServed, hcls, hop]
  rw [hexec, aluStep_eq hdst hsrc, hserved]
  by_cases hdiv : vm.dividesByZero insn op = true
  · rw [if_pos (hzero.mpr hdiv), hdiv]
    exact ⟨rfl, rfl⟩
  · rw [if_neg (mt hzero.mp hdiv), eq_false_of_ne_true hdiv]
    exact ⟨rfl, out, mem_singleton.mpr rfl, h.alu hdst hsrc hout⟩

theorem outcome_ldx (hcls : insn.cls = .ldx) (hout : verifierApplyLdx insn state = .ok out) :
    Outcome ctx [(pc + 1, out)] (instructionServed ctx state vm insn)
      (vm.execInsn helpers pc insn) := by
  simp only [execInsn, instructionServed, hcls, reg_of_le hsrc]
  obtain ⟨hserved, v, hread, hdesc⟩ | ⟨hserved, hread⟩ := h.ldx hsrc hout
  · rw [hserved]
    simp only [hread, setReg_of_le hdst, bind, Except.bind]
    exact ⟨rfl, out, mem_singleton.mpr rfl, hdesc⟩
  · rw [hserved]
    simp only [hread, bind, Except.bind]
    exact ⟨rfl, rfl⟩

theorem outcome_stx (hcls : insn.cls = .stx) (hout : verifierApplyStx insn state = .ok out) :
    Outcome ctx [(pc + 1, out)] (instructionServed ctx state vm insn)
      (vm.execInsn helpers pc insn) := by
  obtain ⟨vm', hwrite, hdesc⟩ := h.stx hdst hsrc hout
  simp only [execInsn, instructionServed, hcls, reg_of_le hsrc,
    reg_of_le hdst, hwrite, bind, Except.bind]
  exact ⟨rfl, out, mem_singleton.mpr rfl, hdesc⟩

end

theorem readStackBytes_eq (vm : EbpfVm) (addr : BitVec 64) :
    (bytesServed addr = true ∧ ∃ bytes, vm.readStackBytes addr 4 = .ok bytes) ∨
    (bytesServed addr = false ∧ vm.readStackBytes addr 4 = .error (.error .memoryAccess)) := by
  simp only [bytesServed, readStackBytes]
  split_ifs with hin hout
  · right
    simp
    omega
  · left
    exact ⟨by simp; omega, _, rfl⟩
  · left
    exact ⟨by simp; omega, _, rfl⟩

theorem spilled_storeMapValue (value : List (BitVec 8)) {slot : ℕ}
    (h : slot ≠ mapValueOffset / 8) : (vm.storeMapValue value).spilled slot = vm.spilled slot := by
  refine congrArg (BitVec.ofNat 64) (ByteStore.readLe_congr fun k hk hlt => ?_)
  refine if_neg fun hin => h ?_
  simp only [mapValueOffset, bpfStackSize] at hin ⊢
  omega

/-- A map helper answers if it finds its key and value; it changes no register, and only a
lookup writes, to the eight bytes of one slot. -/
theorem builtinCall_cases (vm : EbpfVm) (helpers : Helpers) {funcId : ℤ}
    (hid : verifierIsSupportedHelper funcId = true) :
    (helperServed vm funcId = true ∧ ∃ vm' result,
      vm.builtinCall helpers funcId = .ok (vm', result) ∧ vm'.registers = vm.registers ∧
      ∀ slot, (funcId = 1 → slot ≠ mapValueOffset / 8) →
        vm'.spilled slot = vm.spilled slot) ∨
    (helperServed vm funcId = false ∧
      vm.builtinCall helpers funcId = .error (.error .memoryAccess)) := by
  have hid : funcId = 1 ∨ funcId = 2 ∨ funcId = 3 := by
    simp only [verifierIsSupportedHelper, Bool.and_eq_true, decide_eq_true_eq] at hid
    omega
  obtain ⟨hk, key, hkey⟩ | ⟨hk, hkey⟩ := readStackBytes_eq vm (vm.registers 2)
  · rcases hid with rfl | rfl | rfl
    · left
      refine ⟨by simp [helperServed, hk], ?_⟩
      cases hlookup : helpers.mapLookupElem vm.insnCount ((vm.registers 1).setWidth 32) key with
      | none =>
        refine ⟨vm, 0, ?_, rfl, fun _ _ => rfl⟩
        simp [builtinCall, hkey, hlookup, bind, Except.bind, pure, Except.pure]
      | some value =>
        refine ⟨vm.storeMapValue value, mapValueOffset, ?_, rfl, fun slot hslot =>
          spilled_storeMapValue value (hslot rfl)⟩
        simp [builtinCall, hkey, hlookup, bind, Except.bind, pure, Except.pure]
    · obtain ⟨hv, value, hvalue⟩ | ⟨hv, hvalue⟩ := readStackBytes_eq vm (vm.registers 3)
      · left
        refine ⟨by simp [helperServed, hk, hv], vm,
          if helpers.mapUpdateElem vm.insnCount ((vm.registers 1).setWidth 32) key value
            (vm.registers 4) then 0 else BitVec.allOnes 64, ?_, rfl, fun _ _ => rfl⟩
        simp [builtinCall, hkey, hvalue, bind, Except.bind, pure, Except.pure,
          apply_ite]
      · right
        refine ⟨by simp [helperServed, hv], ?_⟩
        simp [builtinCall, hkey, hvalue, bind, Except.bind]
    · left
      refine ⟨by simp [helperServed, hk], vm,
        if helpers.mapDeleteElem vm.insnCount ((vm.registers 1).setWidth 32) key then 0
          else BitVec.allOnes 64, ?_, rfl, fun _ _ => rfl⟩
      simp [builtinCall, hkey, bind, Except.bind, pure, Except.pure, apply_ite]
  · right
    refine ⟨by simp [helperServed, hk], ?_⟩
    rcases hid with rfl | rfl | rfl <;> simp [builtinCall, hkey, bind, Except.bind]

theorem Describes.afterCall (h : Describes ctx state vm) {vm' : EbpfVm}
    (hregs : vm'.registers = vm.registers)
    (hspills : ∀ slot st, state.stackSpill slot = some st → st.isPointer = true →
      vm'.spilled slot = vm.spilled slot) (result : BitVec 64) :
    Describes ctx state.afterCall
      { vm' with registers := fun k => if k = 0 then result else vm'.registers k } where
  frame := h.frame
  regs r hr := by
    simp only [VerifierState.afterCall]
    split_ifs with h0 h5
    · exact allows_scalar _ _
    · exact allows_uninit _ _
    · rw [hregs]
      exact h.regs r hr
  spills slot hlt st hst := by
    cases hp : st.isPointer with
    | false =>
      exact allows_of_address_eq_none
        (address_eq_none hp) _
    | true =>
      have hvalue := h.spills slot hlt st hst
      rwa [← hspills slot st hst hp] at hvalue

theorem outcome_call (h : Describes ctx state vm) (hcls : insn.cls = .jmp)
    (hop : insn.jmpOp = some .call) (hid : verifierIsSupportedHelper insn.imm.toInt = true)
    (hkeep : lookupKeepsSpill state insn = true) :
    Outcome ctx [(pc + 1, state.afterCall)] (instructionServed ctx state vm insn)
      (vm.execInsn helpers pc insn) := by
  have hserved : instructionServed ctx state vm insn = helperServed vm insn.imm.toInt := by
    simp [instructionServed, hcls, hop]
  simp only [execInsn, jmpStep, hcls, hop, hserved]
  obtain ⟨hs, vm', result, hcall, hregs, hspills⟩ | ⟨hs, hcall⟩ :=
    builtinCall_cases vm helpers hid
  · rw [hs, hcall]
    refine ⟨rfl, state.afterCall, mem_singleton.mpr rfl, h.afterCall hregs ?_ result⟩
    intro slot st hst hp
    refine hspills slot fun hlookup hslot => ?_
    subst hslot
    simp [lookupKeepsSpill, hcls, hop, hlookup, hst, hp] at hkeep
  · rw [hs, hcall]
    exact ⟨rfl, rfl⟩

def JmpOp.conditional (op : JmpOp) : Bool :=
  op != .ja && op != .call && op != .exit

theorem verifierSuccessors_of_jmp (hcls : insn.cls = .jmp)
    (hop : insn.jmpOp = some op) (h : verifierSuccessors len pc insn = .ok succ) :
    (op = .exit → succ = (none, none)) ∧
    (op = .call → succ = (some (pc + 1), none) ∧ pc + 1 < len) ∧
    (op = .ja → ∃ target, checkedJumpTarget pc insn.off len = some target ∧
      succ = (some target, none)) ∧
    (op.conditional = true → ∃ target, checkedJumpTarget pc insn.off len = some target ∧
      succ = (some (pc + 1), some target) ∧ pc + 1 < len) := by
  unfold verifierSuccessors at h
  rw [if_pos hcls, hop] at h
  cases op
  case exit =>
    cases h
    simp [JmpOp.conditional]
  case call =>
    obtain ⟨next, hnext, h⟩ := bind_eq_ok.mp h
    obtain ⟨rfl, hlt⟩ := fallThrough_eq_ok hnext
    cases h
    simp [JmpOp.conditional, hlt]
  case ja =>
    obtain ⟨target, htarget, h⟩ := bind_eq_ok.mp h
    cases h
    have htarget := orReject_eq_ok.mp htarget
    simp [JmpOp.conditional, htarget]
  all_goals
    obtain ⟨target, htarget, h⟩ := bind_eq_ok.mp h
    obtain ⟨next, hnext, h⟩ := bind_eq_ok.mp h
    obtain ⟨rfl, hlt⟩ := fallThrough_eq_ok hnext
    cases h
    have htarget := orReject_eq_ok.mp htarget
    simp [JmpOp.conditional, htarget, hlt]

theorem jmpStep_conditional (hop : op.conditional = true) (hdst : insn.dst ≤ 10)
    (hsrc : insn.src ≤ 10) :
    vm.jmpStep helpers pc insn op =
      if compares op (vm.registers insn.dst) (vm.operandValue insn) then
        vm.jumpTo pc insn.off
      else .ok (.next vm pc) := by
  cases op
  case ja => cases hop
  case call => cases hop
  case exit => cases hop
  all_goals
    simp only [jmpStep, operand_of_le hsrc, reg_of_le hdst, bind,
      Except.bind, pure, Except.pure]

theorem verifierTransferJump_flows (hcall : op ≠ .call) (hexit : op ≠ .exit)
    (hnext : verifierTransferJump insn op state succ = .ok next) :
    next = (succ.1.toList ++ succ.2.toList).map fun pc => (pc, state) := by
  have hends : ∀ {b : Bool} {flows : List (ℕ × VerifierState)},
      (rejectUnless b >>= fun _ => pure flows) = .ok next → next = flows :=
    fun h => (ok.inj (rejectUnless_bind.mp h).2).symm
  cases op
  case call => exact absurd rfl hcall
  case exit => exact absurd rfl hexit
  case ja => exact (ok.inj hnext).symm
  all_goals
    obtain ⟨-, hnext⟩ := rejectUnless_bind.mp hnext
    split_ifs at hnext with husrc
    · exact hends hnext
    · exact (ok.inj hnext).symm

/-- The ways the analysis passes an instruction of a program of `len` instructions, with the
successors of the instruction and the states sent on to them. -/
inductive Transfers (len pc : ℕ) (insn : DecodedInsn) (state : VerifierState) :
    Successors → List (ℕ × VerifierState) → Prop
  | alu {op : AluOp} {out : VerifierState} (hcls : insn.cls = .alu) (hop : insn.aluOp = some op)
      (hout : verifierApplyAlu insn op state = .ok out) (hlt : pc + 1 < len) :
      Transfers len pc insn state (some (pc + 1), none) [(pc + 1, out)]
  | ldx {out : VerifierState} (hcls : insn.cls = .ldx)
      (hout : verifierApplyLdx insn state = .ok out) (hlt : pc + 1 < len) :
      Transfers len pc insn state (some (pc + 1), none) [(pc + 1, out)]
  | stx {out : VerifierState} (hcls : insn.cls = .stx)
      (hout : verifierApplyStx insn state = .ok out) (hlt : pc + 1 < len) :
      Transfers len pc insn state (some (pc + 1), none) [(pc + 1, out)]
  | call (hcls : insn.cls = .jmp) (hop : insn.jmpOp = some .call)
      (hid : verifierIsSupportedHelper insn.imm.toInt = true) (hlt : pc + 1 < len) :
      Transfers len pc insn state (some (pc + 1), none) [(pc + 1, state.afterCall)]
  | exit (hcls : insn.cls = .jmp) (hop : insn.jmpOp = some .exit) :
      Transfers len pc insn state (none, none) []
  | ja {target : ℕ} (hcls : insn.cls = .jmp) (hop : insn.jmpOp = some .ja)
      (htarget : checkedJumpTarget pc insn.off len = some target) :
      Transfers len pc insn state (some target, none) [(target, state)]
  | branch {op : JmpOp} {target : ℕ} (hcls : insn.cls = .jmp) (hop : insn.jmpOp = some op)
      (hcond : op.conditional = true) (htarget : checkedJumpTarget pc insn.off len = some target)
      (hlt : pc + 1 < len) :
      Transfers len pc insn state (some (pc + 1), some target) [(pc + 1, state), (target, state)]

theorem transfers_of_ok (hsucc : verifierSuccessors len pc insn = .ok succ)
    (hnext : verifierTransferInstruction insn state succ = .ok next) :
    Transfers len pc insn state succ next := by
  unfold verifierTransferInstruction at hnext
  by_cases hcls : insn.cls = .jmp
  · rw [hcls] at hnext
    cases hop : insn.jmpOp with
    | none => simp [hop] at hnext
    | some op =>
      simp only [hop] at hnext
      obtain ⟨hexit, hcall, hja, hbranch⟩ := verifierSuccessors_of_jmp hcls hop hsucc
      by_cases hc : op = .call
      · subst hc
        obtain ⟨rfl, hlt⟩ := hcall rfl
        simp only [verifierTransferJump] at hnext
        split_ifs at hnext with hid
        obtain ⟨-, -, hnext⟩ := bind_eq_ok.mp hnext
        cases hnext
        exact .call hcls hop hid hlt
      by_cases he : op = .exit
      · subst he
        obtain rfl := hexit rfl
        obtain ⟨-, hnext⟩ := rejectUnless_bind.mp hnext
        cases hnext
        exact .exit hcls hop
      obtain rfl := verifierTransferJump_flows hc he hnext
      by_cases hj : op = .ja
      · subst hj
        obtain ⟨target, htarget, rfl⟩ := hja rfl
        exact .ja hcls hop htarget
      have hcond : op.conditional = true := by simp [JmpOp.conditional, hc, he, hj]
      obtain ⟨target, htarget, rfl, hlt⟩ := hbranch hcond
      exact .branch hcls hop hcond htarget hlt
  · obtain ⟨rfl, hlt⟩ := verifierSuccessors_of_ne_jmp hcls hsucc
    cases hclass : insn.cls <;> simp only [hclass] at hnext
    case alu =>
      cases hop : insn.aluOp with
      | none => simp [hop] at hnext
      | some op =>
        rw [hop] at hnext
        obtain ⟨out, hout, hnext⟩ := bind_eq_ok.mp hnext
        cases hnext
        exact .alu hclass hop hout hlt
    case ldx =>
      obtain ⟨out, hout, hnext⟩ := bind_eq_ok.mp hnext
      cases hnext
      exact .ldx hclass hout hlt
    case stx =>
      obtain ⟨out, hout, hnext⟩ := bind_eq_ok.mp hnext
      cases hnext
      exact .stx hclass hout hlt
    case jmp => exact absurd hclass hcls
    all_goals exact nomatch hnext

theorem execInsn_outcome (helpers : Helpers) (h : Describes ctx state vm)
    (hcheck : verifierCheckInsn insn = .ok ())
    (hsucc : verifierSuccessors vm.program.length pc insn = .ok succ)
    (hkeep : lookupKeepsSpill state insn = true)
    (hnext : verifierTransferInstruction insn state succ = .ok next) :
    Outcome ctx next (instructionServed ctx state vm insn) (vm.execInsn helpers pc insn) := by
  obtain ⟨hdst, hsrc⟩ := registers_le_of_check hcheck
  cases transfers_of_ok hsucc hnext with
  | alu hcls hop hout _ => exact outcome_alu h hdst hsrc hcls hop hout
  | ldx hcls hout _ => exact outcome_ldx h hdst hsrc hcls hout
  | stx hcls hout _ => exact outcome_stx h hdst hsrc hcls hout
  | call hcls hop hid _ => exact outcome_call h hcls hop hid hkeep
  | exit hcls hop =>
    simp only [execInsn, jmpStep, hcls, hop]
    simp [Outcome, instructionServed, hcls, hop]
  | ja hcls hop htarget =>
    simp only [execInsn, jmpStep, jumpTo, hcls, hop, htarget]
    exact ⟨by simp [instructionServed, hcls, hop], state, by simp, h⟩
  | @branch op _ hcls hop hcond htarget _ =>
    have hcall : op ≠ .call := by
      rintro rfl
      cases hcond
    have hserved : instructionServed ctx state vm insn = true := by
      simp [instructionServed, hcls, hop, hcall]
    simp only [execInsn, hcls, hop, jmpStep_conditional hcond hdst hsrc]
    split_ifs
    · simp only [jumpTo, htarget]
      exact ⟨hserved, state, by simp, h⟩
    · exact ⟨hserved, state, by simp, h⟩

end

end EchOS.Net.Ebpf
