import EchOS.Net.EbpfSound

/-! Two machines with one program side by side. They may differ in the stack bytes that the
verifier does not call initialised and in the instruction count, and as long as the stack
pointers are where the verifier believes them they do the same. -/

namespace EchOS.Net.Ebpf

open EbpfVm List

variable {state out : VerifierState} {insn : DecodedInsn} {start size : ℕ}

theorem verifierApplyAlu_stackInit {op : AluOp}
    (h : verifierApplyAlu insn op state = .ok out) : out.stackInit = state.stackInit := by
  obtain ⟨-, ⟨-, -, rfl⟩ | ⟨-, rfl⟩ | ⟨-, hmove⟩⟩ := verifierApplyAlu_cases h
  · rfl
  · rfl
  · obtain ⟨-, delta, -, rfl⟩ := verifierMoveStackPtr_cases hmove
    rfl

theorem verifierApplyLdx_stackInit
    (h : verifierApplyLdx insn state = .ok out) : out.stackInit = state.stackInit := by
  obtain ⟨size, -, -, ⟨-, start, -, rfl⟩ | ⟨-, rfl⟩⟩ := verifierApplyLdx_cases h
  · rfl
  · rfl

theorem verifierApplyLdx_initialized (h : verifierApplyLdx insn state = .ok out)
    (hsize : accessSizeBytes insn.size = some size) (hkind : (state.regs insn.src).kind = .stackPtr)
    (hstart : verifierStackAccessStart (state.regs insn.src).stackOffset insn.off size =
      some start) {k : ℕ} (hk : start ≤ k) (hlt : k < start + size) : state.stackInit k = true := by
  unfold verifierApplyLdx at h
  simp only [hsize, rejectUnless_bind, hkind, hstart] at h
  obtain ⟨-, hinit, -⟩ := h
  simp only [VerifierState.stackBytesInitialized, all_eq_true, mem_range] at hinit
  have hbyte := hinit (k - start) (by omega)
  rwa [Nat.add_sub_cancel' hk] at hbyte

theorem verifierApplyStx_stackInit (h : verifierApplyStx insn state = .ok out)
    (hsize : accessSizeBytes insn.size = some size)
    (hstart : verifierStackAccessStart (state.regs insn.dst).stackOffset insn.off size =
      some start) (k : ℕ) :
    out.stackInit k = if start ≤ k ∧ k < start + size then true else state.stackInit k := by
  obtain ⟨size', start', hsize', -, hstart', rfl⟩ := verifierApplyStx_cases h
  obtain rfl : size' = size := Option.some.inj (hsize'.symm.trans hsize)
  obtain rfl : start' = start := Option.some.inj (hstart'.symm.trans hstart)
  by_cases hspill : size' = 8 ∧ start' % 8 = 0
  · rw [if_pos hspill]
    rfl
  · rw [if_neg hspill]
    rfl

/-- Two machines at one place, of which the first has counted `n` instructions and the second
started from a count of `c`. -/
structure InStep (c n : ℕ) (state : VerifierState) (vm vm' : EbpfVm) : Prop where
  program : vm'.program = vm.program
  registers : vm'.registers = vm.registers
  stack : ∀ k < bpfStackSize, state.stackInit k = true → vm'.stack k = vm.stack k
  count : vm.insnCount = n
  count' : vm'.insnCount = (c + n) % 2 ^ 64

def FlowsInStep (c n : ℕ) (next : List (ℕ × VerifierState)) :
    Except Fault Flow → Except Fault Flow → Prop
  | .error fault, .error fault' => fault = fault'
  | .ok (.ret value), .ok (.ret value') => value = value'
  | .ok (.next vm pc), .ok (.next vm' pc') =>
    pc = pc' ∧ ∃ out, (pc + 1, out) ∈ next ∧ InStep c n out vm vm'
  | .ok (.jump vm pc), .ok (.jump vm' pc') =>
    pc = pc' ∧ ∃ out, (pc, out) ∈ next ∧ InStep c n out vm vm'
  | _, _ => False

/-- A load through the context does not reach the machine's own stack. -/
def contextApart (ctx : BitVec 64) (state : VerifierState) (insn : DecodedInsn) : Bool :=
  insn.cls != .ldx || (state.regs insn.src).kind != .ctxPtr || !loadServed ctx state insn

def DecodedInsn.isCall (insn : DecodedInsn) : Bool := insn.cls == .jmp && insn.jmpOp == some .call

namespace InStep

variable {c n : ℕ} {state out : VerifierState} {vm vm' : EbpfVm}

theorem forget (h : InStep c n state vm vm') (hforgets : Forgets state out) :
    InStep c n out vm vm' where
  program := h.program
  registers := h.registers
  stack k hk hout := h.stack k hk (hforgets.init k hk hout)
  count := h.count
  count' := h.count'

theorem setReg (h : InStep c n state vm vm') (hinit : out.stackInit = state.stackInit) (r : ℕ)
    (value : BitVec 64) :
    InStep c n out { vm with registers := fun k => if k = r then value else vm.registers k }
      { vm' with registers := fun k => if k = r then value else vm'.registers k } where
  program := h.program
  registers := by
    rw [h.registers]
  stack k hk hout := h.stack k hk (hinit ▸ hout)
  count := h.count
  count' := h.count'

theorem operandValue (h : InStep c n state vm vm') (insn : DecodedInsn) :
    vm'.operandValue insn = vm.operandValue insn := by
  unfold EbpfVm.operandValue
  rw [h.registers]

end InStep

section

variable {ctx : BitVec 64} {c n pc : ℕ} {state out : VerifierState} {vm vm' : EbpfVm}
  {helpers : Helpers} {insn : DecodedInsn} {succ : Successors} {next : List (ℕ × VerifierState)}

section

variable (h : InStep c n state vm vm') (hdst : insn.dst ≤ 10) (hsrc : insn.src ≤ 10)
include h hdst hsrc

theorem inStep_alu {op : AluOp} (hcls : insn.cls = .alu) (hop : insn.aluOp = some op)
    (hout : verifierApplyAlu insn op state = .ok out) :
    FlowsInStep c n [(pc + 1, out)] (vm.execInsn helpers pc insn)
      (vm'.execInsn helpers pc insn) := by
  have hvalue : vm'.aluValue insn op = vm.aluValue insn op := by
    unfold aluValue
    rw [h.operandValue, h.registers]
  simp only [execInsn, hcls, hop, aluStep_eq hdst hsrc, h.operandValue, hvalue]
  split_ifs
  · rfl
  · have hinit := verifierApplyAlu_stackInit hout
    exact ⟨rfl, out, mem_singleton.mpr rfl, h.setReg hinit _ _⟩

theorem inStep_ldx (hdesc : Describes ctx state vm) (hcls : insn.cls = .ldx)
    (hapart : contextApart ctx state insn = true) (hout : verifierApplyLdx insn state = .ok out) :
    FlowsInStep c n [(pc + 1, out)] (vm.execInsn helpers pc insn)
      (vm'.execInsn helpers pc insn) := by
  have hinit := verifierApplyLdx_stackInit hout
  have hread : vm'.memoryRead (vm'.registers insn.src + insn.off64) insn.size =
      vm.memoryRead (vm.registers insn.src + insn.off64) insn.size := by
    obtain ⟨size, hsize, -, ⟨hk, start, hstart, -⟩ | ⟨hk, -⟩⟩ := verifierApplyLdx_cases hout
    · -- the verifier has the address, and the bytes there are initialised
      obtain ⟨haddr, hle⟩ := toNat_stack_address (hdesc.regs insn.src (by omega)) hk hstart
      have hbytes : ByteStore.readLe vm'.stack start size =
          ByteStore.readLe vm.stack start size := by
        apply ByteStore.readLe_congr
        intro k hk' hlt
        exact h.stack k (by omega) (verifierApplyLdx_initialized hout hsize hk hstart hk' hlt)
      simp only [memoryRead, stackWindow_eq hsize, h.registers, haddr, if_pos hle, bind,
        Except.bind, hbytes]
    · have hbase := (hdesc.regs insn.src (by omega)).eq_ctx hk
      have hmiss : ¬(ctx + insn.off64).toNat + size ≤ bpfStackSize := by
        simpa [contextApart, hcls, hk, loadServed, hsize] using hapart
      simp only [memoryRead, stackWindow_eq hsize, h.registers, hbase, if_neg hmiss, bind,
        Except.bind]
  simp only [execInsn, hcls, reg_of_le hsrc, setReg_of_le hdst, bind,
    Except.bind, hread]
  cases vm.memoryRead (vm.registers insn.src + insn.off64) insn.size with
  | error fault => rfl
  | ok value => exact ⟨rfl, out, mem_singleton.mpr rfl, h.setReg hinit _ _⟩

theorem inStep_stx (hdesc : Describes ctx state vm) (hcls : insn.cls = .stx)
    (hout : verifierApplyStx insn state = .ok out) :
    FlowsInStep c n [(pc + 1, out)] (vm.execInsn helpers pc insn)
      (vm'.execInsn helpers pc insn) := by
  obtain ⟨size, start, hsize, hk, hstart, -⟩ := verifierApplyStx_cases hout
  obtain ⟨haddr, hle⟩ := toNat_stack_address (hdesc.regs insn.dst (by omega)) hk hstart
  simp only [execInsn, hcls, reg_of_le hsrc, reg_of_le hdst,
    memoryWrite, stackWindow_eq hsize, h.registers, haddr, if_pos hle, bind, Except.bind]
  refine ⟨rfl, out, mem_singleton.mpr rfl, ?_⟩
  constructor
  · exact h.program
  · rfl
  · intro k hk' hinit
    rw [verifierApplyStx_stackInit hout hsize hstart] at hinit
    show ByteStore.writeLe vm'.stack start size _ k = ByteStore.writeLe vm.stack start size _ k
    unfold ByteStore.writeLe
    split_ifs at hinit ⊢
    · rfl
    · exact h.stack k hk' hinit
  · exact h.count
  · exact h.count'

end

theorem execInsn_inStep (helpers : Helpers) (h : InStep c n state vm vm')
    (hdesc : Describes ctx state vm) (hcheck : verifierCheckInsn insn = .ok ())
    (hsucc : verifierSuccessors vm.program.length pc insn = .ok succ)
    (hcall : insn.isCall = false) (hapart : contextApart ctx state insn = true)
    (hnext : verifierTransferInstruction insn state succ = .ok next) :
    FlowsInStep c n next (vm.execInsn helpers pc insn) (vm'.execInsn helpers pc insn) := by
  obtain ⟨hdst, hsrc⟩ := registers_le_of_check hcheck
  cases transfers_of_ok hsucc hnext with
  | alu hcls hop hout _ => exact inStep_alu h hdst hsrc hcls hop hout
  | ldx hcls hout _ => exact inStep_ldx h hdst hsrc hdesc hcls hapart hout
  | stx hcls hout _ => exact inStep_stx h hdst hsrc hdesc hcls hout
  | call hcls hop _ _ => simp [DecodedInsn.isCall, hcls, hop] at hcall
  | exit hcls hop =>
    simp only [execInsn, jmpStep, hcls, hop]
    show vm.registers 0 = vm'.registers 0
    rw [h.registers]
  | ja hcls hop htarget =>
    simp only [execInsn, jmpStep, jumpTo, hcls, hop, h.program, htarget]
    exact ⟨rfl, state, by simp, h⟩
  | branch hcls hop hcond htarget _ =>
    simp only [execInsn, hcls, hop, jmpStep_conditional hcond hdst hsrc, h.operandValue,
      h.registers]
    split_ifs
    · simp only [jumpTo, h.program, htarget]
      exact ⟨rfl, state, by simp, h⟩
    · exact ⟨rfl, state, by simp, h⟩

end

end EchOS.Net.Ebpf
