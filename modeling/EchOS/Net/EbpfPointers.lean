import EchOS.Net.EbpfForward

/-! What the verifier's states say about the machine: the registers and spill slots they call
stack or context pointers hold those addresses. Arithmetic, loads and stores keep that. -/

namespace EchOS.Net.Ebpf

open EbpfVm Option Except BitVec VerifierState

namespace VerifierRegState

def address (ctx : BitVec 64) (st : VerifierRegState) : Option (BitVec 64) :=
  match st.kind with
  | .stackPtr => some (BitVec.ofInt 64 (bpfStackSize + st.stackOffset))
  | .ctxPtr => some ctx
  | _ => none

/-- A value that a register state allows. -/
def Allows (ctx : BitVec 64) (st : VerifierRegState) (v : BitVec 64) : Prop :=
  ∀ a, st.address ctx = some a → v = a

variable {st : VerifierRegState} {v : BitVec 64} {ctx : BitVec 64}

theorem allows_of_address_eq_none (h : st.address ctx = none) (v : BitVec 64) :
    st.Allows ctx v := by
  intro a ha
  rw [h] at ha
  cases ha

@[simp] theorem allows_scalar (ctx v : BitVec 64) : scalar.Allows ctx v :=
  allows_of_address_eq_none rfl v

@[simp] theorem allows_uninit (ctx v : BitVec 64) : uninit.Allows ctx v :=
  allows_of_address_eq_none rfl v

theorem Allows.eq_stack (h : st.Allows ctx v) (hk : st.kind = .stackPtr) :
    v = BitVec.ofInt 64 (bpfStackSize + st.stackOffset) :=
  h _ (by simp [address, hk])

theorem Allows.eq_ctx (h : st.Allows ctx v) (hk : st.kind = .ctxPtr) : v = ctx :=
  h _ (by simp [address, hk])

theorem allows_stack (hk : st.kind = .stackPtr)
    (hv : v = BitVec.ofInt 64 (bpfStackSize + st.stackOffset)) : st.Allows ctx v := by
  intro a ha
  simp only [address, hk, some.injEq] at ha
  exact hv.trans ha

end VerifierRegState

def EbpfVm.spilled (vm : EbpfVm) (slot : ℕ) : BitVec 64 :=
  BitVec.ofNat 64 (ByteStore.readLe vm.stack (slot * 8) 8)

/-- A state of the verifier describes a machine that was entered with a context. -/
structure Describes (ctx : BitVec 64) (state : VerifierState) (vm : EbpfVm) : Prop where
  frame : state.regs 10 = .stackFp
  regs : ∀ r < 11, (state.regs r).Allows ctx (vm.registers r)
  spills : ∀ slot < bpfStackSize / 8, ∀ st, state.stackSpill slot = some st →
    st.Allows ctx (vm.spilled slot)

theorem describes_entry (vm : EbpfVm) (ctx : BitVec 64) : Describes ctx .entry (vm.enter ctx) where
  frame := rfl
  regs r _ := by
    by_cases h1 : r = 1
    · subst h1
      intro a ha
      exact some.inj ha
    by_cases h10 : r = 10
    · subst h10
      exact VerifierRegState.allows_stack rfl rfl
    have hregs : entry.regs r = .uninit := by
      simp [entry, h1, h10]
    rw [hregs]
    exact VerifierRegState.allows_uninit _ _
  spills slot _ st h := by cases h

namespace Describes

variable {ctx : BitVec 64} {state : VerifierState} {vm : EbpfVm}

theorem setReg (h : Describes ctx state vm) {r : ℕ} (hr : r ≠ 10) {st : VerifierRegState}
    {v : BitVec 64} (hv : st.Allows ctx v) :
    Describes ctx (state.setReg r st)
      { vm with registers := fun k => if k = r then v else vm.registers k } where
  frame := (if_neg (Ne.symm hr)).trans h.frame
  regs k hk := by
    by_cases hkr : k = r
    · simpa [VerifierState.setReg, hkr] using hv
    · simpa [VerifierState.setReg, hkr] using h.regs k hk
  spills := h.spills

end Describes

variable {vm : EbpfVm} {r n start : ℕ} {state : VerifierState} {size : BitVec 8}

theorem EbpfVm.reg_of_le (hr : r ≤ 10) : vm.reg r = .ok (vm.registers r) :=
  if_pos (Nat.lt_succ_of_le hr)

theorem EbpfVm.setReg_of_le (hr : r ≤ 10) (v : BitVec 64) :
    vm.setReg r v =
      .ok { vm with registers := fun k => if k = r then v else vm.registers k } :=
  if_pos (Nat.lt_succ_of_le hr)

def EbpfVm.operandValue (vm : EbpfVm) (insn : DecodedInsn) : BitVec 64 :=
  if insn.usesSrcReg then vm.registers insn.src else insn.imm64

variable {insn : DecodedInsn} {op : AluOp} {out : VerifierState}

theorem EbpfVm.operand_of_le (hsrc : insn.src ≤ 10) :
    vm.operand insn = .ok (vm.operandValue insn) := by
  unfold operand operandValue
  split_ifs
  · exact reg_of_le hsrc
  · rfl

theorem verifierMoveStackPtr_cases (h : verifierMoveStackPtr insn op state = .ok out) :
    insn.usesSrcReg = false ∧ ∃ delta, (op = .add ∧ delta = insn.imm.toInt ∨
      op = .sub ∧ delta = -insn.imm.toInt) ∧
      out = state.setReg insn.dst
        { state.regs insn.dst with stackOffset := (state.regs insn.dst).stackOffset + delta } := by
  unfold verifierMoveStackPtr at h
  by_cases hop : (op = .add ∨ op = .sub) ∧ !insn.usesSrcReg
  · rw [if_pos hop] at h
    refine ⟨by simpa using hop.2, if op = .add then insn.imm.toInt else -insn.imm.toInt, ?_, ?_⟩
    · rcases hop.1 with rfl | rfl
      · exact .inl ⟨rfl, rfl⟩
      · exact .inr ⟨rfl, rfl⟩
    · by_cases hrange : (state.regs insn.dst).stackOffset +
          (if op = .add then insn.imm.toInt else -insn.imm.toInt) < -2 ^ 31 ∨
        2 ^ 31 - 1 < (state.regs insn.dst).stackOffset +
          (if op = .add then insn.imm.toInt else -insn.imm.toInt)
      · rw [if_pos hrange] at h
        cases h
      · rw [if_neg hrange] at h
        exact (ok.inj h).symm
  · rw [if_neg hop] at h
    cases h

/-- An accepted arithmetic instruction copies a register, makes a number or moves a stack
pointer by a constant. -/
theorem verifierApplyAlu_cases (h : verifierApplyAlu insn op state = .ok out) :
    insn.dst ≠ 10 ∧
    ((op = .mov ∧ insn.usesSrcReg = true ∧ out = state.setReg insn.dst (state.regs insn.src)) ∨
      ((insn.usesSrcReg = false → op = .div ∨ op = .mod → insn.imm ≠ 0) ∧
        out = state.setReg insn.dst .scalar) ∨
      ((state.regs insn.dst).kind = .stackPtr ∧ verifierMoveStackPtr insn op state = .ok out)) := by
  unfold verifierApplyAlu at h
  split_ifs at h with hdst hmov hsrc hsrc hdiv
  · obtain ⟨-, h⟩ := rejectUnless_bind.mp h
    exact ⟨hdst, .inl ⟨hmov, hsrc, (ok.inj h).symm⟩⟩
  · refine ⟨hdst, .inr (.inl ⟨fun _ hop => ?_, (ok.inj h).symm⟩)⟩
    rcases hop with rfl | rfl <;> cases hmov
  · simp only [rejectUnless_bind] at h
    have himm : insn.usesSrcReg = false → op = .div ∨ op = .mod → insn.imm ≠ 0 := by simp [hsrc]
    refine ⟨hdst, .inr ?_⟩
    cases hk : (state.regs insn.dst).kind <;> simp [hk] at h
    · exact .inl ⟨himm, h.2.2.symm⟩
    · exact .inl ⟨himm, h.2.2.symm⟩
  · simp only [rejectUnless_bind] at h
    have himm : insn.usesSrcReg = false → op = .div ∨ op = .mod → insn.imm ≠ 0 :=
      fun _ _ => bne_iff_ne.mp h.2.1
    refine ⟨hdst, .inr ?_⟩
    cases hk : (state.regs insn.dst).kind <;> simp [hk] at h
    · exact .inl ⟨himm, h.2.2.symm⟩
    · exact .inr ⟨rfl, h.2.2⟩
    · exact .inl ⟨himm, h.2.2.symm⟩
  · simp only [rejectUnless_bind] at h
    have himm : insn.usesSrcReg = false → op = .div ∨ op = .mod → insn.imm ≠ 0 :=
      fun _ hop => absurd hop hdiv
    refine ⟨hdst, .inr ?_⟩
    cases hk : (state.regs insn.dst).kind <;> simp [hk] at h
    · exact .inl ⟨himm, h.2.symm⟩
    · exact .inr ⟨rfl, h.2⟩
    · exact .inl ⟨himm, h.2.symm⟩

def EbpfVm.dividesByZero (vm : EbpfVm) (insn : DecodedInsn) (op : AluOp) : Bool :=
  (op == .div || op == .mod) && insn.usesSrcReg && vm.registers insn.src == 0

def EbpfVm.aluValue (vm : EbpfVm) (insn : DecodedInsn) (op : AluOp) : BitVec 64 :=
  evalAlu op (vm.registers insn.dst) (vm.operandValue insn)

theorem imm64_ne_zero (h : insn.imm ≠ 0) : insn.imm64 ≠ 0 := by
  intro hz
  apply h
  have := congrArg BitVec.toInt hz
  rw [DecodedInsn.imm64, toInt_signExtend_of_le (by omega)] at this
  exact eq_of_toInt_eq (by simpa using this)

theorem EbpfVm.aluStep_eq (hdst : insn.dst ≤ 10) (hsrc : insn.src ≤ 10) :
    vm.aluStep insn op =
      if (op = .div ∨ op = .mod) ∧ vm.operandValue insn = 0 then .error (.error .callError)
      else .ok { vm with
        registers := fun k => if k = insn.dst then vm.aluValue insn op else vm.registers k } := by
  cases op <;>
    simp [aluStep, operand_of_le hsrc, reg_of_le hdst,
      setReg_of_le hdst, aluValue, evalAlu, bind, Except.bind]

theorem zero_operand_iff (hout : verifierApplyAlu insn op state = .ok out) (vm : EbpfVm) :
    (op = .div ∨ op = .mod) ∧ vm.operandValue insn = 0 ↔ vm.dividesByZero insn op = true := by
  unfold operandValue dividesByZero
  cases husrc : insn.usesSrcReg with
  | true => simp
  | false =>
    have himm : op = .div ∨ op = .mod → insn.imm64 ≠ 0 := by
      intro hop
      obtain ⟨-, ⟨rfl, -⟩ | ⟨himm, -⟩ | ⟨-, hmove⟩⟩ := verifierApplyAlu_cases hout
      · simp at hop
      · exact imm64_ne_zero (himm husrc hop)
      · obtain ⟨-, delta, ⟨rfl, -⟩ | ⟨rfl, -⟩, -⟩ := verifierMoveStackPtr_cases hmove <;>
          simp at hop
    simpa using himm

namespace Describes

variable {ctx : BitVec 64} {state : VerifierState} {vm : EbpfVm}

theorem alu (h : Describes ctx state vm) {insn : DecodedInsn} {op : AluOp}
    {out : VerifierState} (hdst : insn.dst ≤ 10) (hsrc : insn.src ≤ 10)
    (hout : verifierApplyAlu insn op state = .ok out) :
    Describes ctx out { vm with
      registers := fun k => if k = insn.dst then vm.aluValue insn op else vm.registers k } := by
  obtain ⟨hne, ⟨rfl, husrc, rfl⟩ | ⟨-, rfl⟩ | ⟨hk, hmove⟩⟩ := verifierApplyAlu_cases hout
  · refine h.setReg hne ?_
    have hvalue : vm.aluValue insn .mov = vm.registers insn.src := by
      simp [aluValue, evalAlu, operandValue, husrc]
    rw [hvalue]
    exact h.regs _ (by omega)
  · exact h.setReg hne (VerifierRegState.allows_scalar _ _)
  · obtain ⟨husrc, delta, hop, rfl⟩ := verifierMoveStackPtr_cases hmove
    refine h.setReg hne (VerifierRegState.allows_stack hk ?_)
    have hbase := (h.regs insn.dst (by omega)).eq_stack hk
    have hoperand : vm.operandValue insn = BitVec.ofInt 64 insn.imm.toInt := by
      simp [operandValue, husrc]
      rfl
    rcases hop with ⟨rfl, rfl⟩ | ⟨rfl, rfl⟩
    · rw [aluValue, evalAlu, hbase, hoperand, ← ofInt_add, Int.add_assoc]
    · rw [aluValue, evalAlu, hbase, hoperand, BitVec.sub_eq_add_neg,
        ← ofInt_neg, ← ofInt_add, Int.add_assoc]

end Describes

theorem accessSizeBytes_cases (h : accessSizeBytes size = some n) :
    n = 1 ∨ n = 2 ∨ n = 4 ∨ n = 8 := by
  unfold accessSizeBytes at h
  split_ifs at h <;> simp_all

theorem stackWindow_eq {addr : BitVec 64} (h : accessSizeBytes size = some n) :
    stackWindow addr size =
      if addr.toNat + n ≤ bpfStackSize then .ok (addr.toNat, n)
      else .error (.error .memoryAccess) := by
  have hn := accessSizeBytes_cases h
  simp only [stackWindow, h]
  split_ifs <;> first | rfl | omega

theorem verifierStackAccessStart_eq_some {base off : ℤ} {size : ℕ}
    (h : verifierStackAccessStart base off size = some start) :
    (start : ℤ) = bpfStackSize + base + off ∧ start + size ≤ bpfStackSize := by
  simp only [verifierStackAccessStart] at h
  split_ifs at h with hrange halign
  cases h
  omega

theorem toNat_stack_address {st : VerifierRegState} {v : BitVec 64} {size : ℕ}
    (hv : st.Allows ctx v) (hk : st.kind = .stackPtr)
    (h : verifierStackAccessStart st.stackOffset insn.off size = some start) :
    (v + insn.off64).toNat = start ∧ start + size ≤ bpfStackSize := by
  obtain ⟨hstart, hle⟩ := verifierStackAccessStart_eq_some h
  have hlt : start < 2 ^ 64 := by
    simp only [bpfStackSize] at hle
    omega
  refine ⟨?_, hle⟩
  rw [hv.eq_stack hk, DecodedInsn.off64, ← ofInt_add, ← hstart, ofInt_natCast,
    toNat_ofNat, Nat.mod_eq_of_lt hlt]

theorem verifierApplyLdx_cases (h : verifierApplyLdx insn state = .ok out) :
    ∃ size, accessSizeBytes insn.size = some size ∧ insn.dst ≠ 10 ∧
      (((state.regs insn.src).kind = .stackPtr ∧ ∃ start,
          verifierStackAccessStart (state.regs insn.src).stackOffset insn.off size = some start ∧
          out = state.setReg insn.dst ((if size = 8 ∧ start % 8 = 0 then
            state.stackSpill (start / 8) else none).getD .scalar)) ∨
        (state.regs insn.src).kind = .ctxPtr ∧ out = state.setReg insn.dst .scalar) := by
  unfold verifierApplyLdx at h
  cases hsize : accessSizeBytes insn.size with
  | none => simp [hsize] at h
  | some size =>
    simp only [hsize, rejectUnless_bind, Bool.and_eq_true] at h
    obtain ⟨⟨hdst, -⟩, h⟩ := h
    refine ⟨size, rfl, bne_iff_ne.mp hdst, ?_⟩
    cases hk : (state.regs insn.src).kind <;> simp only [hk] at h
    case stackPtr =>
      cases hstart : verifierStackAccessStart (state.regs insn.src).stackOffset insn.off size with
      | none => simp [hstart] at h
      | some start =>
        simp only [hstart, rejectUnless_bind] at h
        exact .inl ⟨rfl, start, rfl, (ok.inj h.2).symm⟩
    case ctxPtr =>
      obtain ⟨-, h⟩ := rejectUnless_bind.mp h
      exact .inr ⟨rfl, (ok.inj h).symm⟩
    all_goals cases h

theorem verifierApplyStx_cases (h : verifierApplyStx insn state = .ok out) :
    ∃ size start, accessSizeBytes insn.size = some size ∧
      (state.regs insn.dst).kind = .stackPtr ∧
      verifierStackAccessStart (state.regs insn.dst).stackOffset insn.off size = some start ∧
      out = if size = 8 ∧ start % 8 = 0 then
          (state.markStackWrite start size).setSpill (start / 8) (state.regs insn.src)
        else state.markStackWrite start size := by
  unfold verifierApplyStx at h
  cases hsize : accessSizeBytes insn.size with
  | none => simp [hsize] at h
  | some size =>
    simp only [hsize, rejectUnless_bind] at h
    obtain ⟨-, hk, h⟩ := h
    cases hstart : verifierStackAccessStart (state.regs insn.dst).stackOffset insn.off size with
    | none => simp [hstart] at h
    | some start =>
      simp only [hstart] at h
      refine ⟨size, start, rfl, beq_iff_eq.mp hk, hstart, ?_⟩
      split_ifs at h ⊢ <;> exact (ok.inj h).symm

/-- The machine serves a load through the context only inside its own stack. -/
def loadServed (ctx : BitVec 64) (state : VerifierState) (insn : DecodedInsn) : Bool :=
  (state.regs insn.src).kind != .ctxPtr ||
    (accessSizeBytes insn.size).all fun n => (ctx + insn.off64).toNat + n ≤ bpfStackSize

namespace Describes

variable {ctx : BitVec 64} {state : VerifierState} {vm : EbpfVm}

theorem ldx (h : Describes ctx state vm) {insn : DecodedInsn} {out : VerifierState}
    (hsrc : insn.src ≤ 10) (hout : verifierApplyLdx insn state = .ok out) :
    (loadServed ctx state insn = true ∧ ∃ v,
      vm.memoryRead (vm.registers insn.src + insn.off64) insn.size = .ok v ∧
      Describes ctx out { vm with
        registers := fun k => if k = insn.dst then v else vm.registers k }) ∨
    (loadServed ctx state insn = false ∧
      vm.memoryRead (vm.registers insn.src + insn.off64) insn.size =
        .error (.error .memoryAccess)) := by
  obtain ⟨size, hsize, hdst, ⟨hk, start, hstart, rfl⟩ | ⟨hk, rfl⟩⟩ := verifierApplyLdx_cases hout
  · left
    obtain ⟨haddr, hle⟩ := toNat_stack_address (h.regs insn.src (by omega)) hk hstart
    refine ⟨by simp [loadServed, hk], BitVec.ofNat 64 (ByteStore.readLe vm.stack start size), ?_,
      h.setReg hdst ?_⟩
    · rw [memoryRead, stackWindow_eq hsize, haddr, if_pos hle]
      rfl
    · by_cases hspill : size = 8 ∧ start % 8 = 0
      · obtain ⟨rfl, halign⟩ := hspill
        rw [if_pos ⟨rfl, halign⟩]
        cases hslot : state.stackSpill (start / 8) with
        | none => exact VerifierRegState.allows_scalar _ _
        | some st =>
          have hvalue := h.spills _ (by omega) _ hslot
          rwa [spilled, Nat.div_mul_cancel (Nat.dvd_of_mod_eq_zero halign)] at hvalue
      · rw [if_neg hspill]
        exact VerifierRegState.allows_scalar _ _
  · have hbase := (h.regs insn.src (by omega)).eq_ctx hk
    rw [memoryRead, stackWindow_eq hsize, hbase]
    by_cases hle : (ctx + insn.off64).toNat + size ≤ bpfStackSize
    · left
      rw [if_pos hle]
      exact ⟨by simpa [loadServed, hk, hsize] using hle, _, rfl,
        h.setReg hdst (VerifierRegState.allows_scalar _ _)⟩
    · right
      rw [if_neg hle]
      exact ⟨by simpa [loadServed, hk, hsize] using hle, rfl⟩

theorem stx (h : Describes ctx state vm) {insn : DecodedInsn} {out : VerifierState}
    (hdst : insn.dst ≤ 10) (hsrc : insn.src ≤ 10) (hout : verifierApplyStx insn state = .ok out) :
    ∃ vm', vm.memoryWrite (vm.registers insn.dst + insn.off64) (vm.registers insn.src)
      insn.size = .ok vm' ∧ Describes ctx out vm' := by
  obtain ⟨size, start, hsize, hk, hstart, rfl⟩ := verifierApplyStx_cases hout
  obtain ⟨haddr, hle⟩ := toNat_stack_address (h.regs insn.dst (by omega)) hk hstart
  refine ⟨{ vm with stack := ByteStore.writeLe vm.stack start size (vm.registers insn.src).toNat },
    ?_, ?_⟩
  · rw [memoryWrite, stackWindow_eq hsize, haddr, if_pos hle]
    rfl
  have hkept : ∀ slot < bpfStackSize / 8, ∀ st,
      (state.markStackWrite start size).stackSpill slot = some st → st.Allows ctx (spilled { vm with
        stack := ByteStore.writeLe vm.stack start size (vm.registers insn.src).toNat } slot) := by
    intro slot hlt st hslot
    simp only [markStackWrite, clearSpillsForStackRange] at hslot
    split_ifs at hslot with hin
    have hvalue := h.spills slot hlt st hslot
    rwa [spilled, ByteStore.readLe_writeLe_disjoint _ (by omega)]
  split_ifs with hspill
  · obtain ⟨rfl, halign⟩ := hspill
    refine ⟨h.frame, h.regs, fun slot hlt st hslot => ?_⟩
    simp only [setSpill] at hslot
    split_ifs at hslot with heq
    · cases hslot
      have hvalue := h.regs insn.src (by omega)
      have hlt64 : (vm.registers insn.src).toNat < 256 ^ 8 := by
        omega
      have hback : BitVec.ofNat 64 ((vm.registers insn.src).toNat % 256 ^ 8) =
          vm.registers insn.src := by
        rw [Nat.mod_eq_of_lt hlt64, ofNat_toNat, setWidth_eq]
      rwa [spilled, heq, Nat.div_mul_cancel (Nat.dvd_of_mod_eq_zero halign),
        ByteStore.readLe_writeLe, hback]
    · exact hkept slot hlt st hslot
  · exact ⟨h.frame, h.regs, hkept⟩

end Describes

end EchOS.Net.Ebpf
