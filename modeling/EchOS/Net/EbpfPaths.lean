import EchOS.Net.EbpfSound
import Mathlib.Logic.Relation

/-! The control-flow graph that the verifier searches is that of the interpreter: every
instruction of an accepted program lies on a path from the first one to an exit, and no run gets
past the end. -/

namespace EchOS.Net.Ebpf

open EbpfVm DecodedInsn List Option Except Fallible

def EbpfVm.Flow.target : Flow → Option ℕ
  | .next _ pc => some (pc + 1)
  | .jump _ pc => some pc
  | .ret _ => none

def DecodedInsn.isConditional (insn : DecodedInsn) : Bool :=
  insn.cls == .jmp && insn.jmpOp.any JmpOp.conditional

/-- The instruction at `pc`, with a conditional jump taken or not as told. -/
def EbpfVm.execInsnTaking (vm : EbpfVm) (taken : Bool) (helpers : Helpers) (pc : ℕ)
    (insn : DecodedInsn) : Except Fault Flow :=
  if insn.isConditional then do
    let _ ← vm.operand insn
    let _ ← vm.reg insn.dst
    if taken then vm.jumpTo pc insn.off else return .next vm pc
  else vm.execInsn helpers pc insn

/-- The interpreter can pass from one instruction to another. -/
def Passes (program : List (BitVec 64)) (pc pc' : ℕ) : Prop :=
  pc' < program.length ∧ ∃ (vm : EbpfVm) (taken : Bool) (helpers : Helpers) (flow : Flow),
    vm.program = program ∧
    vm.execInsnTaking taken helpers pc (decodeInstruction (program.getD pc 0)) = .ok flow ∧
    flow.target = some pc'

section Marks

variable {edges : ℕ → List ℕ} {steps : ℕ} {marks : List Bool} {stack : List ℕ}

theorem markFrom_invariant {P : ℕ → Prop} (hedge : ∀ x, P x → ∀ y ∈ edges x, P y)
    (hmarks : ∀ x, marks.getD x false = true → P x) (hstack : ∀ x ∈ stack, P x) (x : ℕ)
    (hx : (markFrom edges steps marks stack).getD x false = true) : P x := by
  induction steps generalizing marks stack with
  | zero => exact hmarks x hx
  | succ steps ih =>
    cases stack with
    | nil => exact hmarks x hx
    | cons pc stack =>
      obtain ⟨hpc, hstack⟩ := forall_mem_cons.mp hstack
      rw [markFrom] at hx
      split_ifs at hx
      · exact ih hmarks hstack hx
      · refine ih (fun y hy => ?_) (fun y hy => ?_) hx
        · by_cases hyp : y = pc
          · exact hyp ▸ hpc
          · rw [List.getD_eq_getElem?_getD, List.getElem?_set_ne (Ne.symm hyp)] at hy
            exact hmarks y hy
        · rcases mem_append.mp hy with hy | hy
          · exact hedge pc hpc y (mem_reverse.mp hy)
          · exact hstack y hy

theorem length_markFrom : (markFrom edges steps marks stack).length = marks.length := by
  induction steps generalizing marks stack with
  | zero => rfl
  | succ steps ih =>
    cases stack with
    | nil => rfl
    | cons pc stack =>
      rw [markFrom]
      split_ifs
      · exact ih
      · rw [ih, length_set]

theorem length_successorsFrom {len start : ℕ} {insns : List DecodedInsn}
    {succs : List Successors} (h : successorsFrom len start insns = .ok succs) :
    succs.length = insns.length := by
  induction insns generalizing start succs with
  | nil =>
    cases h
    rfl
  | cons insn rest ih =>
    obtain ⟨head, -, h⟩ := bind_eq_ok.mp h
    obtain ⟨tail, htail, h⟩ := bind_eq_ok.mp h
    cases h
    rw [length_cons, length_cons, ih htail]

end Marks

section Edges

variable {program : List (BitVec 64)} {pc : ℕ} {insn : DecodedInsn} {state : VerifierState}
  {succ : Successors} {next : List (ℕ × VerifierState)}

theorem execInsnTaking_of_not_conditional (h : insn.isConditional = false) (vm : EbpfVm)
    (taken : Bool) (helpers : Helpers) :
    vm.execInsnTaking taken helpers pc insn = vm.execInsn helpers pc insn := by
  unfold execInsnTaking
  rw [h]
  rfl

theorem execInsnTaking_of_conditional (h : insn.isConditional = true) (hdst : insn.dst ≤ 10)
    (hsrc : insn.src ≤ 10) (vm : EbpfVm) (taken : Bool) (helpers : Helpers) :
    vm.execInsnTaking taken helpers pc insn =
      if taken then vm.jumpTo pc insn.off else .ok (.next vm pc) := by
  unfold execInsnTaking
  rw [if_pos h, operand_of_le hsrc, reg_of_le hdst]
  rfl

def uniform (program : List (BitVec 64)) (value : BitVec 64) : EbpfVm :=
  ⟨fun _ => value, fun _ => 0, program, 0⟩

theorem stackWindow_bottom {n : ℕ} (h : accessSizeBytes insn.size = some n) :
    stackWindow (-insn.off64 + insn.off64) insn.size = .ok (0, n) := by
  have hn := accessSizeBytes_cases h
  rw [BitVec.add_comm, BitVec.add_neg_eq_sub, BitVec.sub_self, stackWindow_eq h]
  exact if_pos (by simp [bpfStackSize]; omega)

theorem checkedJumpTarget_lt {len target : ℕ} {off : ℤ}
    (h : checkedJumpTarget pc off len = some target) : target < len := by
  simp only [checkedJumpTarget, ite_none_left_eq_some, some.injEq] at h
  omega

theorem jumpTo_eq {vm : EbpfVm} {target : ℕ}
    (h : checkedJumpTarget pc insn.off vm.program.length = some target) :
    vm.jumpTo pc insn.off = .ok (.jump vm target) := by
  unfold jumpTo
  rw [h]

section

variable (hinsn : decodeInstruction (program.getD pc 0) = insn)
include hinsn

theorem passes_next (hplain : insn.isConditional = false) (hlt : pc + 1 < program.length)
    (value : BitVec 64)
    (h : ∃ vm', (uniform program value).execInsn .noMaps pc insn = .ok (.next vm' pc)) :
    Passes program pc (pc + 1) := by
  obtain ⟨vm', hexec⟩ := h
  refine ⟨hlt, uniform program value, true, .noMaps, .next vm' pc, rfl, ?_, rfl⟩
  rw [hinsn, execInsnTaking_of_not_conditional hplain, hexec]

theorem passes_target {target : ℕ}
    (htarget : checkedJumpTarget pc insn.off program.length = some target)
    (hexec : (uniform program 0).execInsnTaking true .noMaps pc insn =
      (uniform program 0).jumpTo pc insn.off) : Passes program pc target := by
  refine ⟨checkedJumpTarget_lt htarget, uniform program 0, true, .noMaps,
    .jump (uniform program 0) target, rfl, ?_, rfl⟩
  rw [hinsn, hexec]
  exact jumpTo_eq htarget

theorem passes_of_mem (hcheck : verifierCheckInsn insn = .ok ())
    (ht : Transfers program.length pc insn state succ next) {pc' : ℕ}
    (hmem : pc' ∈ succ.1.toList ++ succ.2.toList) : Passes program pc pc' := by
  obtain ⟨hdst, hsrc⟩ := registers_le_of_check hcheck
  cases ht with
  | alu hcls hop hout hlt =>
    obtain rfl : pc' = pc + 1 := by simpa using hmem
    have hzero := mt (zero_operand_iff hout (uniform program 1)).mp (by
      simp [dividesByZero, uniform])
    have halu := (aluStep_eq hdst hsrc).trans (if_neg hzero)
    exact passes_next hinsn (by simp [isConditional, hcls]) hlt 1 ⟨_, by
      simp only [execInsn, hcls, hop, halu]
      rfl⟩
  | ldx hcls hout hlt =>
    obtain rfl : pc' = pc + 1 := by simpa using hmem
    obtain ⟨size, hsize, -⟩ := verifierApplyLdx_cases hout
    exact passes_next hinsn (by simp [isConditional, hcls]) hlt (-insn.off64) ⟨_, by
      simp only [execInsn, hcls, reg_of_le hsrc, setReg_of_le hdst, uniform,
        memoryRead, stackWindow_bottom hsize, bind, Except.bind]
      rfl⟩
  | stx hcls hout hlt =>
    obtain rfl : pc' = pc + 1 := by simpa using hmem
    obtain ⟨size, start, hsize, -⟩ := verifierApplyStx_cases hout
    exact passes_next hinsn (by simp [isConditional, hcls]) hlt (-insn.off64) ⟨_, by
      simp only [execInsn, hcls, reg_of_le hsrc, reg_of_le hdst, uniform,
        memoryWrite, stackWindow_bottom hsize, bind, Except.bind]
      rfl⟩
  | call hcls hop hid hlt =>
    obtain rfl : pc' = pc + 1 := by simpa using hmem
    obtain ⟨-, vm', result, hcall, -⟩ | ⟨hserved, -⟩ :=
      builtinCall_cases (uniform program 512) .noMaps hid
    · have hplain : insn.isConditional = false := by
        simp [isConditional, hop, JmpOp.conditional]
      exact passes_next hinsn hplain hlt 512 ⟨_, by
        simp only [execInsn, hcls, jmpStep, hop, hcall, bind, Except.bind,
          setReg_of_le (Nat.zero_le 10)]
        rfl⟩
    · exact absurd hserved (by simp [helperServed, bytesServed, uniform, bpfStackSize])
  | exit hcls hop => exact absurd hmem not_mem_nil
  | @ja target hcls hop htarget =>
    obtain rfl : pc' = target := by simpa using hmem
    refine passes_target hinsn htarget ?_
    rw [execInsnTaking_of_not_conditional (by simp [isConditional, hop,
      JmpOp.conditional])]
    simp only [execInsn, hcls, hop, jmpStep]
  | @branch op target hcls hop hcond htarget hlt =>
    have hconditional : insn.isConditional = true := by
      simp [isConditional, hcls, hop, hcond]
    have hexec (taken : Bool) : (uniform program 0).execInsnTaking taken .noMaps pc insn = _ :=
      execInsnTaking_of_conditional hconditional hdst hsrc _ taken _
    have hcases : pc' = pc + 1 ∨ pc' = target := by simpa using hmem
    rcases hcases with rfl | rfl
    · refine ⟨hlt, uniform program 0, false, .noMaps, .next (uniform program 0) pc, rfl, ?_, rfl⟩
      rw [hinsn, hexec]
      rfl
    · exact passes_target hinsn htarget (hexec true)

end

end Edges

section Search

variable {program : List (BitVec 64)} {successors : List Successors}
  {inStates : ℕ → Option VerifierState} {reachable : List Bool} {pc pc' : ℕ}

theorem Accepted.length_successors (h : Accepted program successors inStates) :
    successors.length = program.length := by
  rw [length_successorsFrom h.graph, length_map]

section

variable (hacc : Accepted program successors inStates)
  (hstates : ∀ pc < program.length, (inStates pc).isSome = true)
include hacc hstates

theorem passes_of_successorList (hmem : pc' ∈ successorList successors pc) :
    Passes program pc pc' := by
  have hpc : pc < program.length := by
    by_contra hge
    rw [← hacc.length_successors, Nat.not_lt] at hge
    unfold successorList at hmem
    rw [getD_eq_default _ _ hge] at hmem
    exact absurd hmem not_mem_nil
  obtain ⟨state, hstate⟩ := isSome_iff_exists.mp (hstates pc hpc)
  obtain ⟨next, h⟩ := hacc.analysed (hacc.inStates_eq ▸ hstate)
  exact passes_of_mem rfl h.check (transfers_of_ok h.successors h.transfer) hmem

theorem reach_of_mask (hmask : (verifierReachableMask successors).getD pc false = true) :
    Relation.ReflTransGen (Passes program) 0 pc := by
  refine markFrom_invariant (fun x hx y hy => hx.tail (passes_of_successorList hacc hstates hy))
    (fun x hx => ?_) (fun x hx => ?_) pc hmask
  · rw [List.getD_eq_getElem?_getD, List.getElem?_replicate] at hx
    split_ifs at hx <;> exact absurd hx (by decide)
  · rw [mem_singleton.mp hx]

end

theorem mem_predecessorList (h : pc' ∈ predecessorList successors reachable pc) :
    pc ∈ successorList successors pc' := by
  obtain ⟨prev, -, hprev⟩ := mem_flatMap.mp h
  split_ifs at hprev
  · obtain ⟨next, hnext, heq⟩ := mem_filterMap.mp hprev
    split_ifs at heq with hpc
    cases heq
    exact hpc ▸ hnext
  · exact absurd hprev not_mem_nil

theorem exit_of_mask (hacc : Accepted program successors inStates)
    (hstates : ∀ pc < program.length, (inStates pc).isSome = true) {exits : List ℕ}
    (hmask : (verifierCanReachExitMask successors reachable exits).getD pc false = true) :
    ∃ last ∈ exits, Relation.ReflTransGen (Passes program) pc last := by
  refine markFrom_invariant (P := fun x => ∃ last ∈ exits,
    Relation.ReflTransGen (Passes program) x last) ?_ (fun x hx => ?_) (fun x hx => ?_) pc hmask
  · rintro x ⟨last, hlast, hpath⟩ y hy
    have hedge := passes_of_successorList hacc hstates (mem_predecessorList hy)
    exact ⟨last, hlast, Relation.ReflTransGen.head hedge hpath⟩
  · rw [List.getD_eq_getElem?_getD, List.getElem?_replicate] at hx
    split_ifs at hx <;> exact absurd hx (by decide)
  · exact ⟨x, mem_reverse.mp hx, Relation.ReflTransGen.refl⟩

end Search

section Steps

variable {vm : EbpfVm} {helpers : Helpers} {pc : ℕ} {insn : DecodedInsn} {state : VerifierState}
  {succ : Successors} {next : List (ℕ × VerifierState)} {flow : Flow}

theorem execInsn_target (hdst : insn.dst ≤ 10) (hsrc : insn.src ≤ 10)
    (ht : Transfers vm.program.length pc insn state succ next)
    (h : vm.execInsn helpers pc insn = .ok flow) :
    (∃ target < vm.program.length, flow.target = some target) ∨
      flow.target = none ∧ isExit insn = true := by
  unfold execInsn at h
  cases ht with
  | alu hcls hop hout hlt =>
    simp only [hcls, hop] at h
    obtain ⟨vm', -, h⟩ := bind_eq_ok.mp h
    exact ok.inj h ▸ .inl ⟨pc + 1, hlt, rfl⟩
  | ldx hcls hout hlt | stx hcls hout hlt =>
    simp only [hcls] at h
    obtain ⟨_, -, h⟩ := bind_eq_ok.mp h
    obtain ⟨_, -, h⟩ := bind_eq_ok.mp h
    obtain ⟨vm', -, h⟩ := bind_eq_ok.mp h
    exact ok.inj h ▸ .inl ⟨pc + 1, hlt, rfl⟩
  | call hcls hop hid hlt =>
    simp only [hcls, hop, jmpStep] at h
    obtain ⟨_, -, h⟩ := bind_eq_ok.mp h
    exact ok.inj h ▸ .inl ⟨pc + 1, hlt, rfl⟩
  | exit hcls hop =>
    simp only [hcls, hop, jmpStep] at h
    exact ok.inj h ▸ .inr ⟨rfl, by simp [isExit, hcls, hop]⟩
  | ja hcls hop htarget =>
    simp only [hcls, hop, jmpStep, jumpTo_eq htarget] at h
    exact ok.inj h ▸ .inl ⟨_, checkedJumpTarget_lt htarget, rfl⟩
  | branch hcls hop hcond htarget hlt =>
    simp only [hcls, hop, jmpStep_conditional hcond hdst hsrc, jumpTo_eq htarget] at h
    split_ifs at h
    · exact ok.inj h ▸ .inl ⟨_, checkedJumpTarget_lt htarget, rfl⟩
    · exact ok.inj h ▸ .inl ⟨pc + 1, hlt, rfl⟩

theorem exists_taking (hdst : insn.dst ≤ 10) (hsrc : insn.src ≤ 10) :
    ∃ taken, vm.execInsnTaking taken helpers pc insn = vm.execInsn helpers pc insn := by
  cases hcond : insn.isConditional with
  | false => exact ⟨false, execInsnTaking_of_not_conditional hcond _ _ _⟩
  | true =>
    obtain ⟨hcls, hjmp⟩ := (Bool.and_eq_true _ _).mp hcond
    obtain ⟨op, hop, hconditional⟩ : ∃ op, insn.jmpOp = some op ∧ op.conditional = true := by
      cases hop : insn.jmpOp with
      | none => simp [hop] at hjmp
      | some op => exact ⟨op, rfl, by simpa [hop] using hjmp⟩
    refine ⟨compares op (vm.registers insn.dst) (vm.operandValue insn), ?_⟩
    rw [execInsnTaking_of_conditional hcond hdst hsrc]
    simp only [execInsn, eq_of_beq hcls, hop]
    exact (jmpStep_conditional hconditional hdst hsrc).symm

theorem resume_of_lt {vm' : EbpfVm} {target : ℕ} (hprogram : vm'.program = vm.program)
    (h : target < vm.program.length) : Machine.resume vm' target = .running vm' target :=
  if_pos (hprogram ▸ h)

theorem follow_execInsn (h : Analysed vm.program pc state succ next) :
    let m := Machine.follow
      (vm.execInsn helpers pc (decodeInstruction (vm.program.getD pc 0)))
    (∃ fault, m = .halted (.error fault)) ∨
    (∃ value, m = .halted (.ok value) ∧
      isExit (decodeInstruction (vm.program.getD pc 0)) = true) ∨
    ∃ vm' pc', m = .running vm' pc' ∧ Passes vm.program pc pc' := by
  obtain ⟨hdst, hsrc⟩ := registers_le_of_check h.check
  obtain ⟨taken, htaken⟩ : ∃ taken, vm.execInsnTaking taken helpers pc _ = _ :=
    exists_taking hdst hsrc
  cases hexec : vm.execInsn helpers pc (decodeInstruction (vm.program.getD pc 0)) with
  | error fault => exact .inl ⟨fault, rfl⟩
  | ok flow =>
    have hforward := execInsn_forward hexec
    have htransfers := transfers_of_ok h.successors h.transfer
    rcases execInsn_target hdst hsrc htransfers hexec with ⟨target, hlt, hflow⟩ | ⟨hnone, hexit⟩
    · have hpasses : Passes vm.program pc target :=
        ⟨hlt, vm, taken, helpers, flow, rfl, htaken.trans hexec, hflow⟩
      cases flow with
      | ret value => cases hflow
      | jump vm' pc' =>
        obtain rfl := some.inj hflow
        exact .inr (.inr ⟨vm', pc', resume_of_lt hforward.1 hlt, hpasses⟩)
      | next vm' pc' =>
        cases hflow
        dsimp only [Machine.follow]
        split_ifs
        · exact .inl ⟨_, rfl⟩
        · exact .inr (.inr ⟨vm', pc' + 1, resume_of_lt hforward.1 hlt, hpasses⟩)
    · cases flow with
      | ret value => exact .inr (.inl ⟨value, rfl, hexit⟩)
      | jump vm' pc' | next vm' pc' => cases hnone

end Steps

open Machine in
/-- Every instruction of an accepted program lies on a path from the first one to an exit, along
the passes the interpreter can make. A run keeps to these passes and leaves the loop by a fault or
at an exit, never past the end. -/
theorem accepted_on_path_to_exit (program : List (BitVec 64))
    (hv : verifyProgram program = .ok ()) :
    (∀ pc < program.length, Relation.ReflTransGen (Passes program) 0 pc ∧
      ∃ last < program.length, isExit (decodeInstruction (program.getD last 0)) = true ∧
        Relation.ReflTransGen (Passes program) pc last) ∧
    ∀ (vm : EbpfVm) (helpers : Helpers) (ctx : BitVec 64), vm.program = program →
      resume (vm.enter ctx) 0 = .running (vm.enter ctx) 0 ∧
      ∀ n vm' pc, after helpers (resume (vm.enter ctx) 0) n = .running vm' pc →
        (∃ fault, step helpers (.running vm' pc) = .halted (.error fault)) ∨
        (∃ value, step helpers (.running vm' pc) = .halted (.ok value) ∧
          isExit (decodeInstruction (program.getD pc 0)) = true) ∨
        ∃ vm'' pc', step helpers (.running vm' pc) = .running vm'' pc' ∧
          Passes program pc pc' := by
  obtain ⟨successors, inStates, reachable, hacc, hreach, hanalysed⟩ := verifyProgram_eq_ok hv
  obtain ⟨hall, hreach⟩ := rejectUnless_bind.mp hreach
  obtain ⟨-, hreach⟩ := rejectUnless_bind.mp hreach
  obtain ⟨hexits, hreach⟩ := rejectUnless_bind.mp hreach
  cases hreach
  have hmarked (pc : ℕ) (hpc : pc < program.length) :
      (verifierReachableMask successors).getD pc false = true := by
    have hlen : pc < (verifierReachableMask successors).length := by
      rwa [verifierReachableMask, length_markFrom, length_replicate, hacc.length_successors]
    rw [getD_eq_getElem _ _ hlen]
    exact all_eq_true.mp hall _ (getElem_mem hlen)
  have hstates (pc : ℕ) (hpc : pc < program.length) : (inStates pc).isSome = true := by
    have := all_eq_true.mp hanalysed pc (by simpa using hpc)
    rwa [hmarked pc hpc] at this
  refine ⟨fun pc hpc => ⟨reach_of_mask hacc hstates (hmarked pc hpc), ?_⟩, ?_⟩
  · have hexit := all_eq_true.mp hexits pc (by simpa using hpc)
    rw [hmarked pc hpc] at hexit
    obtain ⟨last, hlast, hpath⟩ := exit_of_mask hacc hstates hexit
    obtain ⟨hlt, hisExit⟩ := mem_filter.mp hlast
    rw [List.getD_map, Bool.and_eq_true] at hisExit
    exact ⟨last, by simpa using hlt, hisExit.2, hpath⟩
  · rintro vm helpers ctx rfl
    refine ⟨if_pos hacc.nonempty, fun n vm' pc hrun => ?_⟩
    have hsrc : ∀ raw ∈ (vm.enter ctx).program, (decodeInstruction raw).src ≤ 10 := hacc.src_le
    obtain ⟨hprogram, -, hpc⟩ := after_forward helpers hsrc n vm' pc hrun
    have hprogram' : vm'.program = vm.program := hprogram
    obtain ⟨state, hstate⟩ := isSome_iff_exists.mp (hstates pc hpc)
    obtain ⟨next, han⟩ := hacc.analysed (hacc.inStates_eq ▸ hstate)
    rw [← hprogram'] at han ⊢
    exact follow_execInsn han

theorem twoBranches_on_path_to_exit :
    verifyProgram Machine.twoBranches = .ok () ∧
      Relation.ReflTransGen (Passes Machine.twoBranches) 0 4 :=
  ⟨by decide +kernel, ((accepted_on_path_to_exit _ (by decide +kernel)).1 4 (by decide)).1⟩

end EchOS.Net.Ebpf
