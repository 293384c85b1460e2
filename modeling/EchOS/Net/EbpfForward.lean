import Mathlib.Data.List.GetD
import EchOS.Net.EbpfVerifier

/-! Accepted eBPF programs only move forward. The source register and the high byte of the
jump offset are the same bits of an instruction, so the bound on register numbers leaves no
backward jump, and the interpreter ends within the length of the program. -/

namespace EchOS.Net.Ebpf

open Fallible List

theorem off_nonneg_of_src_le {insn : BitVec 64} (h : (decodeInstruction insn).src ≤ 10) :
    0 ≤ (decodeInstruction insn).off := by
  have hsrc : insn.toNat / 2 ^ 40 % 2 ^ 8 ≤ 10 := by
    simpa [decodeInstruction, BitVec.toNat_setWidth, Nat.shiftRight_eq_div_pow] using h
  have hoff : (((insn >>> 32).setWidth 16).toNat) = insn.toNat / 2 ^ 32 % 2 ^ 16 := by
    simp [BitVec.toNat_setWidth, Nat.shiftRight_eq_div_pow]
  change 0 ≤ ((insn >>> 32).setWidth 16).toInt
  rw [BitVec.toInt_eq_toNat_cond]
  omega

namespace EbpfVm

variable {vm vm' : EbpfVm} {insn : DecodedInsn} {helpers : Helpers} {flow : Flow} {pc : ℕ}

theorem setReg_program {r : ℕ} {v : BitVec 64}
    (h : vm.setReg r v = .ok vm') : vm'.program = vm.program := by
  unfold setReg at h
  split_ifs at h
  cases h
  rfl

theorem aluStep_program {op : AluOp}
    (h : vm.aluStep insn op = .ok vm') : vm'.program = vm.program := by
  unfold aluStep at h
  -- every operation reads an operand first
  split at h <;> obtain ⟨_, -, h⟩ := bind_eq_ok.mp h
  · exact setReg_program h
  · exact setReg_program h
  · split_ifs at h
    obtain ⟨_, -, h⟩ := bind_eq_ok.mp h
    exact setReg_program h
  · split_ifs at h
    obtain ⟨_, -, h⟩ := bind_eq_ok.mp h
    exact setReg_program h
  · obtain ⟨_, -, h⟩ := bind_eq_ok.mp h
    exact setReg_program h

theorem builtinCall_program {funcId : ℤ}
    {r : EbpfVm × BitVec 64} (h : vm.builtinCall helpers funcId = .ok r) :
    r.1.program = vm.program := by
  unfold builtinCall at h
  split_ifs at h
  · obtain ⟨_, -, h⟩ := bind_eq_ok.mp h
    split at h <;> cases h <;> rfl
  · obtain ⟨_, -, h⟩ := bind_eq_ok.mp h
    obtain ⟨_, -, h⟩ := bind_eq_ok.mp h
    split_ifs at h <;> cases h <;> rfl
  · obtain ⟨_, -, h⟩ := bind_eq_ok.mp h
    split_ifs at h <;> cases h <;> rfl
  all_goals
    cases h
    rfl

/-- An instruction changes no program, and passes control to the next place, to one after
it, or to the target of its jump. -/
def Flow.Forward (vm : EbpfVm) (pc : ℕ) (insn : DecodedInsn) : Flow → Prop
  | .next vm' pc' => vm'.program = vm.program ∧ pc ≤ pc'
  | .jump vm' target =>
    vm'.program = vm.program ∧ checkedJumpTarget pc insn.off vm.program.length = some target
  | .ret _ => True

theorem jumpTo_forward (h : vm.jumpTo pc insn.off = .ok flow) : flow.Forward vm pc insn := by
  unfold jumpTo at h
  split at h
  · cases h
    exact ⟨rfl, ‹_›⟩
  · simp at h

theorem jmpStep_forward {op : JmpOp} (h : vm.jmpStep helpers pc insn op = .ok flow) :
    flow.Forward vm pc insn := by
  unfold jmpStep at h
  split at h
  · exact jumpTo_forward h
  · obtain ⟨r, hcall, h⟩ := bind_eq_ok.mp h
    obtain ⟨vm', hset, h⟩ := bind_eq_ok.mp h
    cases h
    exact ⟨(setReg_program hset).trans (builtinCall_program hcall), Nat.le_refl pc⟩
  · cases h
    trivial
  · obtain ⟨_, -, h⟩ := bind_eq_ok.mp h
    obtain ⟨_, -, h⟩ := bind_eq_ok.mp h
    split_ifs at h
    · exact jumpTo_forward h
    · cases h
      exact ⟨rfl, Nat.le_refl pc⟩

theorem execInsn_forward
    (h : vm.execInsn helpers pc insn = .ok flow) : flow.Forward vm pc insn := by
  unfold execInsn at h
  split at h
  · cases h
    refine ⟨?_, Nat.le_succ pc⟩
    unfold ldStep
    split_ifs <;> rfl
  · split at h
    · obtain ⟨vm', halu, h⟩ := bind_eq_ok.mp h
      cases h
      exact ⟨aluStep_program halu, Nat.le_refl pc⟩
    · simp at h
  · obtain ⟨_, -, h⟩ := bind_eq_ok.mp h
    obtain ⟨_, -, h⟩ := bind_eq_ok.mp h
    obtain ⟨vm', hset, h⟩ := bind_eq_ok.mp h
    cases h
    exact ⟨setReg_program hset, Nat.le_refl pc⟩
  · obtain ⟨_, -, h⟩ := bind_eq_ok.mp h
    obtain ⟨_, -, h⟩ := bind_eq_ok.mp h
    obtain ⟨vm', hwrite, h⟩ := bind_eq_ok.mp h
    cases h
    obtain ⟨_, -, hwrite⟩ := bind_eq_ok.mp hwrite
    cases hwrite
    exact ⟨rfl, Nat.le_refl pc⟩
  · split at h
    · exact jmpStep_forward h
    · simp at h
  · simp at h

end EbpfVm

/-- What an accepted program has passed: the checks of every instruction, the control-flow
graph and the analysis. -/
structure Accepted (program : List (BitVec 64)) (successors : List Successors)
    (inStates : ℕ → Option VerifierState) : Prop where
  nonempty : 0 < program.length
  length_le : program.length ≤ bpfMaxInsns
  checked : ∀ insn ∈ program.map decodeInstruction, verifierCheckInsn insn = .ok ()
  graph : verifierBuildCfgSuccessors (program.map decodeInstruction) = .ok successors
  solved : Worklist.solve (verifierAnalysis (program.map decodeInstruction) successors)
    verifierComplexityLimit (fun _ => none) [(0, .entry)] = .ok inStates

theorem rejectUnless_eq_ok {b : Bool} : rejectUnless b = .ok () ↔ b = true := by
  unfold rejectUnless
  split_ifs with h <;> simp [h]

theorem rejectUnless_bind {α : Type} {b : Bool} {f : Unit → Except EbpfError α} {a : α} :
    (rejectUnless b >>= f) = .ok a ↔ b = true ∧ f () = .ok a := by
  rw [bind_eq_ok]
  constructor
  · rintro ⟨⟨⟩, hb, hf⟩
    exact ⟨rejectUnless_eq_ok.mp hb, hf⟩
  · rintro ⟨hb, hf⟩
    exact ⟨(), rejectUnless_eq_ok.mpr hb, hf⟩

variable {program : List (BitVec 64)}

theorem verifyProgram_eq_ok (h : verifyProgram program = .ok ()) :
    ∃ successors inStates reachable, Accepted program successors inStates ∧
      verifierCheckReachability (program.map decodeInstruction) successors = .ok reachable ∧
      ((range (program.map decodeInstruction).length).all fun pc =>
        !reachable.getD pc false || (inStates pc).isSome) = true := by
  obtain ⟨hlen, h⟩ := rejectUnless_bind.mp h
  obtain ⟨⟨⟩, hchecked, h⟩ := bind_eq_ok.mp h
  obtain ⟨successors, hgraph, h⟩ := bind_eq_ok.mp h
  obtain ⟨reachable, hreachable, h⟩ := bind_eq_ok.mp h
  obtain ⟨inStates, hsolved, hstates⟩ := bind_eq_ok.mp h
  rw [Bool.and_eq_true, decide_eq_true_eq] at hlen
  refine ⟨successors, inStates, reachable,
    ⟨?_, hlen.2, forM_eq_ok.mp hchecked, hgraph, hsolved⟩, hreachable,
    rejectUnless_eq_ok.mp hstates⟩
  cases program with
  | nil => exact absurd hlen.1 (by simp)
  | cons raw rest => exact Nat.succ_pos _

theorem accepted_of_verifyProgram (h : verifyProgram program = .ok ()) :
    ∃ successors inStates, Accepted program successors inStates := by
  obtain ⟨successors, inStates, _, hacc, -⟩ := verifyProgram_eq_ok h
  exact ⟨successors, inStates, hacc⟩

theorem registers_le_of_check {insn : DecodedInsn} (h : verifierCheckInsn insn = .ok ()) :
    insn.dst ≤ 10 ∧ insn.src ≤ 10 := by
  obtain ⟨⟨⟩, hbounds, -⟩ := bind_eq_ok.mp h
  unfold verifierCheckRegisterBounds at hbounds
  split_ifs at hbounds with hb
  omega

theorem Accepted.src_le {successors : List Successors} {inStates : ℕ → Option VerifierState}
    (h : Accepted program successors inStates) :
    ∀ raw ∈ program, (decodeInstruction raw).src ≤ 10 := fun _ hraw =>
  (registers_le_of_check (h.checked _ (mem_map_of_mem hraw))).2

namespace Machine

theorem step_forward {helpers : Helpers} {vm vm' : EbpfVm} {pc pc' : ℕ}
    (hsrc : ∀ raw ∈ vm.program, (decodeInstruction raw).src ≤ 10) (hpc : pc < vm.program.length)
    (h : step helpers (.running vm pc) = .running vm' pc') :
    vm'.program = vm.program ∧ pc < pc' ∧ pc' < vm.program.length := by
  simp only [step] at h
  have hraw : vm.program.getD pc 0 ∈ vm.program := by
    rw [getD_eq_getElem _ _ hpc]
    exact getElem_mem hpc
  have hoff := off_nonneg_of_src_le (hsrc _ hraw)
  cases hexec : EbpfVm.execInsn _ helpers pc (decodeInstruction (vm.program.getD pc 0)) with
  | error fault =>
    rw [hexec] at h
    exact absurd h (by simp [follow])
  | ok flow =>
    have hflow := EbpfVm.execInsn_forward hexec
    rw [hexec] at h
    cases flow with
    | ret value => exact absurd h (by simp [follow])
    | jump vm₁ target =>
      obtain ⟨hprog, htarget⟩ := hflow
      simp only [follow, resume] at h
      split_ifs at h with hlt
      cases h
      simp only [checkedJumpTarget, Option.ite_none_left_eq_some, Option.some.injEq] at htarget
      exact ⟨hprog, by omega, hprog ▸ hlt⟩
    | next vm₁ pc₁ =>
      obtain ⟨hprog, hle⟩ := hflow
      simp only [follow, resume] at h
      split_ifs at h with hcount hlt
      cases h
      exact ⟨hprog, Nat.lt_succ_of_le hle, hprog ▸ hlt⟩

theorem after_forward (helpers : Helpers) {vm : EbpfVm}
    (hsrc : ∀ raw ∈ vm.program, (decodeInstruction raw).src ≤ 10) (n : ℕ) (vm' : EbpfVm)
    (pc : ℕ) (h : after helpers (resume vm 0) n = .running vm' pc) :
    vm'.program = vm.program ∧ n ≤ pc ∧ pc < vm.program.length := by
  induction n generalizing vm' pc with
  | zero =>
    simp only [after, resume] at h
    split_ifs at h with hlt
    cases h
    exact ⟨rfl, Nat.le_refl _, hlt⟩
  | succ n ih =>
    rw [after] at h
    cases hm : after helpers (resume vm 0) n with
    | halted result =>
      rw [hm] at h
      exact absurd h (by simp [step])
    | running vm₁ pc₁ =>
      rw [hm] at h
      obtain ⟨hprog, hle, hlt⟩ := ih vm₁ pc₁ hm
      obtain ⟨hprog', hpc, hlt'⟩ := step_forward (hprog.symm ▸ hsrc) (hprog.symm ▸ hlt) h
      exact ⟨hprog'.trans hprog, by omega, hprog ▸ hlt'⟩

/-- The interpreter returns on every accepted program and every context, on a machine that
may have run before, within the instruction limit. -/
theorem interpreter_returns (vm : EbpfVm) (hv : verifyProgram vm.program = .ok ())
    (helpers : Helpers) (ctx : BitVec 64) :
    ∃ result, after helpers (resume (vm.enter ctx) 0) (instructionLimit + 1) =
      .halted result := by
  obtain ⟨successors, inStates, hacc⟩ := accepted_of_verifyProgram hv
  have hsrc : ∀ raw ∈ (vm.enter ctx).program, (decodeInstruction raw).src ≤ 10 := hacc.src_le
  have hforward := after_forward helpers hsrc (instructionLimit + 1)
  cases hm : after helpers (resume (vm.enter ctx) 0) (instructionLimit + 1) with
  | halted result => exact ⟨result, rfl⟩
  | running vm' pc =>
    obtain ⟨-, hle, hlt⟩ := hforward vm' pc hm
    have hlen : pc < vm.program.length := hlt
    have hmax := hacc.length_le
    simp only [instructionLimit, bpfMaxInsns] at hle hmax
    omega

/-- Two conditional jumps over arithmetic on R0, both taken forward. -/
def twoBranches : List (BitVec 64) :=
  [0xb400000000000002, 0x1500000200000001, 0xb400000000000003, 0x1500000100000003,
    0x0400000000000008, 0x9500000000000000]

theorem interpreter_returns_twoBranches :
    verifyProgram twoBranches = .ok () ∧ ∃ result, after .noMaps
      (resume ((EbpfVm.new twoBranches).enter 0) 0) (instructionLimit + 1) = .halted result :=
  ⟨by decide +kernel, interpreter_returns (.new twoBranches) (by decide +kernel) .noMaps 0⟩

end Machine

end EchOS.Net.Ebpf
