import EchOS.Ebpf.Walk

/-! Where an instruction of the machine leads, and how it may fail. -/

namespace EchOS.Ebpf

open Except

open Fallible (bind_eq_ok Avoids avoids_ok avoids_error)

/-- The failures that acceptance is meant to exclude. -/
def Fault.misstep : Fault → Bool
  | .panic | .error (.invalidRegister _) | .error (.unreachableInstruction _) => true
  | .error _ => false

namespace BpfVm

variable {vm vm' : BpfVm} {insn : BpfInsn} {program : List BpfInsn} {w size : ℕ}
  {value addr : BitVec 64}

/-- The machine goes on behind the instruction, with another register file or stack at most. -/
structure Falls (insn : BpfInsn) (vm vm' : BpfVm) : Prop where
  pc : vm'.pc = vm.pc + insn.width
  steps : vm'.steps = vm.steps
  running : vm'.running = vm.running

structure Jumps (program : List BpfInsn) (insn : BpfInsn) (vm vm' : BpfVm) : Prop where
  isJump : insn.isJump = true
  pc : (vm'.pc : ℤ) = BpfVerifier.target vm.pc insn
  bound : vm'.pc < program.length
  steps : vm'.steps = vm.steps
  running : vm'.running = vm.running

structure Stops (vm vm' : BpfVm) : Prop where
  pc : vm'.pc = vm.pc
  steps : vm'.steps = vm.steps
  running : vm'.running = false

def Follows (program : List BpfInsn) (insn : BpfInsn) (vm vm' : BpfVm) : Prop :=
  Falls insn vm vm' ∨ Jumps program insn vm vm' ∨ Stops vm vm'

theorem width_eq_one (h : insn.cls ≠ .ld) : insn.width = 1 := by
  unfold BpfInsn.width BpfInsn.isLddw
  rw [if_neg (by simp [h])]

theorem falls_setReg_next (h : insn.cls ≠ .ld) (r : ℕ) (value : BitVec 64) :
    Falls insn vm (vm.setReg r value).next :=
  ⟨by rw [width_eq_one h]; rfl, rfl, rfl⟩

theorem execAlu64_falls (hcls : insn.cls = .alu64) (h : vm.execAlu64 insn = .ok vm') :
    Falls insn vm vm' := by
  have hld : insn.cls ≠ .ld := by simp [hcls]
  obtain ⟨_, _, h⟩ := bind_eq_ok.mp h
  obtain ⟨srcVal, _, h⟩ := bind_eq_ok.mp h
  split at h
  · cases h
  · split_ifs at h
    all_goals
      cases h
      exact falls_setReg_next hld _ _
  · split_ifs at h
    cases h
    exact falls_setReg_next hld _ _

theorem execAlu32_falls (hcls : insn.cls = .alu) (h : vm.execAlu32 insn = .ok vm') :
    Falls insn vm vm' := by
  have hld : insn.cls ≠ .ld := by simp [hcls]
  obtain ⟨_, _, h⟩ := bind_eq_ok.mp h
  obtain ⟨srcVal, _, h⟩ := bind_eq_ok.mp h
  dsimp only at h
  split at h
  · cases h
  · cases h
  · split_ifs at h
    cases h
    exact falls_setReg_next hld _ _

theorem jumpTo_jumps (hshort : program.length ≤ bpfMaxInsns) (hjump : insn.isJump = true)
    (hpc : vm.pc < program.length) (h : vm.jumpTo insn program.length = .ok vm') :
    Jumps program insn vm vm' := by
  unfold jumpTo at h
  dsimp only at h
  split_ifs at h with hbound
  cases h
  have hmax : bpfMaxInsns = 4096 := rfl
  have hoff := insn.off.toInt_lt
  have hoff' := BitVec.le_toInt insn.off
  constructor
  · exact hjump
  · show ((jumpTarget vm.pc insn.off : ℕ) : ℤ) = vm.pc + 1 + insn.off.toInt
    unfold jumpTarget at hbound ⊢
    omega
  · exact Nat.not_le.mp hbound
  · rfl
  · rfl

theorem isJump_of_compares (hcls : insn.cls = .jmp ∨ insn.cls = .jmp32)
    {d r : BitVec w} {taken : Bool}
    (h : (insn.jmpOp.bind fun op => compares op d r) = some taken) : insn.isJump = true := by
  obtain ⟨op, hop, hcompares⟩ := Option.bind_eq_some_iff.mp h
  have hexit : op ≠ .exit := by
    rintro rfl
    cases hcompares
  have hcall : op ≠ .call := by
    rintro rfl
    cases hcompares
  simp [BpfInsn.isJump, hcls, hop, hexit, hcall]

theorem branch_follows (hshort : program.length ≤ bpfMaxInsns)
    (hcls : insn.cls = .jmp ∨ insn.cls = .jmp32) (hpc : vm.pc < program.length)
    (h : vm.branch insn program.length w = .ok vm') : Follows program insn vm vm' := by
  obtain ⟨dstVal, _, h⟩ := bind_eq_ok.mp h
  obtain ⟨srcVal, _, h⟩ := bind_eq_ok.mp h
  split at h
  · cases h
  · rename_i htaken
    have hjump := isJump_of_compares hcls htaken
    exact .inr (.inl (jumpTo_jumps hshort hjump hpc h))
  · cases h
    have hld : insn.cls ≠ .ld := by
      intro hld
      simp [hld] at hcls
    exact .inl ⟨by rw [width_eq_one hld]; rfl, rfl, rfl⟩

theorem execJmp_follows (hshort : program.length ≤ bpfMaxInsns) (hcls : insn.cls = .jmp)
    (hpc : vm.pc < program.length) (h : vm.execJmp insn program.length = .ok vm') :
    Follows program insn vm vm' := by
  have hld : insn.cls ≠ .ld := by simp [hcls]
  unfold execJmp at h
  split at h
  · cases h
    exact .inr (.inr ⟨rfl, rfl, rfl⟩)
  · split at h
    · cases h
      exact .inl (falls_setReg_next hld _ _)
    · cases h
  · rename_i hop
    have hjump : insn.isJump = true := by simp [BpfInsn.isJump, hcls, hop]
    exact .inr (.inl (jumpTo_jumps hshort hjump hpc h))
  · exact branch_follows hshort (.inl hcls) hpc h

theorem store_falls (hcls : insn.cls ≠ .ld)
    (h : (do let vm ← vm.stackWrite addr size value; return vm.next) = Except.ok vm') :
    Falls insn vm vm' := by
  obtain ⟨stored, hstore, h⟩ := bind_eq_ok.mp h
  obtain ⟨_, -, hstore⟩ := bind_eq_ok.mp hstore
  cases hstore
  cases h
  exact ⟨by rw [width_eq_one hcls]; rfl, rfl, rfl⟩

theorem execLdx_falls (hcls : insn.cls = .ldx) (h : vm.execLdx insn = .ok vm') :
    Falls insn vm vm' := by
  obtain ⟨_, _, h⟩ := bind_eq_ok.mp h
  obtain ⟨_, _, h⟩ := bind_eq_ok.mp h
  obtain ⟨value, _, h⟩ := bind_eq_ok.mp h
  cases h
  exact falls_setReg_next (by simp [hcls]) _ _

theorem execStx_falls (hcls : insn.cls = .stx) (h : vm.execStx insn = .ok vm') :
    Falls insn vm vm' := by
  have hld : insn.cls ≠ .ld := by simp [hcls]
  obtain ⟨_, _, h⟩ := bind_eq_ok.mp h
  obtain ⟨_, _, h⟩ := bind_eq_ok.mp h
  split_ifs at h
  · obtain ⟨old, _, h⟩ := bind_eq_ok.mp h
    exact store_falls hld h
  · exact store_falls hld h

theorem execLd_falls (hcls : insn.cls = .ld) (h : vm.execLd insn program = .ok vm') :
    Falls insn vm vm' := by
  obtain ⟨_, _, h⟩ := bind_eq_ok.mp h
  split_ifs at h with hsize
  split at h
  · cases h
  · cases h
    have hwidth : insn.width = 2 := by simp [BpfInsn.width, BpfInsn.isLddw, hcls, hsize]
    exact ⟨by rw [hwidth]; rfl, rfl, rfl⟩

theorem execInsn_follows (hshort : program.length ≤ bpfMaxInsns) (hpc : vm.pc < program.length)
    (h : vm.execInsn program insn = .ok vm') : Follows program insn vm vm' := by
  unfold execInsn at h
  split at h
  case h_1 hcls => exact .inl (execAlu64_falls hcls h)
  case h_2 hcls => exact .inl (execAlu32_falls hcls h)
  case h_3 hcls => exact execJmp_follows hshort hcls hpc h
  case h_4 hcls => exact branch_follows hshort (.inr hcls) hpc h
  case h_5 hcls => exact .inl (execLdx_falls hcls h)
  case h_6 hcls =>
    obtain ⟨_, _, h⟩ := bind_eq_ok.mp h
    exact .inl (store_falls (by simp [hcls]) h)
  case h_7 hcls => exact .inl (execStx_falls hcls h)
  case h_8 hcls => exact .inl (execLd_falls hcls h)

/-- What the verifier leaves open about an instruction: the source of a load or a store, the
destination of a load, the place behind a two-slot load, and that a jump lands where the
verifier looks. -/
structure Regular (program : List BpfInsn) (i : ℕ) (insn : BpfInsn) : Prop where
  src : insn.cls = .ldx ∨ insn.cls = .stx → insn.srcReg < bpfRegCount
  dst : insn.cls = .ldx ∨ insn.cls = .ld → insn.dstReg ≠ bpfRegFp
  slot : insn.isLddw = true → i + 2 < program.length
  lands : insn.isJump = true → (BpfVerifier.target i insn).toNat ∈ BpfVerifier.visits program

/-- An instruction leaves the step limit to the loop, and if it is a good one it does not fail in
one of the ways that acceptance is meant to exclude. -/
abbrev Sound (good : Prop) {α : Type} (x : Except Fault α) : Prop :=
  Avoids (fun fault => fault = .error .exceededStepLimit ∨ good ∧ fault.misstep = true) x

section Operand

variable {good : Prop} {r : ℕ}

theorem sound_excluded {α : Type} {fault : Fault} (hlimit : fault ≠ .error .exceededStepLimit)
    (h : ¬ good) : Sound good (.error fault : Except Fault α) :=
  avoids_error (by simp [hlimit, h])

theorem sound_checkDst (hreg : good → r < bpfRegCount) (hfp : good → r ≠ bpfRegFp) :
    Sound good (checkDst r) := by
  unfold checkDst
  split_ifs with hbad
  · refine sound_excluded (by simp) fun hgood => ?_
    have := hreg hgood
    have := hfp hgood
    omega
  · exact avoids_ok _

theorem sound_checkSrc (h : good → r < bpfRegCount) : Sound good (checkSrc r) := by
  unfold checkSrc
  split_ifs with hbad
  · exact sound_excluded (by simp) fun hgood => absurd (h hgood) (Nat.not_lt.mpr hbad)
  · exact avoids_ok _

theorem sound_reg (h : good → r < bpfRegCount) : Sound good (vm.reg r) := by
  unfold reg
  split_ifs with hreg
  · exact avoids_ok _
  · exact sound_excluded (by simp) fun hgood => hreg (h hgood)

theorem sound_checkStackBounds (offset : BitVec 64) (size : ℕ) :
    Sound good (checkStackBounds offset size) := by
  unfold checkStackBounds
  split_ifs
  · exact avoids_error (by simp [Fault.misstep])
  · exact avoids_ok _

theorem sound_stackRead (addr : BitVec 64) (size : ℕ) : Sound good (vm.stackRead addr size) :=
  (sound_checkStackBounds addr size).bind fun _ _ => avoids_ok _

theorem sound_store (addr : BitVec 64) (size : ℕ) (value : BitVec 64) :
    Sound good (do let vm ← vm.stackWrite addr size value; return vm.next) := by
  apply Avoids.bind
  · exact (sound_checkStackBounds addr size).bind fun _ _ => avoids_ok _
  · exact fun _ _ => avoids_ok _

end Operand

section Instruction

variable {good : Prop} (hchecked : good → BpfVerifier.Checked program.length vm.pc insn)
  (hregular : good → Regular program vm.pc insn)

include hchecked

theorem sound_aluOperand : Sound good (vm.aluOperand insn) := by
  unfold aluOperand
  split_ifs with huses
  · apply (sound_checkSrc fun hgood => (hchecked hgood).src huses).bind
    exact fun _ _ => avoids_ok _
  · exact avoids_ok _

theorem sound_execAlu64 (hcls : insn.cls = .alu64) : Sound good (vm.execAlu64 insn) := by
  apply (sound_checkDst (fun hgood => (hchecked hgood).dst)
    fun hgood => (hchecked hgood).fp (.inr hcls)).bind
  intro _ _
  apply (sound_aluOperand hchecked).bind
  intro srcVal _
  split
  · exact avoids_error (by simp [Fault.misstep])
  · split_ifs
    all_goals first
      | exact avoids_ok _
      | exact avoids_error (by simp [Fault.misstep])
  · split_ifs
    · exact avoids_error (by simp [Fault.misstep])
    · exact avoids_ok _

theorem sound_execAlu32 (hcls : insn.cls = .alu) : Sound good (vm.execAlu32 insn) := by
  apply (sound_checkDst (fun hgood => (hchecked hgood).dst)
    fun hgood => (hchecked hgood).fp (.inl hcls)).bind
  intro _ _
  apply (sound_aluOperand hchecked).bind
  intro srcVal _
  dsimp only
  split
  · exact avoids_error (by simp [Fault.misstep])
  · exact avoids_error (by simp [Fault.misstep])
  · split_ifs
    · exact avoids_error (by simp [Fault.misstep])
    · exact avoids_ok _

theorem sound_jmpOperand : Sound good (vm.jmpOperand insn) := by
  unfold jmpOperand
  split_ifs with huses
  · exact sound_reg fun hgood => (hchecked hgood).src huses
  · exact avoids_ok _

theorem sound_jumpTo (hjump : insn.isJump = true) : Sound good (vm.jumpTo insn program.length) := by
  unfold jumpTo
  dsimp only
  split_ifs with hbound
  · refine sound_excluded (by simp) fun hgood => ?_
    have htarget := (hchecked hgood).jump hjump
    unfold BpfVerifier.target at htarget
    unfold jumpTarget at hbound
    omega
  · exact avoids_ok _

theorem sound_branch (hcls : insn.cls = .jmp ∨ insn.cls = .jmp32) (w : ℕ) :
    Sound good (vm.branch insn program.length w) := by
  apply (sound_reg fun hgood => (hchecked hgood).dst).bind
  intro dstVal _
  apply (sound_jmpOperand hchecked).bind
  intro srcVal _
  split
  · exact avoids_error (by simp [Fault.misstep])
  · rename_i htaken
    exact sound_jumpTo hchecked (isJump_of_compares hcls htaken)
  · exact avoids_ok _

theorem sound_execJmp (hcls : insn.cls = .jmp) : Sound good (vm.execJmp insn program.length) := by
  unfold execJmp
  split
  · exact avoids_ok _
  · split
    · exact avoids_ok _
    · exact avoids_error (by simp [Fault.misstep])
  · rename_i hop
    exact sound_jumpTo hchecked (by simp [BpfInsn.isJump, hcls, hop])
  · exact sound_branch hchecked (.inl hcls) 64

include hregular

theorem sound_execLdx (hcls : insn.cls = .ldx) : Sound good (vm.execLdx insn) := by
  apply (sound_checkDst (fun hgood => (hchecked hgood).dst)
    fun hgood => (hregular hgood).dst (.inl hcls)).bind
  intro _ _
  apply (sound_checkSrc fun hgood => (hregular hgood).src (.inl hcls)).bind
  intro _ _
  exact (sound_stackRead _ _).bind fun _ _ => avoids_ok _

theorem sound_execStx (hcls : insn.cls = .stx) : Sound good (vm.execStx insn) := by
  apply (sound_checkSrc fun hgood => (hchecked hgood).dst).bind
  intro _ _
  apply (sound_checkSrc fun hgood => (hregular hgood).src (.inr hcls)).bind
  intro _ _
  split_ifs
  · exact (sound_stackRead _ _).bind fun _ _ => sound_store _ _ _
  · exact sound_store _ _ _

theorem sound_execLd (hcls : insn.cls = .ld) : Sound good (vm.execLd insn program) := by
  apply (sound_checkDst (fun hgood => (hchecked hgood).dst)
    fun hgood => (hregular hgood).dst (.inr hcls)).bind
  intro _ _
  split_ifs with hsize
  · split
    · rename_i hnone
      refine sound_excluded (by simp) fun hgood => ?_
      have hslot := (hregular hgood).slot (by simp [BpfInsn.isLddw, hcls, hsize])
      have hend := List.getElem?_eq_none_iff.mp hnone
      omega
    · exact avoids_ok _
  · exact avoids_error (by simp [Fault.misstep])

theorem sound_execInsn : Sound good (vm.execInsn program insn) := by
  unfold execInsn
  split
  case h_1 hcls => exact sound_execAlu64 hchecked hcls
  case h_2 hcls => exact sound_execAlu32 hchecked hcls
  case h_3 hcls => exact sound_execJmp hchecked hcls
  case h_4 hcls => exact sound_branch hchecked (.inr hcls) 32
  case h_5 hcls => exact sound_execLdx hchecked hregular hcls
  case h_6 =>
    refine (sound_checkSrc fun hgood => (hchecked hgood).dst).bind fun _ _ => ?_
    exact sound_store _ _ _
  case h_7 hcls => exact sound_execStx hchecked hregular hcls
  case h_8 hcls => exact sound_execLd hchecked hregular hcls

end Instruction

end BpfVm

end EchOS.Ebpf
