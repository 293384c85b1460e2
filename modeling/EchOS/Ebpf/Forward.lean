import EchOS.Ebpf.Safe

/-! Accepted programs without a backward jump run each instruction at most once. -/

namespace EchOS.Ebpf

open BpfVerifier (visits verify accepted_of_verify visits_next)

namespace BpfVm

variable {program : List BpfInsn} {insn : BpfInsn} {vm vm' : BpfVm}

/-- What the verifier leaves open about a jump: an unconditional one goes forward, and each
lands where the verifier looks. -/
structure Onward (program : List BpfInsn) (i : ℕ) (insn : BpfInsn) : Prop where
  forward : insn.isJump = true → insn.jmpOp = some .ja → 0 ≤ insn.off.toInt
  lands : insn.isJump = true → (BpfVerifier.target i insn).toNat ∈ visits program

instance (program : List BpfInsn) (i : ℕ) (insn : BpfInsn) : Decidable (Onward program i insn) :=
  decidable_of_iff
    ((insn.isJump = true → insn.jmpOp = some .ja → 0 ≤ insn.off.toInt) ∧
      (insn.isJump = true → (BpfVerifier.target i insn).toNat ∈ visits program))
    ⟨fun h => ⟨h.1, h.2⟩, fun h => ⟨h.forward, h.lands⟩⟩

def AllOnward (program : List BpfInsn) : Prop :=
  ∀ i insn, i ∈ visits program → program[i]? = some insn → Onward program i insn

instance (program : List BpfInsn) : Decidable (AllOnward program) :=
  decidable_of_iff (∀ i ∈ visits program, ∀ insn ∈ program[i]?, Onward program i insn)
    ⟨fun h i insn hi hinsn => h i hi insn hinsn, fun h i hi insn hinsn => h i insn hi hinsn⟩

/-- No more steps than slots passed, and a machine that runs inside the program is where the
verifier has looked. -/
structure Ahead (program : List BpfInsn) (vm : BpfVm) : Prop where
  steps_le : vm.steps ≤ program.length
  steps_pc : vm.running = true → vm.steps ≤ vm.pc
  placed : vm.running = true → vm.pc < program.length → vm.pc ∈ visits program

theorem Goes.ahead (haccepted : BpfVerifier.Accepted program) (honward : AllOnward program)
    (hgoes : Goes program insn vm vm') (hahead : Ahead program vm) : Ahead program vm' := by
  have hpc : vm.pc < program.length := (List.getElem?_eq_some_iff.mp hgoes.fetched).1
  have hvisited := hahead.placed hgoes.running hpc
  have hinsn := honward vm.pc insn hvisited hgoes.fetched
  have hchecked := haccepted.checked vm.pc insn hvisited hgoes.fetched
  have hsteps := hgoes.steps_eq haccepted.short
  have hless := hahead.steps_pc hgoes.running
  have hbound : vm'.steps ≤ program.length := by omega
  rcases hgoes.follows haccepted.short with hfalls | hjumps | hstops
  · have hnext : vm'.pc = vm.pc + insn.width := hfalls.pc
    have hwidth := insn.width_pos
    constructor
    · exact hbound
    · intro _
      omega
    · intro _ hinside
      rw [hnext] at hinside ⊢
      exact visits_next hvisited hgoes.fetched hinside
  · have htarget : (vm'.pc : ℤ) = vm.pc + 1 + insn.off.toInt := hjumps.pc
    have hforward : 0 ≤ insn.off.toInt := by
      by_cases hja : insn.jmpOp = some .ja
      · exact hinsn.forward hjumps.isJump hja
      · exact hchecked.forward hjumps.isJump hja
    constructor
    · exact hbound
    · intro _
      omega
    · intro _ _
      have hlands := hinsn.lands hjumps.isJump
      unfold BpfVerifier.target at hlands
      rwa [← htarget] at hlands
  · have hstopped : ¬vm'.running = true := by simp [hstops.running]
    exact ⟨hbound, fun hrunning => absurd hrunning hstopped,
      fun hrunning => absurd hrunning hstopped⟩

theorem Ends.within_length (haccepted : BpfVerifier.Accepted program) (hahead : Ahead program vm)
    {result : Except Fault (BitVec 64)} (hends : Ends program vm result vm') :
    vm'.steps ≤ program.length ∧ result ≠ .error (.error .exceededStepLimit) := by
  cases hends with
  | stopped | outside => exact ⟨hahead.steps_le, nofun⟩
  | limit hrunning hpc hsteps =>
    have hless := hahead.steps_pc hrunning
    have hshort := haccepted.short
    have hmax : bpfMaxInsns < bpfMaxSteps := by decide
    omega
  | @fault insn fault hrunning hinsn hexec =>
    have hless := hahead.steps_pc hrunning
    have hpc := (List.getElem?_eq_some_iff.mp hinsn).1
    constructor
    · show vm.steps + 1 ≤ program.length
      omega
    · intro hlimit
      have hsound : Sound False (vm.tick.execInsn program insn) :=
        sound_execInsn False.elim False.elim
      exact hsound _ hexec (.inl (Except.error.inj hlimit))

/-- An accepted program whose jumps go on executes at most as many instructions as it has. -/
theorem execute_within_length (hverify : verify program = .ok ()) (honward : AllOnward program)
    (vm : BpfVm) (ctx : BitVec 64) :
    ∃ result vm', vm.execute program ctx = some (result, vm') ∧ vm'.steps ≤ program.length ∧
      result ≠ .error (.error .exceededStepLimit) := by
  have haccepted := accepted_of_verify hverify
  obtain ⟨result, final, hexec⟩ := execute_returns haccepted.short vm ctx
  have hstart : Ahead program (vm.enter ctx) :=
    ⟨Nat.zero_le _, fun _ => Nat.zero_le _, fun _ _ => haccepted.start⟩
  have hkeep : ∀ s s', Ahead program s → round program s = some (.inl s') → Ahead program s' := by
    intro s s' hs hround
    obtain ⟨insn, hgoes⟩ := goes_of_round hround
    exact hgoes.ahead haccepted honward hs
  obtain ⟨last, hahead, hround⟩ := Loop.run_invariant hkeep hstart hexec
  exact ⟨result, final, hexec, (ends_of_round hround).within_length haccepted hahead⟩

theorem execute_within_length_spillReload :
    verify spillReload = .ok () ∧ AllOnward spillReload ∧
      ∃ result vm', BpfVm.new.execute spillReload 0 = some (result, vm') ∧
        vm'.steps ≤ spillReload.length ∧ result ≠ .error (.error .exceededStepLimit) :=
  ⟨by decide +kernel, by decide +kernel,
    execute_within_length (by decide +kernel) (by decide +kernel) BpfVm.new 0⟩

def spin : List BpfInsn := [.new 0x05 0 0 0xffff 0, .new 0x95 0 0 0 0]

theorem round_spin (hrunning : vm.running = true) (hpc : vm.pc = 0)
    (hsteps : vm.steps < bpfMaxSteps) : round spin vm = some (.inl vm.tick) := by
  obtain ⟨regs, stack, pc, steps, running, helpers⟩ := vm
  subst hpc hrunning
  show (if bpfMaxSteps ≤ steps then _ else _) = _
  rw [if_neg (Nat.not_le.mpr hsteps)]
  rfl

theorem run_spin (rounds : ℕ) (hrunning : vm.running = true) (hpc : vm.pc = 0)
    (hsteps : vm.steps + rounds = bpfMaxSteps) :
    ∃ vm', Loop.run (round spin) (rounds + 1) vm =
        some (.error (.error .exceededStepLimit), vm') ∧ vm'.steps = bpfMaxSteps := by
  induction rounds generalizing vm with
  | zero =>
    refine ⟨vm, ?_, hsteps⟩
    apply Loop.run_done _ Nat.one_pos
    unfold round
    rw [if_neg (by simp [hrunning]), hpc]
    exact if_pos (Nat.le_of_eq hsteps.symm)
  | succ rounds ih =>
    rw [Loop.run_next (round_spin hrunning hpc (by omega))]
    apply ih
    · exact hrunning
    · exact hpc
    · show vm.steps + 1 + rounds = bpfMaxSteps
      omega

/-- The program is accepted and runs until the step limit stops it. -/
theorem spin_exceeds_limit :
    verify spin = .ok () ∧
      ∃ vm', BpfVm.new.execute spin 0 = some (.error (.error .exceededStepLimit), vm') ∧
        spin.length < vm'.steps := by
  constructor
  · rfl
  · have hsteps : (BpfVm.new.enter 0).steps + bpfMaxSteps = bpfMaxSteps := Nat.zero_add _
    obtain ⟨vm', hrun, hsteps⟩ := run_spin bpfMaxSteps rfl rfl hsteps
    refine ⟨vm', hrun, ?_⟩
    rw [hsteps]
    decide

end BpfVm

end EchOS.Ebpf
