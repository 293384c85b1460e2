import EchOS.Ebpf.Flow

/-! Runs of accepted programs: where they can go, how they can end and how long they take. -/

namespace EchOS.Ebpf

open BpfVerifier (visits verify accepted_of_verify visits_next)

namespace BpfVm

variable {program : List BpfInsn} {insn : BpfInsn} {vm vm' : BpfVm}
  {result : Except Fault (BitVec 64)}

def tick (vm : BpfVm) : BpfVm := { vm with steps := vm.steps + 1 }

structure Goes (program : List BpfInsn) (insn : BpfInsn) (vm vm' : BpfVm) : Prop where
  running : vm.running = true
  fetched : program[vm.pc]? = some insn
  steps : vm.steps < bpfMaxSteps
  exec : vm.tick.execInsn program insn = .ok vm'

inductive Ends (program : List BpfInsn) (vm : BpfVm) : Except Fault (BitVec 64) → BpfVm → Prop
  | stopped (hstopped : vm.running = false) : Ends program vm (.ok (vm.regs 0)) vm
  | outside (hrunning : vm.running = true) (hpc : program.length ≤ vm.pc) :
      Ends program vm (.error (.error (.unreachableInstruction vm.pc))) vm
  | limit (hrunning : vm.running = true) (hpc : vm.pc < program.length)
      (hsteps : bpfMaxSteps ≤ vm.steps) :
      Ends program vm (.error (.error .exceededStepLimit)) vm
  | fault {insn : BpfInsn} {fault : Fault} (hrunning : vm.running = true)
      (hinsn : program[vm.pc]? = some insn)
      (hexec : vm.tick.execInsn program insn = .error fault) :
      Ends program vm (.error fault) vm.tick

theorem round_cases (program : List BpfInsn) (vm : BpfVm) :
    (∃ insn vm', round program vm = some (.inl vm') ∧ Goes program insn vm vm') ∨
      ∃ result vm', round program vm = some (.inr (result, vm')) ∧ Ends program vm result vm' := by
  unfold round
  by_cases hrunning : vm.running = true
  · rw [if_neg (by simp [hrunning])]
    cases hinsn : program[vm.pc]? with
    | none =>
      right
      exact ⟨_, _, rfl, .outside hrunning (List.getElem?_eq_none_iff.mp hinsn)⟩
    | some insn =>
      have hpc := (List.getElem?_eq_some_iff.mp hinsn).1
      dsimp only
      split_ifs with hsteps
      · right
        exact ⟨_, _, rfl, .limit hrunning hpc hsteps⟩
      · cases hexec : vm.tick.execInsn program insn with
        | ok vm' =>
          left
          refine ⟨insn, vm', ?_, hrunning, hinsn, Nat.not_le.mp hsteps, hexec⟩
          unfold tick at hexec
          rw [hexec]
        | error fault =>
          right
          refine ⟨_, _, ?_, .fault hrunning hinsn hexec⟩
          unfold tick at hexec
          rw [hexec]
          rfl
  · right
    rw [if_pos (by simp [hrunning])]
    exact ⟨_, _, rfl, .stopped (by simpa using hrunning)⟩

theorem goes_of_round (h : round program vm = some (.inl vm')) :
    ∃ insn, Goes program insn vm vm' := by
  rcases round_cases program vm with ⟨insn, next, hround, hgoes⟩ | ⟨result, final, hround, _⟩
  · obtain rfl := Sum.inl.inj (Option.some.inj (hround.symm.trans h))
    exact ⟨insn, hgoes⟩
  · exact nomatch hround.symm.trans h

theorem ends_of_round
    (h : round program vm = some (.inr (result, vm'))) : Ends program vm result vm' := by
  rcases round_cases program vm with ⟨insn, next, hround, _⟩ | ⟨result, final, hround, hends⟩
  · exact nomatch hround.symm.trans h
  · obtain ⟨rfl, rfl⟩ := Prod.mk.inj (Sum.inr.inj (Option.some.inj (hround.symm.trans h)))
    exact hends

theorem Goes.follows (h : Goes program insn vm vm') (hshort : program.length ≤ bpfMaxInsns) :
    Follows program insn vm.tick vm' :=
  execInsn_follows hshort (List.getElem?_eq_some_iff.mp h.fetched).1 h.exec

theorem Follows.steps_eq (h : Follows program insn vm vm') : vm'.steps = vm.steps := by
  rcases h with h | h | h
  · exact h.steps
  · exact h.steps
  · exact h.steps

theorem Goes.steps_eq (h : Goes program insn vm vm') (hshort : program.length ≤ bpfMaxInsns) :
    vm'.steps = vm.steps + 1 :=
  (h.follows hshort).steps_eq

theorem execute_returns (hshort : program.length ≤ bpfMaxInsns) (vm : BpfVm) (ctx : BitVec 64) :
    ∃ result vm', vm.execute program ctx = some (result, vm') := by
  have lower : ∀ s : BpfVm, ∃ next, round program s = some next ∧
      ∀ s', next = .inl s' → bpfMaxSteps - s'.steps < bpfMaxSteps - s.steps := by
    intro s
    rcases round_cases program s with ⟨insn, s', hround, hgoes⟩ | ⟨result, s', hround, _⟩
    · refine ⟨_, hround, ?_⟩
      intro next hnext
      cases hnext
      have hsteps := hgoes.steps_eq hshort
      have hless := hgoes.steps
      omega
    · refine ⟨_, hround, ?_⟩
      intro next hnext
      cases hnext
  have henough : bpfMaxSteps - (vm.enter ctx).steps < bpfMaxSteps + 1 := by omega
  obtain ⟨⟨result, vm'⟩, h⟩ := Loop.exists_run lower henough
  exact ⟨result, vm', h⟩

def Placed (program : List BpfInsn) (vm : BpfVm) : Prop :=
  vm.running = true → vm.pc ∈ visits program

def AllRegular (program : List BpfInsn) : Prop :=
  ∀ i insn, i ∈ visits program → program[i]? = some insn → Regular program i insn

instance (program : List BpfInsn) (i : ℕ) (insn : BpfInsn) : Decidable (Regular program i insn) :=
  decidable_of_iff
    ((insn.cls = .ldx ∨ insn.cls = .stx → insn.srcReg < bpfRegCount) ∧
      (insn.cls = .ldx ∨ insn.cls = .ld → insn.dstReg ≠ bpfRegFp) ∧
      (insn.isLddw = true → i + 2 < program.length) ∧
      (insn.isJump = true → (BpfVerifier.target i insn).toNat ∈ visits program))
    ⟨fun h => ⟨h.1, h.2.1, h.2.2.1, h.2.2.2⟩, fun h => ⟨h.src, h.dst, h.slot, h.lands⟩⟩

instance (program : List BpfInsn) : Decidable (AllRegular program) :=
  decidable_of_iff (∀ i ∈ visits program, ∀ insn ∈ program[i]?, Regular program i insn)
    ⟨fun h i insn hi hinsn => h i hi insn hinsn, fun h i hi insn hinsn => h i insn hi hinsn⟩

section

variable (haccepted : BpfVerifier.Accepted program)
include haccepted

theorem Goes.next_lt (hgoes : Goes program insn vm vm') (hregular : Regular program vm.pc insn)
    (hfalls : Falls insn vm.tick vm') : vm.pc + insn.width < program.length := by
  have hpc : vm.pc < program.length := (List.getElem?_eq_some_iff.mp hgoes.fetched).1
  unfold BpfInsn.width
  split_ifs with hlddw
  · exact hregular.slot hlddw
  · by_contra hend
    have hlast : program.length - 1 = vm.pc := by omega
    have hfetched := hlast ▸ hgoes.fetched
    obtain ⟨hcls, hop⟩ := haccepted.last insn hfetched
    have hexec := hgoes.exec
    unfold execInsn execJmp at hexec
    rw [hcls] at hexec
    simp only [hop] at hexec
    cases hexec
    have hrunning : false = vm.running := hfalls.running
    exact Bool.false_ne_true (hrunning.trans hgoes.running)

theorem Goes.placed (hregular : AllRegular program) (hgoes : Goes program insn vm vm')
    (hplaced : Placed program vm) : Placed program vm' := by
  intro hrunning
  have hvisited := hplaced hgoes.running
  have hinsn := hregular vm.pc insn hvisited hgoes.fetched
  rcases hgoes.follows haccepted.short with hfalls | hjumps | hstops
  · have hpc : vm'.pc = vm.pc + insn.width := hfalls.pc
    rw [hpc]
    exact visits_next hvisited hgoes.fetched (hgoes.next_lt haccepted hinsn hfalls)
  · have hlands := hinsn.lands hjumps.isJump
    have hpc : (BpfVerifier.target vm.pc insn).toNat = vm'.pc := by
      have htarget : (vm'.pc : ℤ) = BpfVerifier.target vm.pc insn := hjumps.pc
      omega
    rwa [hpc] at hlands
  · exact absurd hrunning (by simp [hstops.running])

theorem Ends.no_misstep (hregular : AllRegular program) (hplaced : Placed program vm)
    (hends : Ends program vm result vm') {fault : Fault} (hresult : result = .error fault) :
    fault.misstep = false := by
  cases hends with
  | stopped => cases hresult
  | outside hrunning hpc =>
    have hinside := BpfVerifier.lt_of_mem_visitsFrom (hplaced hrunning)
    exact absurd hinside (Nat.not_lt.mpr hpc)
  | limit =>
    cases hresult
    rfl
  | @fault insn fault hrunning hinsn hexec =>
    cases hresult
    have hvisited := hplaced hrunning
    have hsound : Sound True (vm.tick.execInsn program insn) :=
      sound_execInsn (fun _ => haccepted.checked _ _ hvisited hinsn)
        fun _ => hregular _ _ hvisited hinsn
    rw [← Bool.not_eq_true]
    intro hmisstep
    exact hsound _ hexec (.inr ⟨trivial, hmisstep⟩)

end

/-- An accepted program whose instructions are regular comes to a result, and neither to a
register that does not exist nor to a place outside the program. -/
theorem execute_avoids_missteps (hverify : verify program = .ok ()) (hregular : AllRegular program)
    (vm : BpfVm) (ctx : BitVec 64) :
    ∃ result vm', vm.execute program ctx = some (result, vm') ∧
      ∀ fault, result = .error fault → fault.misstep = false := by
  have haccepted := accepted_of_verify hverify
  obtain ⟨result, final, hexec⟩ := execute_returns haccepted.short vm ctx
  have hstart : Placed program (vm.enter ctx) := fun _ => haccepted.start
  have hkeep : ∀ s s', Placed program s → round program s = some (.inl s') →
      Placed program s' := by
    intro s s' hs hround
    obtain ⟨insn, hgoes⟩ := goes_of_round hround
    exact hgoes.placed haccepted hregular hs
  obtain ⟨last, hplaced, hround⟩ := Loop.run_invariant hkeep hstart hexec
  refine ⟨result, final, hexec, ?_⟩
  intro fault hresult
  exact (ends_of_round hround).no_misstep haccepted hregular hplaced hresult

/-- Stores the context, loads it back and replaces it if it is zero. -/
def spillReload : List BpfInsn :=
  [.new 0x63 10 1 0 0, .new 0x61 0 10 0 0, .new 0x55 0 0 2 0, .new 0x18 0 0 0 7, .new 0 0 0 0 0,
    .new 0x95 0 0 0 0]

theorem execute_avoids_missteps_spillReload :
    verify spillReload = .ok () ∧ AllRegular spillReload ∧
      ∃ result vm', BpfVm.new.execute spillReload 0 = some (result, vm') ∧
        ∀ fault, result = .error fault → fault.misstep = false :=
  ⟨by decide +kernel, by decide +kernel,
    execute_avoids_missteps (by decide +kernel) (by decide +kernel) BpfVm.new 0⟩

/-- Accepted: a load through a register that does not exist, a two-slot load at the end, and a
jump into the second slot of a load, which compares a register that does not exist. -/
theorem accepted_missteps :
    (verify [.new 0x61 0 15 0 0, .new 0x95 0 0 0 0] = .ok () ∧
      (BpfVm.new.execute [.new 0x61 0 15 0 0, .new 0x95 0 0 0 0] 0).map Prod.fst =
        some (.error (.error (.invalidRegister 15)))) ∧
    (verify [.new 0x18 0 0 0 0, .new 0x95 0 0 0 0] = .ok () ∧
      (BpfVm.new.execute [.new 0x18 0 0 0 0, .new 0x95 0 0 0 0] 0).map Prod.fst =
        some (.error (.error (.unreachableInstruction 2)))) ∧
    (verify [.new 0x05 0 0 1 0, .new 0x18 0 0 0 0, .new 0x15 15 0 0 0, .new 0x95 0 0 0 0] = .ok () ∧
      (BpfVm.new.execute [.new 0x05 0 0 1 0, .new 0x18 0 0 0 0, .new 0x15 15 0 0 0,
        .new 0x95 0 0 0 0] 0).map Prod.fst = some (.error .panic)) := by
  refine ⟨⟨rfl, rfl⟩, ⟨rfl, rfl⟩, ⟨rfl, rfl⟩⟩

end BpfVm

end EchOS.Ebpf
