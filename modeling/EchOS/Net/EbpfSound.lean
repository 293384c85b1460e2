import EchOS.Net.EbpfTransfer

/-! Soundness of the verifier against the interpreter. The states the worklist ends with
describe the machine along every run that crosses no join which moves a stack pointer and no
lookup which overwrites a spilled one; such a run fails only where an instruction is not
served. -/

namespace EchOS.Net.Ebpf

open VerifierRegState VerifierState Option List

variable {a b : VerifierRegState}

theorem VerifierRegState.merge_isPointer (h : (a.merge b).isPointer = true) :
    a.kind = (a.merge b).kind ∧ b.kind = (a.merge b).kind := by
  obtain ⟨ka, oa⟩ := a
  obtain ⟨kb, ob⟩ := b
  cases ka <;> cases kb <;> simp_all [merge, isPointer, uninit, scalar, ctx, stackFp, mapFd,
    mapValuePtr]
  split_ifs at h <;> simp at h

/-- A state that knows no pointers another one does not know, offsets aside, and calls no byte
initialised that the other one does not. -/
structure Forgets (known joined : VerifierState) : Prop where
  regs : ∀ r < 10, (joined.regs r).isPointer = true → (known.regs r).kind = (joined.regs r).kind
  init : ∀ k < bpfStackSize, joined.stackInit k = true → known.stackInit k = true
  spills : ∀ slot < bpfStackSize / 8, ∀ st, joined.stackSpill slot = some st →
    known.stackSpill slot = some st

namespace Forgets

theorem refl (state : VerifierState) : Forgets state state :=
  ⟨fun _ _ _ => rfl, fun _ _ h => h, fun _ _ _ h => h⟩

theorem trans (a b c : VerifierState) (hab : Forgets a b) (hbc : Forgets b c) : Forgets a c where
  regs r hr hp := by
    have hkind := hbc.regs r hr hp
    have hpb : (b.regs r).isPointer = true := by
      rwa [isPointer, hkind]
    exact (hab.regs r hr hpb).trans hkind
  init k hk hc := hab.init k hk (hbc.init k hk hc)
  spills slot hlt st h := hab.spills slot hlt st (hbc.spills slot hlt st h)

theorem mergeSpill_eq_some {lhs rhs : Option VerifierRegState} {st : VerifierRegState}
    (h : mergeSpill lhs rhs = some st) : lhs = some st ∧ rhs = some st := by
  unfold mergeSpill at h
  split_ifs at h with heq
  exact ⟨h, heq ▸ h⟩

theorem of_mergeFrom (state incoming merged : VerifierState)
    (h : state.mergeFrom incoming = some merged) :
    Forgets state merged ∧ Forgets incoming merged := by
  unfold mergeFrom at h
  split_ifs at h
  cases h
  have hregs : ∀ r < 10,
      ((state.merged incoming).invalidateSpillsForUninitializedBytes.regs r) =
        (state.regs r).merge (incoming.regs r) := fun r hr => if_neg (by omega)
  have hinit : ∀ k, (state.merged incoming).stackInit k = true →
      state.stackInit k = true ∧ incoming.stackInit k = true := by
    intro k hk
    simpa [merged] using hk
  have hspills : ∀ slot st,
      (state.merged incoming).invalidateSpillsForUninitializedBytes.stackSpill slot = some st →
      state.stackSpill slot = some st ∧ incoming.stackSpill slot = some st := by
    intro slot st hst
    simp only [invalidateSpillsForUninitializedBytes] at hst
    split_ifs at hst
    exact mergeSpill_eq_some hst
  refine ⟨⟨fun r hr hp => ?_, fun k _ hk => (hinit k hk).1,
      fun slot _ st hst => (hspills slot st hst).1⟩,
    ⟨fun r hr hp => ?_, fun k _ hk => (hinit k hk).2,
      fun slot _ st hst => (hspills slot st hst).2⟩⟩
  · rw [hregs r hr] at hp ⊢
    exact (merge_isPointer hp).1
  · rw [hregs r hr] at hp ⊢
    exact (merge_isPointer hp).2

theorem of_mergeFrom_none (state incoming : VerifierState)
    (h : state.mergeFrom incoming = none) : Forgets incoming state := by
  unfold mergeFrom at h
  split_ifs at h with hchanged
  simp only [changedBy, Bool.or_eq_true, not_or, List.any_eq_true, not_exists,
    not_and, mem_range, bne_iff_ne, ne_eq, not_not] at hchanged
  obtain ⟨⟨⟨hregs, hinit⟩, hspills⟩, -⟩ := hchanged
  constructor
  · intro r hr hp
    have hsame := hregs r (by omega)
    rw [← hsame] at hp ⊢
    exact (merge_isPointer hp).2
  · intro k hk hstate
    have hsame := hinit k hk
    rw [hstate] at hsame
    simpa using hsame
  · intro slot hlt st hst
    have hsame := hspills slot hlt
    rw [hst] at hsame
    exact (mergeSpill_eq_some hsame).2

end Forgets

theorem Describes.forget {ctx : BitVec 64} {known joined : VerifierState} {vm : EbpfVm}
    (h : Describes ctx known vm) (hforgets : Forgets known joined)
    (hframe : joined.regs 10 = .stackFp) (hoffsets : ∀ r < 10, (joined.regs r).kind = .stackPtr →
      (joined.regs r).stackOffset = (known.regs r).stackOffset) : Describes ctx joined vm where
  frame := hframe
  regs r hr := by
    by_cases h10 : r = 10
    · subst h10
      have hvalue := h.regs 10 hr
      rwa [h.frame, ← hframe] at hvalue
    have hr : r < 10 := by omega
    cases hp : (joined.regs r).isPointer with
    | false =>
      exact allows_of_address_eq_none (address_eq_none hp) _
    | true =>
      have hkind := hforgets.regs r hr hp
      have haddr : (joined.regs r).address ctx = (known.regs r).address ctx := by
        unfold address
        rw [hkind]
        cases hk : (joined.regs r).kind <;> simp only
        rw [hoffsets r hr hk]
      intro a ha
      exact h.regs r (by omega) a (haddr.symm.trans ha)
  spills slot hlt st hst := h.spills slot hlt st (hforgets.spills slot hlt st hst)

theorem Transfers.frame {len pc : ℕ} {insn : DecodedInsn} {state : VerifierState}
    {succ : Successors} {next : List (ℕ × VerifierState)}
    (h : Transfers len pc insn state succ next) (hframe : state.regs 10 = .stackFp) :
    ∀ flow ∈ next, flow.2.regs 10 = .stackFp := by
  have hset : ∀ r st, r ≠ 10 → (state.setReg r st).regs 10 = .stackFp :=
    fun r st hr => (if_neg (Ne.symm hr)).trans hframe
  cases h with
  | alu hcls hop hout _ =>
    refine forall_mem_singleton.mpr ?_
    obtain ⟨hne, ⟨-, -, rfl⟩ | ⟨-, rfl⟩ | ⟨-, hmove⟩⟩ := verifierApplyAlu_cases hout
    · exact hset _ _ hne
    · exact hset _ _ hne
    · obtain ⟨-, delta, -, rfl⟩ := verifierMoveStackPtr_cases hmove
      exact hset _ _ hne
  | ldx hcls hout _ =>
    refine forall_mem_singleton.mpr ?_
    obtain ⟨size, -, hne, ⟨-, start, -, rfl⟩ | ⟨-, rfl⟩⟩ := verifierApplyLdx_cases hout <;>
      exact hset _ _ hne
  | stx hcls hout _ =>
    refine forall_mem_singleton.mpr ?_
    obtain ⟨size, start, -, -, -, rfl⟩ := verifierApplyStx_cases hout
    split_ifs <;> exact hframe
  | call => exact forall_mem_singleton.mpr hframe
  | exit => exact forall_mem_nil _
  | ja => exact forall_mem_singleton.mpr hframe
  | branch =>
    exact forall_mem_cons.mpr ⟨hframe, forall_mem_singleton.mpr hframe⟩

theorem successorsFrom_getD {len start : ℕ} {insns : List DecodedInsn} {succs : List Successors}
    (h : successorsFrom len start insns = .ok succs) {k : ℕ} (hk : k < insns.length)
    (default : DecodedInsn) :
    verifierSuccessors len (start + k) (insns.getD k default) =
      .ok (succs.getD k (none, none)) := by
  induction insns generalizing start succs k with
  | nil => exact absurd hk (Nat.not_lt_zero k)
  | cons insn rest ih =>
    obtain ⟨head, hhead, h⟩ := Fallible.bind_eq_ok.mp h
    obtain ⟨tail, htail, h⟩ := Fallible.bind_eq_ok.mp h
    cases h
    cases k with
    | zero => exact hhead
    | succ k =>
      have hrest := ih htail (Nat.lt_of_succ_lt_succ hk)
      rw [show start + 1 + k = start + (k + 1) by omega] at hrest
      exact hrest

def verifierInStates (program : List (BitVec 64)) : ℕ → Option VerifierState :=
  let decoded := program.map decodeInstruction
  match verifierBuildCfgSuccessors decoded with
  | .error _ => fun _ => none
  | .ok successors =>
    match Worklist.solve (verifierAnalysis decoded successors) verifierComplexityLimit
        (fun _ => none) [(0, .entry)] with
    | .error _ => fun _ => none
    | .ok inStates => inStates

def verifierFlows (program : List (BitVec 64)) (pc : ℕ) : List (ℕ × VerifierState) :=
  let decoded := program.map decodeInstruction
  match verifierBuildCfgSuccessors decoded, verifierInStates program pc with
  | .ok successors, some state =>
    match (verifierAnalysis decoded successors).transfer pc state with
    | .ok next => next
    | .error _ => []
  | _, _ => []

/-- The joins after an instruction leave the offsets of stack pointers as they flow in. -/
def joinsKeepOffsets (program : List (BitVec 64)) (pc : ℕ) : Bool :=
  (verifierFlows program pc).all fun flow =>
    (verifierInStates program flow.1).all fun joined =>
      (List.range 10).all fun r => (joined.regs r).kind != .stackPtr ||
        (joined.regs r).stackOffset == (flow.2.regs r).stackOffset

/-- What the analysis knows about an instruction of an accepted program. -/
structure Analysed (program : List (BitVec 64)) (pc : ℕ) (state : VerifierState)
    (succ : Successors) (next : List (ℕ × VerifierState)) : Prop where
  check : verifierCheckInsn (decodeInstruction (program.getD pc 0)) = .ok ()
  successors : verifierSuccessors program.length pc (decodeInstruction (program.getD pc 0)) =
    .ok succ
  transfer : verifierTransferInstruction (decodeInstruction (program.getD pc 0)) state succ =
    .ok next
  flows : verifierFlows program pc = next
  joins : ∀ flow ∈ next, ∃ joined, verifierInStates program flow.1 = some joined ∧
    Forgets flow.2 joined ∧ joined.regs 10 = .stackFp

namespace Accepted

variable {program : List (BitVec 64)} {successors : List Successors}
  {inStates : ℕ → Option VerifierState}

section

variable (h : Accepted program successors inStates) {state : VerifierState}
include h

theorem inStates_eq : verifierInStates program = inStates := by
  simp only [verifierInStates, h.graph, h.solved]

theorem reaches :
    Worklist.Reaches (verifierAnalysis (program.map decodeInstruction) successors) Forgets
      (fun _ => none) [(0, .entry)] inStates :=
  Worklist.solve_reaches Forgets.refl Forgets.trans Forgets.of_mergeFrom
    Forgets.of_mergeFrom_none h.solved (fun _ _ h => by cases h)

theorem transfer_eq_ok {pc : ℕ} {next : List (ℕ × VerifierState)}
    (hnext : (verifierAnalysis (program.map decodeInstruction) successors).transfer pc state =
      .ok next) :
    pc < program.length ∧
      verifierSuccessors program.length pc (decodeInstruction (program.getD pc 0)) =
        .ok (successors.getD pc (none, none)) ∧
      verifierTransferInstruction (decodeInstruction (program.getD pc 0)) state
        (successors.getD pc (none, none)) = .ok next := by
  have hget : (program.map decodeInstruction).getD pc (decodeInstruction 0) =
      decodeInstruction (program.getD pc 0) := getD_map ..
  simp only [verifierAnalysis, hget] at hnext
  have hpc : pc < program.length := by
    by_contra hge
    rw [getD_eq_default _ _ (Nat.not_lt.mp hge)] at hnext
    cases hnext
  have hsucc := successorsFrom_getD h.graph (k := pc) (by simpa using hpc) (decodeInstruction 0)
  rw [hget, Nat.zero_add, length_map] at hsucc
  exact ⟨hpc, hsucc, hnext⟩

theorem frame : ∀ pc state, inStates pc = some state → state.regs 10 = .stackFp := by
  refine Worklist.solve_invariant (fun state incoming merged _ _ hm => ?_)
    (fun pc state next hframe hnext => ?_) h.solved
    (fun _ _ h => by cases h) (fun flow hflow => ?_)
  · simp only [verifierAnalysis, mergeFrom] at hm
    split_ifs at hm
    cases hm
    rfl
  · obtain ⟨-, hsucc, hnext⟩ := h.transfer_eq_ok hnext
    exact (transfers_of_ok hsucc hnext).frame hframe
  · obtain rfl := mem_singleton.mp hflow
    rfl

theorem entry_joined :
    ∃ state, verifierInStates program 0 = some state ∧ Forgets .entry state ∧
      state.regs 10 = .stackFp := by
  obtain ⟨state, hstate, hforgets⟩ := h.reaches.2.1 (0, .entry) (mem_singleton.mpr rfl)
  exact ⟨state, h.inStates_eq ▸ hstate, hforgets, h.frame 0 state hstate⟩

theorem analysed {pc : ℕ} (hstate : verifierInStates program pc = some state) :
    ∃ next, Analysed program pc state (successors.getD pc (none, none)) next := by
  rw [h.inStates_eq] at hstate
  obtain ⟨next, hnext, hflows⟩ := h.reaches.1 pc state hstate
  obtain ⟨hpc, hsucc, htransfer⟩ := h.transfer_eq_ok hnext
  refine ⟨next, h.checked _ (mem_map_of_mem ?_), hsucc, htransfer, ?_, ?_⟩
  · rw [getD_eq_getElem _ _ hpc]
    exact getElem_mem hpc
  · simp only [verifierFlows, h.graph, h.inStates_eq, hstate, hnext]
  · intro flow hflow
    obtain ⟨joined, hjoined, hforgets⟩ := hflows flow hflow
    exact ⟨joined, h.inStates_eq ▸ hjoined, hforgets, h.frame _ _ hjoined⟩

end

end Accepted

namespace Machine

/-- The machine has not failed in a way the verifier is there to exclude. -/
def sound : Machine → Bool
  | .halted (.error fault) => !fault.unsound
  | _ => true

/-- The instruction to be executed meets what the verifier does not check. -/
def served (ctx : BitVec 64) : Machine → Bool
  | .running vm pc => (verifierInStates vm.program pc).all fun state =>
      instructionServed ctx state vm (decodeInstruction (vm.program.getD pc 0))
  | .halted _ => true

/-- The instruction to be executed moves no pointer behind the verifier's back. -/
def keepsPointers : Machine → Bool
  | .running vm pc => joinsKeepOffsets vm.program pc &&
      (verifierInStates vm.program pc).all fun state =>
        lookupKeepsSpill state (decodeInstruction (vm.program.getD pc 0))
  | .halted _ => true

/-- The verifier's state for the next instruction describes the machine. -/
def Described (ctx : BitVec 64) (program : List (BitVec 64)) : Machine → Prop
  | .running vm pc => vm.program = program ∧ pc < program.length ∧
      ∃ state, verifierInStates program pc = some state ∧ Describes ctx state vm
  | .halted _ => True

variable {ctx : BitVec 64} {program : List (BitVec 64)} {successors : List Successors}
  {inStates : ℕ → Option VerifierState} {next : List (ℕ × VerifierState)} {vm : EbpfVm}
  {succ : Successors} {m : Machine} (helpers : Helpers)

theorem resume_sound (vm : EbpfVm) (pc : ℕ) : (resume vm pc).sound = true := by
  unfold resume
  split_ifs <;> rfl

theorem resume_described {pc target : ℕ} {state out : VerifierState} (hprog : vm.program = program)
    (han : Analysed program pc state succ next) (hjoin : joinsKeepOffsets program pc = true)
    (hflow : (target, out) ∈ next) (hdesc : Describes ctx out vm) :
    (resume vm target).Described ctx program := by
  obtain ⟨joined, hjoined, hforgets, hframe⟩ := han.joins _ hflow
  have hoffsets : ∀ r < 10, (joined.regs r).kind = .stackPtr →
      (joined.regs r).stackOffset = (out.regs r).stackOffset := by
    intro r hr hk
    simp only [joinsKeepOffsets, han.flows, List.all_eq_true] at hjoin
    have hall := hjoin _ hflow
    simp only [hjoined, Option.all_some, List.all_eq_true, List.mem_range] at hall
    simpa [hk] using hall r hr
  unfold resume
  split_ifs with hlt
  · exact ⟨hprog, hprog ▸ hlt, joined, hjoined, hdesc.forget hforgets hframe hoffsets⟩
  · trivial

theorem follow_described {pc : ℕ} {state : VerifierState} {insn : DecodedInsn} {isServed : Bool}
    {result : Except Fault EbpfVm.Flow} (hout : Outcome ctx next isServed result)
    (hforward : ∀ flow, result = .ok flow → flow.Forward vm pc insn)
    (hprog : vm.program = program) (han : Analysed program pc state succ next)
    (hjoin : joinsKeepOffsets program pc = true) :
    (follow result).Described ctx program ∧ (follow result).sound = isServed := by
  cases result with
  | error fault =>
    obtain ⟨hserved, hfault⟩ := hout
    exact ⟨trivial, by simp [follow, sound, hserved, hfault]⟩
  | ok flow =>
    have hkept := hforward flow rfl
    cases flow with
    | ret value =>
      have hserved : isServed = true := hout
      exact ⟨trivial, hserved.symm⟩
    | jump vm' target =>
      obtain ⟨hserved, out, hflow, hdesc⟩ := hout
      exact ⟨resume_described (hkept.1.trans hprog) han hjoin hflow hdesc,
        (resume_sound vm' target).trans hserved.symm⟩
    | next vm' pc' =>
      obtain ⟨hserved, out, hflow, hdesc⟩ := hout
      simp only [follow]
      split_ifs
      · exact ⟨trivial, hserved.symm⟩
      · exact ⟨resume_described (hkept.1.trans hprog) han hjoin hflow hdesc,
          (resume_sound vm' (pc' + 1)).trans hserved.symm⟩

theorem step_described (hacc : Accepted program successors inStates)
    (h : m.Described ctx program) (hkeep : m.keepsPointers = true) :
    (step helpers m).Described ctx program ∧
      (m.isHalted = false → (step helpers m).sound = m.served ctx) := by
  cases m with
  | halted result => exact ⟨trivial, by simp [isHalted]⟩
  | running vm pc =>
    obtain ⟨rfl, hpc, state, hstate, hdesc⟩ := h
    obtain ⟨next, han⟩ := hacc.analysed hstate
    simp only [keepsPointers, hstate, all_some, Bool.and_eq_true] at hkeep
    obtain ⟨hjoin, hlookup⟩ := hkeep
    have hcounted : Describes ctx state { vm with insnCount := (vm.insnCount + 1) % 2 ^ 64 } :=
      ⟨hdesc.frame, hdesc.regs, hdesc.spills⟩
    have hout := execInsn_outcome helpers hcounted han.check han.successors hlookup han.transfer
    obtain ⟨hnext, hsound⟩ := follow_described hout
      (fun flow hexec => EbpfVm.execInsn_forward hexec) rfl han hjoin
    refine ⟨hnext, fun _ => hsound.trans ?_⟩
    simp only [served, hstate, all_some]
    rfl

theorem described_start (hacc : Accepted program successors inStates)
    (hprog : vm.program = program) : (resume (vm.enter ctx) 0).Described ctx program := by
  obtain ⟨state, hstate, hforgets, hframe⟩ := hacc.entry_joined
  have hoffsets : ∀ r < 10, (state.regs r).kind = .stackPtr →
      (state.regs r).stackOffset = (entry.regs r).stackOffset := by
    intro r hr hk
    have hkind := hforgets.regs r hr (by simp [isPointer, hk])
    have hentry : (VerifierState.entry.regs r).kind ≠ .stackPtr := by
      unfold entry
      dsimp only
      split_ifs <;> first | omega | simp [VerifierRegState.ctx, VerifierRegState.uninit]
    exact absurd (hkind.trans hk) hentry
  unfold resume
  split_ifs with hlt
  · exact ⟨hprog, hprog ▸ hlt, state, hstate,
      (describes_entry vm ctx).forget hforgets hframe hoffsets⟩
  · trivial

theorem after_described (hacc : Accepted program successors inStates)
    (h : m.Described ctx program) (n : ℕ)
    (hkeep : ∀ k < n, (after helpers m k).keepsPointers = true) :
    (after helpers m n).Described ctx program := by
  induction n with
  | zero => exact h
  | succ n ih =>
    have hn := ih fun k hk => hkeep k (by omega)
    exact (step_described helpers hacc hn (hkeep n (Nat.lt_succ_self n))).1

/-- On a run of an accepted program along which the joins keep the offsets of stack pointers
and no lookup overwrites a spilled pointer, every step avoids the failures the verifier is
there to exclude exactly if every instruction is served. -/
theorem accepted_runs_served (vm : EbpfVm) (hv : verifyProgram vm.program = .ok ())
    (helpers : Helpers) (ctx : BitVec 64)
    (hkeep : ∀ n < vm.program.length,
      (after helpers (resume (vm.enter ctx) 0) n).keepsPointers = true) :
    (∀ n, (after helpers (resume (vm.enter ctx) 0) n).sound = true) ↔
      ∀ n < vm.program.length, (after helpers (resume (vm.enter ctx) 0) n).served ctx = true := by
  obtain ⟨successors, inStates, hacc⟩ := accepted_of_verifyProgram hv
  have hsrc : ∀ raw ∈ (vm.enter ctx).program, (decodeInstruction raw).src ≤ 10 := hacc.src_le
  have hstart : (resume (vm.enter ctx) 0).Described ctx vm.program := described_start hacc rfl
  have hstep : ∀ n < vm.program.length,
      (after helpers (resume (vm.enter ctx) 0) n).isHalted = false →
      (after helpers (resume (vm.enter ctx) 0) (n + 1)).sound =
        (after helpers (resume (vm.enter ctx) 0) n).served ctx := by
    intro n hn
    have hdesc := after_described helpers hacc hstart n fun k hk => hkeep k (by omega)
    exact (step_described helpers hacc hdesc (hkeep n hn)).2
  constructor
  · intro hsound n hn
    cases hm : after helpers (resume (vm.enter ctx) 0) n with
    | halted result => rfl
    | running vm' pc =>
      rw [← hm, ← hstep n hn (by rw [hm]; rfl)]
      exact hsound (n + 1)
  · intro hserved n
    induction n with
    | zero => exact resume_sound _ _
    | succ n ih =>
      cases hm : after helpers (resume (vm.enter ctx) 0) n with
      | halted result =>
        rw [hm] at ih
        rw [after, hm]
        exact ih
      | running vm' pc =>
        obtain ⟨-, hle, hlt⟩ := after_forward helpers hsrc n vm' pc hm
        have hn : n < vm.program.length := Nat.lt_of_le_of_lt hle hlt
        rw [hstep n hn (by rw [hm]; rfl)]
        exact hserved n hn

/-- Store R0 eight bytes below the top of the stack: R2 is R10 - 8. -/
def storeBelowFrame : List (BitVec 64) :=
  [0xb400000000000005, 0xbc020a0000000000, 0x04020000fffffff8, 0x7b02000000000000,
    0x9500000000000000]

theorem accepted_runs_served_store :
    verifyProgram storeBelowFrame = .ok () ∧
    ∀ n, (after .noMaps (resume ((EbpfVm.new storeBelowFrame).enter 0x1000) 0) n).sound = true :=
  ⟨by decide +kernel, (accepted_runs_served (.new storeBelowFrame) (by decide +kernel) .noMaps
    0x1000 (by decide +kernel)).mpr (by decide +kernel)⟩

/-- R2 is R10 on the branch taken and R10 + 8 on the other; eight below it is stored to. -/
def storeAfterJoin : List (BitVec 64) :=
  [0xb400000000000002, 0xbc020a0000000000, 0x1500000100000001, 0x0402000000000008,
    0x04020000fffffff8, 0x7b02000000000000, 0x9500000000000000]

/-- The join of the two branches forgets the eight, and the store misses the stack. -/
theorem join_of_stack_pointers_unsound :
    verifyProgram storeAfterJoin = .ok () ∧
    (∀ n < storeAfterJoin.length,
      (after .noMaps (resume ((EbpfVm.new storeAfterJoin).enter 0) 0) n).served 0 = true) ∧
    (after .noMaps (resume ((EbpfVm.new storeAfterJoin).enter 0) 0) 6).sound = false := by
  decide +kernel

/-- A load through a context pointer, copied to R0, is accepted and not served. -/
example :
    verifyProgram [0xbc00010000000000, 0x0100000000000000, 0x9500000000000000] = .ok () ∧
    (after .noMaps (resume ((EbpfVm.new
      [0xbc00010000000000, 0x0100000000000000, 0x9500000000000000]).enter 0x1000) 0) 2).sound =
      false := by
  decide +kernel

end Machine

end EchOS.Net.Ebpf
