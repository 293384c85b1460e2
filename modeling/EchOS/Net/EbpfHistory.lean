import EchOS.Net.EbpfLockstep

/-! Executions of one machine after another. The stack and the instruction count stay from one
to the next, and what a program returns depends on them only through the limit on the count,
through stack pointers that a join has moved and through loads of a context in the stack. -/

namespace EchOS.Net.Ebpf

open Machine EbpfVm List Bool Except

namespace EbpfVm

def counted (vm : EbpfVm) : EbpfVm := { vm with insnCount := (vm.insnCount + 1) % 2 ^ 64 }

def flowAt (vm : EbpfVm) (helpers : Helpers) (pc : ℕ) : Except Fault Flow :=
  vm.counted.execInsn helpers pc (decodeInstruction (vm.program.getD pc 0))

def leftAt (vm : EbpfVm) (helpers : Helpers) (pc : ℕ) : EbpfVm :=
  match vm.flowAt helpers pc with
  | .ok (.next vm' _) | .ok (.jump vm' _) => vm'
  | _ => vm.counted

end EbpfVm

namespace Machine

/-- Execute up to a number of instructions; beside the outcome stands the machine that is
left. -/
def finish (helpers : Helpers) : ℕ → Machine → EbpfVm → Machine × EbpfVm
  | 0, m, left => (m, left)
  | _ + 1, .halted result, left => (.halted result, left)
  | n + 1, .running vm pc, _ =>
    finish helpers n (step helpers (.running vm pc)) (vm.leftAt helpers pc)

def result : Machine → Option (Except Fault (BitVec 64))
  | .halted result => some result
  | .running _ _ => none

/-- The next instruction lets control fall through to the check of the count. -/
def fallsThrough (helpers : Helpers) : Machine → Bool
  | .running vm pc =>
    match vm.flowAt helpers pc with
    | .ok (.next _ _) => true
    | _ => false
  | .halted _ => false

/-- The next instruction is not a load of a context that lies in the stack. -/
def loadsApart (ctx : BitVec 64) : Machine → Bool
  | .running vm pc => (verifierInStates vm.program pc).all fun state =>
      contextApart ctx state (decodeInstruction (vm.program.getD pc 0))
  | .halted _ => true

end Machine

namespace EbpfVm

/-- A verified program runs forward, so its length bounds the instructions it takes. -/
def execute (vm : EbpfVm) (helpers : Helpers) (ctx : BitVec 64) : Machine × EbpfVm :=
  (resume (vm.enter ctx) 0).finish helpers vm.program.length (vm.enter ctx)

def executions (vm : EbpfVm) (helpers : Helpers) (history : List (BitVec 64)) : EbpfVm :=
  history.foldl (fun vm ctx => (vm.execute helpers ctx).2) vm

theorem leftAt_program (vm : EbpfVm) (helpers : Helpers) (pc : ℕ) :
    (vm.leftAt helpers pc).program = vm.program := by
  unfold leftAt
  split
  · rename_i vm' pc' hflow
    exact (execInsn_forward hflow).1
  · rename_i vm' pc' hflow
    exact (execInsn_forward hflow).1
  · rfl

end EbpfVm

namespace Machine

variable {helpers : Helpers} {m : Machine} {program : List (BitVec 64)}

theorem eq_halted_of_result {r : Except Fault (BitVec 64)} (h : m.result = some r) :
    m = .halted r := by
  cases m with
  | running vm pc => cases h
  | halted result => exact congrArg halted (Option.some.inj h)

theorem after_halted (result : Except Fault (BitVec 64)) (n : ℕ) :
    after helpers (.halted result) n = .halted result := by
  induction n with
  | zero => rfl
  | succ n ih => rw [after, ih, step]

theorem after_step (m : Machine) (n : ℕ) :
    after helpers m (n + 1) = after helpers (step helpers m) n := by
  induction n with
  | zero => rfl
  | succ n ih => rw [after, ih, after]

theorem after_of_halted {n k : ℕ} {result : Except Fault (BitVec 64)}
    (h : after helpers m n = .halted result) (hk : n ≤ k) : after helpers m k = .halted result := by
  induction hk with
  | refl => exact h
  | step _ ih => rw [after, ih, step]

theorem finish_outcome (n : ℕ) (m : Machine) (left : EbpfVm) :
    (m.finish helpers n left).1 = after helpers m n := by
  induction n generalizing m left with
  | zero => rfl
  | succ n ih =>
    cases m with
    | halted result => exact (after_halted result _).symm
    | running vm pc =>
      rw [finish, ih, after_step]

def Holds (program : List (BitVec 64)) : Machine → Prop
  | .running vm _ => vm.program = program
  | .halted _ => True

theorem holds_resume {vm : EbpfVm} (h : vm.program = program)
    (pc : ℕ) : (resume vm pc).Holds program := by
  unfold resume
  split_ifs
  · exact h
  · trivial

theorem holds_step (h : m.Holds program) : (step helpers m).Holds program := by
  cases m with
  | halted result => trivial
  | running vm pc =>
    show (follow (vm.flowAt helpers pc)).Holds program
    cases hflow : vm.flowAt helpers pc with
    | error fault => trivial
    | ok flow =>
      have hforward := execInsn_forward hflow
      cases flow with
      | ret value => trivial
      | jump vm' target => exact holds_resume (hforward.1.trans h) target
      | next vm' pc' =>
        unfold follow
        dsimp only
        split_ifs
        · trivial
        · exact holds_resume (hforward.1.trans h) (pc' + 1)

theorem finish_program (h : m.Holds program) (n : ℕ)
    {left : EbpfVm} (hleft : left.program = program) :
    (m.finish helpers n left).2.program = program := by
  induction n generalizing m left with
  | zero => exact hleft
  | succ n ih =>
    cases m with
    | halted result => exact hleft
    | running vm pc => exact ih (holds_step h) ((vm.leftAt_program helpers pc).trans h)

end Machine

theorem EbpfVm.executions_program (vm : EbpfVm) (helpers : Helpers) (history : List (BitVec 64)) :
    (vm.executions helpers history).program = vm.program := by
  induction history generalizing vm with
  | nil => rfl
  | cons ctx history ih =>
    have hfirst : (vm.execute helpers ctx).2.program = vm.program :=
      finish_program (holds_resume rfl 0) _ rfl
    exact (ih _).trans hfirst

theorem InStep.counted {c n : ℕ} {state : VerifierState} {vm vm' : EbpfVm}
    (h : InStep c n state vm vm') (hn : n < instructionLimit) :
    InStep c (n + 1) state vm.counted vm'.counted where
  program := h.program
  registers := h.registers
  stack := h.stack
  count := by
    show (vm.insnCount + 1) % 2 ^ 64 = n + 1
    unfold instructionLimit at hn
    rw [h.count]
    exact Nat.mod_eq_of_lt (by omega)
  count' := by
    show (vm'.insnCount + 1) % 2 ^ 64 = (c + (n + 1)) % 2 ^ 64
    rw [h.count', Nat.mod_add_mod, Nat.add_assoc]

namespace Machine

variable {helpers : Helpers} {ctx : BitVec 64} {program : List (BitVec 64)}
  {successors : List Successors} {inStates : ℕ → Option VerifierState} {c n : ℕ} {vm vm' : EbpfVm}
  {pc : ℕ}

/-- Two machines about to count their instruction number `n + 1`, or halted with one result. -/
def InStepAt (c n : ℕ) (program : List (BitVec 64)) : Machine → Machine → Prop
  | .running vm pc, .running vm' pc' => pc = pc' ∧ ∃ state,
      verifierInStates program pc = some state ∧ InStep c (n + 1) state vm.counted vm'.counted
  | .halted result, .halted result' => result = result'
  | _, _ => False

theorem inStepAt_resume {target : ℕ} {out joined : VerifierState}
    (h : InStep c n out vm vm') (hn : n < instructionLimit)
    (hjoined : verifierInStates program target = some joined) (hforgets : Forgets out joined) :
    InStepAt c n program (resume vm target) (resume vm' target) := by
  unfold resume
  rw [h.program]
  split_ifs
  · exact ⟨rfl, joined, hjoined, (h.forget hforgets).counted hn⟩
  · show ok (vm.registers 0) = ok (vm'.registers 0)
    rw [h.registers]

theorem follow_inStep {state : VerifierState} {succ : Successors}
    {next : List (ℕ × VerifierState)} {flow flow' : Except Fault Flow}
    (han : Analysed program pc state succ next) (h : FlowsInStep c n next flow flow')
    (hn : n < instructionLimit) :
    ((∀ vm pc, flow = .ok (.next vm pc) → (c + n) % 2 ^ 64 ≤ instructionLimit) →
      InStepAt c n program (follow flow) (follow flow')) ∧
    ∀ vm pc, flow = .ok (.next vm pc) → instructionLimit < (c + n) % 2 ^ 64 →
      follow flow' = .halted (.error (.error .infiniteLoop)) := by
  unfold FlowsInStep at h
  split at h
  · exact ⟨fun _ => congrArg error h, nofun⟩
  · exact ⟨fun _ => congrArg ok h, nofun⟩
  · obtain ⟨rfl, out, hout, hstep⟩ := h
    obtain ⟨joined, hjoined, hforgets, -⟩ := han.joins _ hout
    constructor
    · intro hlimit
      have hcount := hlimit _ _ rfl
      unfold follow
      dsimp only
      rw [hstep.count, hstep.count', if_neg (by omega), if_neg (by omega)]
      exact inStepAt_resume hstep hn hjoined hforgets
    · intro _ _ _ hover
      unfold follow
      dsimp only
      rw [hstep.count', if_pos hover]
  · obtain ⟨rfl, out, hout, hstep⟩ := h
    obtain ⟨joined, hjoined, hforgets, -⟩ := han.joins _ hout
    exact ⟨fun _ => inStepAt_resume hstep hn hjoined hforgets, nofun⟩
  · exact h.elim

/-- What a run needs to go the way the verifier thinks: no pointer moved behind its back and no
context in the stack. -/
def onCourse (ctx : BitVec 64) (m : Machine) : Bool := m.keepsPointers && m.loadsApart ctx

theorem fallsThrough_running :
    (running vm pc).fallsThrough helpers = true ↔
      ∃ vm' pc', vm.flowAt helpers pc = .ok (.next vm' pc') := by
  unfold fallsThrough
  dsimp only
  split <;> simp_all

section Run

variable (helpers) (hacc : Accepted program successors inStates)
  (hcalls : ∀ raw ∈ program, (decodeInstruction raw).isCall = false) {m m' : Machine}

include hacc hcalls

theorem flowAt_inStep {pc' : ℕ} (hdesc : (running vm pc).Described ctx program)
    (hcourse : (running vm pc).onCourse ctx = true)
    (h : InStepAt c n program (.running vm pc) (.running vm' pc')) :
    ∃ state succ next, Analysed program pc state succ next ∧ Describes ctx state vm.counted ∧
      verifierInStates program pc = some state ∧
      FlowsInStep c (n + 1) next (vm.flowAt helpers pc) (vm'.flowAt helpers pc') := by
  obtain ⟨rfl, state, hstate, hstep⟩ := h
  obtain ⟨rfl, hpc, state', hstate', hdescribes⟩ := hdesc
  obtain rfl : state = state' := Option.some.inj (hstate.symm.trans hstate')
  obtain ⟨next, han⟩ := hacc.analysed hstate
  have hraw : vm.program.getD pc 0 ∈ vm.program := by
    rw [getD_eq_getElem _ _ hpc]
    exact getElem_mem hpc
  have hprogram : vm'.program = vm.program := hstep.program
  have hapart : contextApart ctx state (decodeInstruction (vm.program.getD pc 0)) = true := by
    simpa [onCourse, loadsApart, hstate] using (and_eq_true_iff.mp hcourse).2
  have hcounted : Describes ctx state vm.counted :=
    ⟨hdescribes.frame, hdescribes.regs, hdescribes.spills⟩
  refine ⟨state, _, next, han, hcounted, hstate, ?_⟩
  unfold flowAt
  rw [hprogram]
  exact execInsn_inStep helpers hstep hcounted han.check han.successors (hcalls _ hraw) hapart
    han.transfer

theorem step_inStep (hdesc : m.Described ctx program) (hcourse : m.onCourse ctx = true)
    (h : InStepAt c n program m m') (hn : n + 1 < instructionLimit) :
    ((m.fallsThrough helpers = true → (c + (n + 1)) % 2 ^ 64 ≤ instructionLimit) →
      InStepAt c (n + 1) program (step helpers m) (step helpers m')) ∧
    (m.fallsThrough helpers = true → instructionLimit < (c + (n + 1)) % 2 ^ 64 →
      step helpers m' = .halted (.error (.error .infiniteLoop))) := by
  cases m with
  | halted result =>
    cases m' with
    | halted result' => exact ⟨fun _ => h, nofun⟩
    | running vm' pc' => exact h.elim
  | running vm pc =>
    cases m' with
    | halted result' => exact h.elim
    | running vm' pc' =>
      obtain ⟨state, succ, next, han, -, -, hflows⟩ :=
        flowAt_inStep helpers hacc hcalls hdesc hcourse h
      obtain ⟨hgoes, hover⟩ := follow_inStep han hflows hn
      rw [fallsThrough_running]
      constructor
      · intro hlimit
        apply hgoes
        intro vm₁ pc₁ hflow
        exact hlimit ⟨vm₁, pc₁, hflow⟩
      · rintro ⟨vm₁, pc₁, hflow⟩ hlimit
        exact hover vm₁ pc₁ hflow hlimit

theorem step_within_limit (hdesc : m.Described ctx program) (hcourse : m.onCourse ctx = true)
    (h : InStepAt c n program m m) (hn : n + 1 < instructionLimit)
    (hm : m ≠ .halted (.error (.error .infiniteLoop))) :
    step helpers m ≠ .halted (.error (.error .infiniteLoop)) := by
  cases m with
  | halted result => exact hm
  | running vm pc =>
    obtain ⟨state, succ, next, han, hcounted, hstate, hflows⟩ :=
      flowAt_inStep helpers hacc hcalls hdesc hcourse h
    have hsound : ∀ fault, vm.flowAt helpers pc = .error fault → fault.unsound = true := by
      obtain ⟨rfl, -, -⟩ := hdesc
      have hlookup : lookupKeepsSpill state (decodeInstruction (vm.program.getD pc 0)) = true := by
        simp only [onCourse, keepsPointers, hstate, Option.all_some, and_eq_true] at hcourse
        exact hcourse.1.2
      have hout := execInsn_outcome helpers hcounted han.check han.successors hlookup han.transfer
      intro fault hfault
      unfold flowAt at hfault
      rw [hfault] at hout
      exact hout.2
    show follow (vm.flowAt helpers pc) ≠ _
    cases hflow : vm.flowAt helpers pc with
    | error fault =>
      intro heq
      obtain rfl : fault = .error .infiniteLoop := by simpa [follow] using heq
      exact absurd (hsound _ hflow) (by decide)
    | ok flow =>
      rw [hflow] at hflows
      have hresume : ∀ (vm₁ : EbpfVm) (pc₁ : ℕ),
          resume vm₁ pc₁ ≠ .halted (.error (.error .infiniteLoop)) := by
        intro vm₁ pc₁
        unfold resume
        split_ifs <;> simp
      cases flow with
      | ret value => simp [follow]
      | jump vm₁ target => exact hresume vm₁ target
      | next vm₁ pc₁ =>
        obtain ⟨_, out, _, hstep⟩ := hflows
        unfold follow
        dsimp only
        rw [hstep.count, if_neg (by omega)]
        exact hresume vm₁ (pc₁ + 1)

variable {helpers} (hdesc : m.Described ctx program)

include hdesc

omit hcalls in
theorem after_described_onCourse (hcourse : ∀ k < n, (after helpers m k).onCourse ctx = true) :
    (after helpers m n).Described ctx program := by
  apply after_described helpers hacc hdesc
  intro k hk
  exact (and_eq_true_iff.mp (hcourse k hk)).1

theorem after_inStep (hstart : InStepAt c 0 program m m') (hn : n < instructionLimit)
    (hcourse : ∀ k < n, (after helpers m k).onCourse ctx = true)
    (hlimit : ∀ k < n, (after helpers m k).fallsThrough helpers = true →
      (c + (k + 1)) % 2 ^ 64 ≤ instructionLimit) :
    InStepAt c n program (after helpers m n) (after helpers m' n) := by
  induction n with
  | zero => exact hstart
  | succ n ih =>
    have hbefore := ih (by omega) (fun k hk => hcourse k (by omega))
      (fun k hk => hlimit k (by omega))
    have hdescribed : (after helpers m n).Described ctx program :=
      after_described_onCourse hacc hdesc fun k hk => hcourse k (by omega)
    have hstep := step_inStep helpers hacc hcalls hdescribed (hcourse n (by omega)) hbefore hn
    exact hstep.1 (hlimit n (by omega))

theorem after_within_limit (hstart : InStepAt 0 0 program m m) (hn : n < instructionLimit)
    (hcourse : ∀ k < n, (after helpers m k).onCourse ctx = true)
    (hm : m ≠ .halted (.error (.error .infiniteLoop))) :
    after helpers m n ≠ .halted (.error (.error .infiniteLoop)) := by
  induction n with
  | zero => exact hm
  | succ n ih =>
    have hcourse' : ∀ k < n, (after helpers m k).onCourse ctx = true :=
      fun k hk => hcourse k (by omega)
    have hinStep : InStepAt 0 n program (after helpers m n) (after helpers m n) := by
      apply after_inStep hacc hcalls hdesc hstart (by omega) hcourse'
      intro k hk _
      omega
    exact step_within_limit helpers hacc hcalls (after_described_onCourse hacc hdesc hcourse')
      (hcourse n (by omega)) hinStep hn (ih (by omega) hcourse')

/-- The first machine to come to the limit ends otherwise, and only it does. -/
theorem after_eq_iff (hstart : InStepAt c 0 program m m') (hself : InStepAt 0 0 program m m)
    (hm : m ≠ .halted (.error (.error .infiniteLoop))) {len : ℕ} (hlen : len < instructionLimit)
    (hcourse : ∀ n < len, (after helpers m n).onCourse ctx = true)
    {result : Except Fault (BitVec 64)} (hhalted : after helpers m len = .halted result) :
    after helpers m' len = after helpers m len ↔
      ∀ n < len, (after helpers m n).fallsThrough helpers = true →
        (c + (n + 1)) % 2 ^ 64 ≤ instructionLimit := by
  constructor
  · intro heq n hn
    -- up to the first instruction beyond the limit the machines are in step
    induction n using Nat.strongRecOn with
    | ind n ih =>
      intro hfalls
      by_contra hover
      have hinStep := after_inStep hacc hcalls hdesc hstart (by omega)
        (fun k hk => hcourse k (by omega)) (fun k hk => ih k hk (by omega))
      have hdescribed : (after helpers m n).Described ctx program :=
        after_described_onCourse hacc hdesc fun k hk => hcourse k (by omega)
      have hstep := step_inStep helpers hacc hcalls hdescribed (hcourse n hn) hinStep (by omega)
      have hnext : after helpers m' (n + 1) = .halted (.error (.error .infiniteLoop)) :=
        hstep.2 hfalls (Nat.not_le.mp hover)
      have hends := after_of_halted hnext (Nat.succ_le_of_lt hn)
      rw [hends] at heq
      exact after_within_limit hacc hcalls hdesc hself hlen hcourse hm heq.symm
  · intro hlimit
    have hinStep := after_inStep hacc hcalls hdesc hstart hlen hcourse hlimit
    rw [hhalted] at hinStep ⊢
    cases hused : after helpers m' len with
    | running vm pc =>
      rw [hused] at hinStep
      exact hinStep.elim
    | halted result' =>
      rw [hused] at hinStep
      exact congrArg halted (Eq.symm hinStep)

end Run

theorem enter_inStep (hacc : Accepted program successors inStates) (ctx : BitVec 64)
    (hprogram : vm.program = program) :
    InStepAt vm.insnCount 0 program (resume ((new program).enter ctx) 0)
      (resume (vm.enter ctx) 0) := by
  have hlen : 0 < program.length := hacc.nonempty
  obtain ⟨state, hstate, hforgets, -⟩ := hacc.entry_joined
  have hfresh : resume ((new program).enter ctx) 0 =
      .running ((new program).enter ctx) 0 := if_pos hlen
  have hused : resume (vm.enter ctx) 0 = .running (vm.enter ctx) 0 :=
    if_pos (Nat.lt_of_lt_of_eq hlen (congrArg length hprogram.symm))
  rw [hfresh, hused]
  refine ⟨rfl, state, hstate, ?_⟩
  constructor
  · exact hprogram
  · rfl
  · intro k hk hset
    exact absurd (hforgets.init k hk hset) false_ne_true
  · rfl
  · rfl

def callsHelper (program : List (BitVec 64)) : Bool :=
  program.any fun raw => (decodeInstruction raw).isCall

/-- What a program without calls returns is what it returns on a new machine exactly if the
count that earlier executions left lets every instruction of the run pass that the limit is
checked after. -/
theorem execute_history_free_iff (hv : verifyProgram program = .ok ())
    (hcalls : callsHelper program = false) (helpers : Helpers) (ctx : BitVec 64)
    (hcourse : ∀ n < program.length,
      (after helpers (resume ((new program).enter ctx) 0) n).onCourse ctx = true)
    (history : List (BitVec 64)) :
    (∃ result, ((new program).execute helpers ctx).1 = .halted result) ∧
    ((((new program).executions helpers history).execute helpers ctx).1 =
        ((new program).execute helpers ctx).1 ↔
      ∀ n < program.length,
        (after helpers (resume ((new program).enter ctx) 0) n).fallsThrough helpers = true →
        (((new program).executions helpers history).insnCount + (n + 1)) % 2 ^ 64 ≤
          instructionLimit) := by
  obtain ⟨successors, inStates, hacc⟩ := accepted_of_verifyProgram hv
  have hcalls : ∀ raw ∈ program, (decodeInstruction raw).isCall = false := by
    simpa [callsHelper] using hcalls
  have hprogram : ((new program).executions helpers history).program = program :=
    executions_program _ _ _
  generalize (new program).executions helpers history = vm at hprogram ⊢
  have hshort : program.length < instructionLimit :=
    Nat.lt_of_le_of_lt hacc.length_le (by decide)
  have hfresh : ((new program).execute helpers ctx).1 =
      after helpers (resume ((new program).enter ctx) 0) program.length :=
    finish_outcome _ _ _
  have hused : (vm.execute helpers ctx).1 =
      after helpers (resume (vm.enter ctx) 0) program.length := by
    rw [execute, finish_outcome, hprogram]
  obtain ⟨result, hhalted⟩ : ∃ result,
      after helpers (resume ((new program).enter ctx) 0) program.length =
        .halted result := by
    have hsrc : ∀ raw ∈ ((new program).enter ctx).program,
        (decodeInstruction raw).src ≤ 10 := hacc.src_le
    have hforward := after_forward helpers hsrc program.length
    cases hm : after helpers (resume ((new program).enter ctx) 0) program.length with
    | halted result => exact ⟨result, rfl⟩
    | running vm' pc =>
      obtain ⟨_, hle, hlt⟩ := hforward vm' pc hm
      exact absurd hlt (Nat.not_lt.mpr hle)
  have hdesc : (resume ((new program).enter ctx) 0).Described ctx program :=
    described_start hacc rfl
  have hself : InStepAt 0 0 program (resume ((new program).enter ctx) 0)
      (resume ((new program).enter ctx) 0) := enter_inStep hacc ctx rfl
  have hrunning : resume ((new program).enter ctx) 0 ≠
      .halted (.error (.error .infiniteLoop)) := by
    unfold resume
    split_ifs <;> simp
  rw [hfresh, hused]
  constructor
  · exact ⟨result, hhalted⟩
  · exact after_eq_iff hacc hcalls hdesc (enter_inStep hacc ctx hprogram) hself hrunning hshort
      hcourse hhalted

/-- Store R0 eight bytes below the top of the stack and load it back. -/
def storeLoad : List (BitVec 64) :=
  [0xb400000000000005, 0xbc020a0000000000, 0x04020000fffffff8, 0x7b02000000000000,
    0xbc00020000000000, 0x7900000000000000, 0x9500000000000000]

theorem execute_history_free_iff_storeLoad :
    verifyProgram storeLoad = .ok () ∧
    (∃ result, ((new storeLoad).execute .noMaps 0x1000).1 = .halted result) ∧
    ((((new storeLoad).executions .noMaps [1, 2]).execute .noMaps 0x1000).1 =
        ((new storeLoad).execute .noMaps 0x1000).1 ↔
      ∀ n < storeLoad.length,
        (after .noMaps (resume ((new storeLoad).enter 0x1000) 0) n).fallsThrough .noMaps =
          true →
        (((new storeLoad).executions .noMaps [1, 2]).insnCount + (n + 1)) % 2 ^ 64 ≤
          instructionLimit) :=
  ⟨by decide +kernel, execute_history_free_iff (by decide +kernel) (by decide +kernel) .noMaps
    0x1000 (by decide +kernel) [1, 2]⟩

def moveExit : List (BitVec 64) := [0xb400000000000001, 0x9500000000000000]

section MoveExit

def moved (vm : EbpfVm) : EbpfVm :=
  { vm.counted with registers := fun k => if k = 0 then 1 else vm.registers k }

theorem resume_moveExit (vm : EbpfVm) (hprogram : vm.program = moveExit) {pc : ℕ} (hpc : pc < 2) :
    resume vm pc = .running vm pc :=
  if_pos (Nat.lt_of_lt_of_eq hpc (congrArg length hprogram).symm)

variable {vm : EbpfVm} (hprogram : vm.program = moveExit)
include hprogram

theorem step_move : vm.flowAt helpers 0 = .ok (.next (moved vm) 0) := by
  unfold flowAt
  rw [hprogram]
  rfl

theorem step_exit : vm.flowAt helpers 1 = .ok (.ret (vm.registers 0)) := by
  unfold flowAt
  rw [hprogram]
  rfl

theorem step_moveExit (ctx : BitVec 64) :
    step helpers (resume (vm.enter ctx) 0) = if instructionLimit < (vm.insnCount + 1) % 2 ^ 64 then
      .halted (.error (.error .infiniteLoop)) else .running (moved (vm.enter ctx)) 1 := by
  have hmove : (vm.enter ctx).flowAt helpers 0 = .ok (.next (moved (vm.enter ctx)) 0) :=
    step_move hprogram
  rw [resume_moveExit (vm.enter ctx) hprogram (by decide)]
  show follow ((vm.enter ctx).flowAt helpers 0) = _
  rw [hmove, ← resume_moveExit (moved (vm.enter ctx)) hprogram (by decide)]
  rfl

theorem execute_moveExit (ctx : BitVec 64) (hcount : vm.insnCount + 2 ≤ instructionLimit) :
    (vm.execute helpers ctx).2.insnCount = vm.insnCount + 2 := by
  have hmax : instructionLimit < 2 ^ 64 := by decide
  have hcounted : (vm.insnCount + 1) % 2 ^ 64 = vm.insnCount + 1 := Nat.mod_eq_of_lt (by omega)
  have hexit : (moved (vm.enter ctx)).flowAt helpers 1 = .ok (.ret 1) := step_exit hprogram
  have hnext : step helpers (resume (vm.enter ctx) 0) = _ := step_moveExit hprogram ctx
  rw [if_neg (by omega), resume_moveExit (vm.enter ctx) hprogram (by decide)] at hnext
  have hlength : vm.program.length = 2 := congrArg length hprogram
  have hleft : (moved (vm.enter ctx)).leftAt helpers 1 = (moved (vm.enter ctx)).counted := by
    unfold leftAt
    rw [hexit]
  unfold execute
  rw [hlength, resume_moveExit (vm.enter ctx) hprogram (by decide), finish, hnext, finish,
    hleft]
  show ((vm.insnCount + 1) % 2 ^ 64 + 1) % 2 ^ 64 = vm.insnCount + 2
  rw [hcounted]
  exact Nat.mod_eq_of_lt (by omega)

omit hprogram in
theorem executions_moveExit {runs : ℕ} (hruns : 2 * runs ≤ instructionLimit) :
    ((new moveExit).executions helpers (replicate runs 0)).insnCount = 2 * runs := by
  induction runs with
  | zero => rfl
  | succ runs ih =>
    have hprogram :
        ((new moveExit).executions helpers (replicate runs 0)).program = moveExit :=
      executions_program _ _ _
    have hlast : (new moveExit).executions helpers (replicate (runs + 1) 0) =
        (((new moveExit).executions helpers (replicate runs 0)).execute
          helpers 0).2 := by
      rw [replicate_succ', executions, foldl_append]
      rfl
    rw [hlast, execute_moveExit hprogram 0 (by omega)]
    omega

/-- A count at the limit lets no run come past its first instruction. -/
theorem execute_moveExit_limit (ctx : BitVec 64) (hcount : vm.insnCount = instructionLimit) :
    (vm.execute helpers ctx).1 = .halted (.error (.error .infiniteLoop)) := by
  have hlength := congrArg length hprogram
  have hnext : after helpers (resume (vm.enter ctx) 0) 1 =
      .halted (.error (.error .infiniteLoop)) := by
    have hstep : step helpers (resume (vm.enter ctx) 0) = _ := step_moveExit hprogram ctx
    rwa [hcount] at hstep
  rw [execute, finish_outcome, hlength]
  exact after_of_halted hnext (by decide)

end MoveExit

/-- Return the context's first four bytes and store their successor at the bottom of the stack. -/
def countRuns : List (BitVec 64) :=
  [0xbc00010000000000, 0x0100000000000000, 0xbc020a0000000000, 0x04020000fffffe00,
    0xbc03000000000000, 0x0400000000000001, 0x6302000000000000, 0xbc00030000000000,
    0x9500000000000000]

/-- Count in the stack slot below the one that the verifier sees read. -/
def countBelow : List (BitVec 64) :=
  [0xb400000000000002, 0xbc040a0000000000, 0x04040000fffffff8, 0x7b04000000000000,
    0xb404000000000000, 0xbc020a0000000000, 0x1500000100000001, 0x04020000fffffff8,
    0x04020000fffffff8, 0xbc00020000000000, 0x7900000000000000, 0x0400000000000001,
    0xbc040a0000000000, 0x04040000fffffff0, 0x7b04000000000000, 0x9500000000000000]

/-- Earlier executions show through the count, through a null context, which is an address in
the stack, and through a stack pointer whose offset a join has forgotten. -/
theorem execute_depends_on_history :
    (verifyProgram moveExit = .ok () ∧
      ((new moveExit).execute .noMaps 0).1 = .halted (.ok 1) ∧
      (((new moveExit).executions .noMaps (List.replicate 500000 0)).execute .noMaps 0).1 =
        .halted (.error (.error .infiniteLoop))) ∧
    (verifyProgram countRuns = .ok () ∧
      ((new countRuns).execute .noMaps 0).1 = .halted (.ok 0) ∧
      (((new countRuns).executions .noMaps [0]).execute .noMaps 0).1 = .halted (.ok 1)) ∧
    (verifyProgram countBelow = .ok () ∧
      ((new countBelow).execute .noMaps 0x1000).1 = .halted (.ok 1) ∧
      (((new countBelow).executions .noMaps [0x1000]).execute .noMaps 0x1000).1 =
        .halted (.ok 2)) := by
  refine ⟨⟨by decide +kernel, ?_, ?_⟩, ⟨by decide +kernel, ?_, ?_⟩, ⟨by decide +kernel, ?_, ?_⟩⟩
  · exact eq_halted_of_result (by decide +kernel)
  · apply execute_moveExit_limit (executions_program _ _ _)
    exact executions_moveExit (by decide)
  · exact eq_halted_of_result (by decide +kernel)
  · exact eq_halted_of_result (by decide +kernel)
  · exact eq_halted_of_result (by decide +kernel)
  · exact eq_halted_of_result (by decide +kernel)

end Machine

end EchOS.Net.Ebpf
