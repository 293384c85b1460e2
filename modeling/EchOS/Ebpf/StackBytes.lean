import EchOS.Ebpf.Vm
import EchOS.Lib.Fallible
import EchOS.Lib.Run

/-! The stack of the machine as byte-addressed memory. An access of `n` bytes at an address takes
the `n` places below the address, so accesses of different widths disagree about the place of a
byte. -/

namespace EchOS.Ebpf

open Except ByteStore

open Fallible (bind_eq_ok)

abbrev MemInsn := {insn : BpfInsn // insn.cls = .ldx ∨ insn.cls = .st ∨ insn.cls = .stx}

structure Store where
  addr : ℕ
  width : ℕ
  value : ℕ

/-- The memory after some stores, the last one first; a store of `m` bytes at `b` writes the
addresses from `b` up to `b + m`. -/
def storedBytes : List Store → ℕ → BitVec 8
  | [] => fun _ => 0
  | store :: stores =>
    writeLe (storedBytes stores) store.addr store.width store.value

/-- The stack after some stores, which take the places below their addresses. -/
def stackBytes : List Store → ℕ → BitVec 8
  | [] => fun _ => 0
  | store :: stores =>
    writeLe (stackBytes stores) (store.addr - store.width) store.width store.value

/-- The store has an address or a place in common with an access of `n` bytes at `a`. -/
def Store.Touches (store : Store) (a n : ℕ) : Prop :=
  (store.addr < a + n ∧ a < store.addr + store.width) ∨
    (store.addr - store.width < a ∧ a - n < store.addr)

structure StackLedger where
  vm : BpfVm
  stores : List Store

namespace StackLedger

def addr (l : StackLedger) (insn : MemInsn) : BitVec 64 :=
  l.vm.regs (if insn.1.cls = .ldx then insn.1.srcReg else insn.1.dstReg) + insn.1.off64

def storeOf (l : StackLedger) (insn : MemInsn) : Store where
  addr := (l.addr insn).toNat
  width := insn.1.memSize
  value := (if insn.1.cls = .st then insn.1.imm64 else l.vm.regs insn.1.srcReg).toNat

/-- An access out of bounds stops the machine where it is. -/
def step (l : StackLedger) (insn : MemInsn) : StackLedger :=
  match l.vm.execInsn [] insn.1 with
  | .error _ => l
  | .ok vm => ⟨vm, if insn.1.cls = .ldx then l.stores else l.storeOf insn :: l.stores⟩

def LoadsStored (l : StackLedger) (insn : MemInsn) : Prop :=
  insn.1.cls = .ldx → ∀ vm, l.vm.execInsn [] insn.1 = .ok vm →
    vm.regs insn.1.dstReg =
      BitVec.ofNat 64 (readLe (storedBytes l.stores) (l.addr insn).toNat insn.1.memSize)

/-- All stores that a load touches have its width. -/
def OneWidth (l : StackLedger) (insn : MemInsn) : Prop :=
  insn.1.cls = .ldx → ∀ store ∈ l.stores,
    store.Touches (l.addr insn).toNat insn.1.memSize → store.width = insn.1.memSize

/-- What the machine keeps: its stack holds the stores, each of which lies in the stack. -/
structure Sound (l : StackLedger) : Prop where
  stack : l.vm.stack = stackBytes l.stores
  bounds : ∀ store ∈ l.stores, store.width ≤ store.addr

end StackLedger

/-- Accesses of one width agree about the place of every byte. -/
theorem stackBytes_eq {stores : List Store} {a n i : ℕ} (hn : n ≤ a) (hi : i < n)
    (hbounds : ∀ store ∈ stores, store.width ≤ store.addr)
    (hwidth : ∀ store ∈ stores, store.Touches a n → store.width = n) :
    stackBytes stores (a - n + i) = storedBytes stores (a + i) := by
  induction stores with
  | nil => rfl
  | cons store stores ih =>
    obtain ⟨hle, hbounds⟩ := List.forall_mem_cons.mp hbounds
    obtain ⟨hsame, hwidth⟩ := List.forall_mem_cons.mp hwidth
    unfold stackBytes storedBytes writeLe
    by_cases htouches : store.Touches a n
    · have heq := hsame htouches
      have hplace : (store.addr - store.width ≤ a - n + i ∧
          a - n + i < store.addr - store.width + store.width) ↔
          store.addr ≤ a + i ∧ a + i < store.addr + store.width := by
        omega
      have hbyte : a - n + i - (store.addr - store.width) = a + i - store.addr := by
        omega
      simp only [hplace, hbyte, ih hbounds hwidth]
    · unfold Store.Touches at htouches
      rw [if_neg (by omega), if_neg (by omega)]
      exact ih hbounds hwidth

namespace BpfVm

variable {vm vm' : BpfVm} {insn : BpfInsn} {addr value : BitVec 64} {n : ℕ}

theorem checkStackBounds_eq_ok {idx : ℕ} (h : checkStackBounds addr n = .ok idx) :
    n ≤ addr.toNat ∧ idx = addr.toNat - n := by
  unfold checkStackBounds at h
  split_ifs at h with hbounds
  exact ⟨by omega, (ok.inj h).symm⟩

theorem stackWrite_next_eq_ok
    (h : (do let vm ← vm.stackWrite addr n value; return vm.next) = Except.ok vm') :
    n ≤ addr.toNat ∧
      vm'.stack = writeLe vm.stack (addr.toNat - n) n value.toNat := by
  obtain ⟨stored, hwrite, h⟩ := bind_eq_ok.mp h
  obtain ⟨idx, hidx, hstored⟩ := bind_eq_ok.mp hwrite
  obtain ⟨hle, rfl⟩ := checkStackBounds_eq_ok hidx
  cases hstored
  cases h
  exact ⟨hle, rfl⟩

end BpfVm

namespace StackLedger

variable {l : StackLedger} {vm : BpfVm} {insn : MemInsn}

theorem load_spec (hcls : insn.1.cls = .ldx) (h : l.vm.execInsn [] insn.1 = .ok vm) :
    insn.1.memSize ≤ (l.addr insn).toNat ∧ vm.stack = l.vm.stack ∧
      vm.regs insn.1.dstReg = BitVec.ofNat 64 (readLe l.vm.stack
        ((l.addr insn).toNat - insn.1.memSize) insn.1.memSize) := by
  unfold BpfVm.execInsn at h
  simp only [hcls] at h
  unfold addr
  rw [if_pos hcls]
  obtain ⟨_, -, h⟩ := bind_eq_ok.mp h
  obtain ⟨_, -, h⟩ := bind_eq_ok.mp h
  obtain ⟨value, hread, h⟩ := bind_eq_ok.mp h
  obtain ⟨idx, hidx, hvalue⟩ := bind_eq_ok.mp hread
  obtain ⟨hle, rfl⟩ := BpfVm.checkStackBounds_eq_ok hidx
  cases hvalue
  cases h
  exact ⟨hle, rfl, if_pos rfl⟩

theorem store_spec (hcls : insn.1.cls ≠ .ldx) (h : l.vm.execInsn [] insn.1 = .ok vm) :
    (l.storeOf insn).width ≤ (l.storeOf insn).addr ∧
      vm.stack = writeLe l.vm.stack ((l.storeOf insn).addr - (l.storeOf insn).width)
        (l.storeOf insn).width (l.storeOf insn).value := by
  unfold BpfVm.execInsn at h
  unfold storeOf addr
  rw [if_neg hcls]
  rcases insn.2.resolve_left hcls with hst | hstx
  · simp only [hst] at h
    rw [if_pos hst]
    obtain ⟨_, -, h⟩ := bind_eq_ok.mp h
    exact BpfVm.stackWrite_next_eq_ok h
  · simp only [hstx] at h
    rw [if_neg (by simp [hstx])]
    have hall : ∀ opcode : BitVec 8, ¬ (memSizeBytes opcode = 8 ∧ opcode &&& 0xf0 = 0xc0) := by
      decide
    have hatomic : ¬ (insn.1.memSize = 8 ∧ insn.1.opcode &&& 0xf0 = 0xc0) := hall insn.1.opcode
    obtain ⟨_, -, h⟩ := bind_eq_ok.mp h
    obtain ⟨_, -, h⟩ := bind_eq_ok.mp h
    rw [if_neg hatomic] at h
    exact BpfVm.stackWrite_next_eq_ok h

theorem step_sound (l : StackLedger) (insn : MemInsn) (h : l.Sound) : (l.step insn).Sound := by
  unfold step
  split
  · exact h
  · rename_i vm hexec
    split_ifs with hcls
    · obtain ⟨-, hstack, -⟩ := load_spec hcls hexec
      exact ⟨hstack.trans h.stack, h.bounds⟩
    · obtain ⟨hle, hstack⟩ := store_spec hcls hexec
      refine ⟨?_, List.forall_mem_cons.mpr ⟨hle, h.bounds⟩⟩
      rw [stackBytes, ← h.stack]
      exact hstack

theorem loadsStored_of_oneWidth (l : StackLedger) (insn : MemInsn) (h : l.Sound)
    (hwidth : l.OneWidth insn) : l.LoadsStored insn := by
  intro hcls vm hexec
  obtain ⟨hle, -, hload⟩ := load_spec hcls hexec
  rw [hload, h.stack]
  congr 1
  refine readLe_eq fun i hi => ?_
  exact stackBytes_eq hle hi h.bounds (hwidth hcls)

/-- From a stack of zeros, every load returns the bytes last stored at its addresses, in every run
whose loads touch no store of another width. -/
theorem loads_read_last_stores (vm : BpfVm) (hzero : ∀ k, vm.stack k = 0) (insns : List MemInsn)
    (hwidths : Run.Along step OneWidth ⟨vm, []⟩ insns) :
    Run.Along step LoadsStored ⟨vm, []⟩ insns :=
  Run.Along.safety (fun l insn h _ => step_sound l insn h) loadsStored_of_oneWidth
    ⟨funext hzero, fun _ hmem => nomatch hmem⟩ hwidths

instance (store : Store) (a n : ℕ) : Decidable (store.Touches a n) :=
  inferInstanceAs (Decidable (_ ∨ _))

instance (l : StackLedger) (insn : MemInsn) : Decidable (l.OneWidth insn) :=
  inferInstanceAs (Decidable (_ → ∀ store ∈ l.stores, _ → _ = _))

def storeOne : MemInsn := ⟨⟨0x7a, 0x0a, -504, 1⟩, by decide⟩

def loadAt (opcode : BitVec 8) (h : InsnClass.ofOpcode opcode = .ldx) : MemInsn :=
  ⟨⟨opcode, 0xa0, -504, 0⟩, .inl h⟩

theorem loads_read_last_stores_one_width :
    Run.Along step LoadsStored ⟨.new, []⟩ [storeOne, loadAt 0x79 (by decide)] :=
  loads_read_last_stores .new (fun _ => rfl) _ (by decide +kernel)

/-- A byte is loaded from where eight were stored: it is the highest of them, and not the one. -/
theorem byte_load_misses_low_byte :
    ¬ Run.Along step LoadsStored ⟨.new, []⟩ [storeOne, loadAt 0x71 (by decide)] := by
  rintro ⟨-, hload, -⟩
  have hvalue := hload rfl _ rfl
  exact absurd hvalue (by decide +kernel)

end StackLedger

end EchOS.Ebpf
