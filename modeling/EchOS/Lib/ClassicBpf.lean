import Mathlib.Tactic.Common

/-! Classic BPF filters that load words, compare them and return. -/

namespace ClassicBpf

/-- Jumps are relative to the next instruction, and go forward. -/
inductive Instr
  | ldImm (k : BitVec 32)
  | ldAbs (offset : BitVec 32)
  | jeq (k : BitVec 32) (jt jf : BitVec 8)
  | jgt (k : BitVec 32) (jt jf : BitVec 8)
  | jge (k : BitVec 32) (jt jf : BitVec 8)
  | ret (k : BitVec 32)
  deriving DecidableEq

def Instr.step (load : BitVec 32 → BitVec 32) (pc : ℕ) (a : BitVec 32) :
    Instr → (ℕ × BitVec 32) ⊕ BitVec 32
  | .ldImm k => .inl (pc + 1, k)
  | .ldAbs offset => .inl (pc + 1, load offset)
  | .jeq k jt jf => .inl (pc + 1 + (if a = k then jt else jf).toNat, a)
  | .jgt k jt jf => .inl (pc + 1 + (if k < a then jt else jf).toNat, a)
  | .jge k jt jf => .inl (pc + 1 + (if k ≤ a then jt else jf).toNat, a)
  | .ret k => .inr k

/-- The constant of the return instruction that is reached within a number of steps. -/
def run (load : BitVec 32 → BitVec 32) (program : List Instr) :
    ℕ → ℕ → BitVec 32 → Option (BitVec 32)
  | 0, _, _ => none
  | steps + 1, pc, a =>
    match program[pc]? with
    | none => none
    | some instr =>
      match instr.step load pc a with
      | .inl next => run load program steps next.1 next.2
      | .inr k => some k

def result (load : BitVec 32 → BitVec 32) (program : List Instr) : Option (BitVec 32) :=
  run load program program.length 0 0

/-- Every path from a program counter ends in a return. -/
inductive Ends (program : List Instr) : ℕ → Prop
  | ret {pc : ℕ} {k : BitVec 32} : program[pc]? = some (.ret k) → Ends program pc
  | ldImm {pc : ℕ} {k : BitVec 32} : program[pc]? = some (.ldImm k) → Ends program (pc + 1) →
    Ends program pc
  | ldAbs {pc : ℕ} {offset : BitVec 32} : program[pc]? = some (.ldAbs offset) →
    Ends program (pc + 1) → Ends program pc
  | jeq {pc : ℕ} {k : BitVec 32} {jt jf : BitVec 8} : program[pc]? = some (.jeq k jt jf) →
    Ends program (pc + 1 + jt.toNat) → Ends program (pc + 1 + jf.toNat) → Ends program pc
  | jgt {pc : ℕ} {k : BitVec 32} {jt jf : BitVec 8} : program[pc]? = some (.jgt k jt jf) →
    Ends program (pc + 1 + jt.toNat) → Ends program (pc + 1 + jf.toNat) → Ends program pc
  | jge {pc : ℕ} {k : BitVec 32} {jt jf : BitVec 8} : program[pc]? = some (.jge k jt jf) →
    Ends program (pc + 1 + jt.toNat) → Ends program (pc + 1 + jf.toNat) → Ends program pc

variable {load : BitVec 32 → BitVec 32} {program : List Instr} {pc steps : ℕ} {instr : Instr}

theorem run_next {a : BitVec 32} {next : ℕ × BitVec 32}
    (hinstr : program[pc]? = some instr) (hstep : instr.step load pc a = .inl next) :
    run load program (steps + 1) pc a = run load program steps next.1 next.2 := by
  rw [run, hinstr]
  dsimp only
  rw [hstep]

theorem lt_length (h : program[pc]? = some instr) : pc < program.length := by
  by_contra hge
  rw [List.getElem?_eq_none (Nat.not_lt.mp hge)] at h
  cases h

/-- From a program counter that every path ends from, as many steps as there are instructions
left are enough: every step goes forward. -/
theorem Ends.run_isSome (h : Ends program pc) (a : BitVec 32)
    (hsteps : program.length ≤ pc + steps) : (run load program steps pc a).isSome = true := by
  induction h generalizing steps a with
  | ret hinstr =>
    have hlt := lt_length hinstr
    obtain ⟨steps, rfl⟩ : ∃ n, steps = n + 1 := ⟨steps - 1, by omega⟩
    rw [run, hinstr]
    rfl
  | ldImm hinstr _ ih | ldAbs hinstr _ ih =>
    have hlt := lt_length hinstr
    obtain ⟨steps, rfl⟩ : ∃ n, steps = n + 1 := ⟨steps - 1, by omega⟩
    rw [run_next hinstr rfl]
    exact ih _ (by omega)
  | jeq hinstr _ _ ht hf | jgt hinstr _ _ ht hf | jge hinstr _ _ ht hf =>
    have hlt := lt_length hinstr
    obtain ⟨steps, rfl⟩ : ∃ n, steps = n + 1 := ⟨steps - 1, by omega⟩
    rw [run_next hinstr rfl]
    split_ifs
    · exact ht _ (by omega)
    · exact hf _ (by omega)

theorem Ends.result_eq_some (load : BitVec 32 → BitVec 32) (h : Ends program 0) :
    ∃ k, result load program = some k :=
  Option.isSome_iff_exists.mp (h.run_isSome 0 (by omega))

end ClassicBpf
