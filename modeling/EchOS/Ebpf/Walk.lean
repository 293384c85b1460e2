import EchOS.Ebpf.Verifier
import EchOS.Lib.Fallible

/-! What acceptance says about the indices that the verifier's walk comes to. -/

namespace EchOS.Ebpf

open List Fallible

theorem BpfInsn.width_pos (insn : BpfInsn) : 0 < insn.width := by
  unfold width
  split_ifs
  · exact Nat.two_pos
  · exact Nat.one_pos

namespace BpfVerifier

variable {program : List BpfInsn} {insn : BpfInsn} {i : ℕ} {progLen rounds j : ℕ}

structure Checked (progLen i : ℕ) (insn : BpfInsn) : Prop where
  dst : insn.dstReg < bpfRegCount
  src : insn.usesSrc = true → insn.srcReg < bpfRegCount
  fp : insn.cls = .alu ∨ insn.cls = .alu64 → insn.dstReg ≠ bpfRegFp
  jump : insn.isJump = true → 0 ≤ target i insn ∧ target i insn < progLen
  forward : insn.isJump = true → insn.jmpOp ≠ some .ja → 0 ≤ insn.off.toInt
  slot : insn.isLddw = true → i + 1 < progLen

theorem checkJump_eq_ok (h : checkJump progLen i insn = .ok ()) (hjump : insn.isJump = true) :
    (0 ≤ target i insn ∧ target i insn < progLen) ∧
      (insn.jmpOp ≠ some .ja → 0 ≤ insn.off.toInt) := by
  unfold checkJump at h
  rw [if_neg (by simp [hjump])] at h
  split_ifs at h with hrange hback
  constructor
  · omega
  · intro hja
    by_contra hneg
    exact hback ⟨hja, by omega⟩

theorem checked_of_checkInsn (h : checkInsn progLen i insn = .ok ()) : Checked progLen i insn := by
  unfold checkInsn at h
  split_ifs at h with hdst hsrc hfp hlddw
  · obtain ⟨_, _, hslot⟩ := bind_eq_ok.mp h
    cases hslot
  obtain ⟨_, hjump, _⟩ := bind_eq_ok.mp h
  constructor
  · omega
  · intro huses
    by_contra hlarge
    exact hsrc ⟨huses, by omega⟩
  · intro hcls heq
    exact hfp ⟨hcls, heq⟩
  · exact fun hisJump => (checkJump_eq_ok hjump hisJump).1
  · exact fun hisJump => (checkJump_eq_ok hjump hisJump).2
  · intro hisLddw
    by_contra hlarge
    exact hlddw ⟨hisLddw, by omega⟩

theorem walk_checked (h : walk program rounds j = .ok ())
    (hi : i ∈ visitsFrom program rounds j) (hinsn : program[i]? = some insn) :
    Checked program.length i insn := by
  fun_induction visitsFrom program rounds j with
  | case1 | case2 => exact absurd hi not_mem_nil
  | case3 rounds j first hj ih =>
    unfold walk at h
    rw [hj] at h
    obtain ⟨_, hcheck, hrest⟩ := bind_eq_ok.mp h
    rcases mem_cons.mp hi with rfl | hi
    · obtain rfl : first = insn := Option.some.inj (hj.symm.trans hinsn)
      exact checked_of_checkInsn hcheck
    · exact ih hrest hi

theorem lt_of_mem_visitsFrom (hi : i ∈ visitsFrom program rounds j) : i < program.length := by
  fun_induction visitsFrom program rounds j with
  | case1 | case2 => exact absurd hi not_mem_nil
  | case3 rounds j first hj ih =>
    rcases mem_cons.mp hi with rfl | hi
    · exact (List.getElem?_eq_some_iff.mp hj).1
    · exact ih hi

theorem visitsFrom_next (hrounds : program.length - j ≤ rounds)
    (hi : i ∈ visitsFrom program rounds j) (hinsn : program[i]? = some insn)
    (hnext : i + insn.width < program.length) : i + insn.width ∈ visitsFrom program rounds j := by
  fun_induction visitsFrom program rounds j with
  | case1 | case2 => exact absurd hi not_mem_nil
  | case3 rounds j first hj ih =>
    have hwidth := BpfInsn.width_pos first
    apply mem_cons_of_mem
    rcases mem_cons.mp hi with rfl | hi
    · obtain rfl : first = insn := Option.some.inj (hj.symm.trans hinsn)
      obtain ⟨rounds, rfl⟩ : ∃ k, rounds = k + 1 := ⟨rounds - 1, by omega⟩
      unfold visitsFrom
      rw [List.getElem?_eq_getElem hnext]
      exact mem_cons_self
    · exact ih (by omega) hi

structure Accepted (program : List BpfInsn) : Prop where
  start : 0 ∈ visits program
  short : program.length ≤ bpfMaxInsns
  last : ∀ insn, program[program.length - 1]? = some insn →
    insn.cls = .jmp ∧ insn.jmpOp = some .exit
  checked : ∀ i insn, i ∈ visits program → program[i]? = some insn →
    Checked program.length i insn

theorem accepted_of_verify (h : verify program = .ok ()) : Accepted program := by
  unfold verify at h
  cases hlast : program.getLast? with
  | none => simp [hlast] at h
  | some last =>
    rw [hlast] at h
    dsimp only at h
    split_ifs at h with hlong hexit
    have hne : program ≠ [] := by
      intro hnil
      simp [hnil] at hlast
    have hpos : 0 < program.length := length_pos_iff.mpr hne
    constructor
    · obtain ⟨rounds, hrounds⟩ : ∃ k, program.length = k + 1 := ⟨program.length - 1, by omega⟩
      unfold visits
      rw [hrounds]
      unfold visitsFrom
      rw [List.getElem?_eq_getElem hpos]
      exact mem_cons_self
    · omega
    · intro insn hinsn
      rw [← List.getLast?_eq_getElem?, hlast] at hinsn
      cases hinsn
      constructor
      · by_contra hcls
        exact hexit (.inl hcls)
      · by_contra hop
        exact hexit (.inr hop)
    · exact fun i insn hi hinsn => walk_checked h hi hinsn

theorem visits_next (hi : i ∈ visits program) (hinsn : program[i]? = some insn)
    (hnext : i + insn.width < program.length) : i + insn.width ∈ visits program :=
  visitsFrom_next (by omega) hi hinsn hnext

end BpfVerifier

end EchOS.Ebpf
