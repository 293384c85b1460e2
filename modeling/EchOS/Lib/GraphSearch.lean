import Mathlib.Data.Set.Basic
import Mathlib.Tactic.Common
import EchOS.Lib.Loop

/-! Depth-first search with a stack and a set of visited nodes, and graphs without cycles. -/

namespace GraphSearch

open List Relation Relation.ReflTransGen

section Search

variable {α : Type*} [DecidableEq α]

/-- One round: pop a node, stop at the target, skip what was visited, push the successors. -/
def step (succ : α → List α) (target : α) :
    List α × List α → Option ((List α × List α) ⊕ Bool)
  | (_, []) => some (.inr false)
  | (visited, x :: stack) =>
    if x = target then some (.inr true)
    else if x ∈ visited then some (.inl (visited, stack))
    else some (.inl (x :: visited, (succ x).reverse ++ stack))

def Edge (succ : α → List α) (x y : α) : Prop := y ∈ succ x

def Reach (succ : α → List α) : α → α → Prop := Relation.ReflTransGen (Edge succ)

/-- What the search may still push: the successors of nodes it has not visited. -/
def pending (succ : α → List α) (visited : List α) : List α → ℕ
  | [] => 0
  | k :: keys => (if k ∈ visited then 0 else (succ k).length) + pending succ visited keys

variable {succ : α → List α} {target : α} {keys visited stack : List α} {x : α}

theorem pending_cons_le (x : α) : pending succ (x :: visited) keys ≤ pending succ visited keys := by
  induction keys with
  | nil => exact Nat.le_refl 0
  | cons k keys ih =>
    unfold pending
    by_cases hk : k ∈ visited
    · rw [if_pos (mem_cons_of_mem x hk)]
      omega
    · split_ifs <;> omega

theorem pending_visit (hkeys : x ∉ keys → succ x = []) (hx : x ∉ visited) :
    (succ x).length + pending succ (x :: visited) keys ≤ pending succ visited keys := by
  induction keys with
  | nil =>
    rw [hkeys not_mem_nil]
    exact Nat.le_refl 0
  | cons k keys ih =>
    unfold pending
    by_cases hkx : k = x
    · subst hkx
      have hrest : pending succ (k :: visited) keys ≤ pending succ visited keys := pending_cons_le k
      rw [if_pos mem_cons_self, if_neg hx]
      omega
    · have hrest := ih fun hmem => hkeys (by simp [hmem, Ne.symm hkx])
      by_cases hk : k ∈ visited
      · rw [if_pos (mem_cons_of_mem x hk)]
        omega
      · rw [if_neg hk, if_neg (by simp [hk, hkx])]
        omega

/-- Successors of visited nodes are visited or on the stack. -/
def Closed (succ : α → List α) (visited stack : List α) : Prop :=
  ∀ x ∈ visited, ∀ y ∈ succ x, y ∈ visited ∨ y ∈ stack

omit [DecidableEq α] in
theorem Closed.exit (h : Closed succ visited stack) (htarget : target ∉ visited)
    (hx : x ∈ visited) (hreach : Reach succ x target) : ∃ y ∈ stack, Reach succ y target := by
  induction hreach using ReflTransGen.head_induction_on with
  | refl => exact absurd hx htarget
  | head hedge hrest ih =>
    rcases h _ hx _ hedge with hvisited | hstack
    · exact ih hvisited
    · exact ⟨_, hstack, hrest⟩

omit [DecidableEq α] in
theorem exists_reach_cons_iff (hne : x ≠ target) :
    (∃ y ∈ x :: stack, Reach succ y target) ↔
      ∃ y ∈ (succ x).reverse ++ stack, Reach succ y target := by
  constructor
  · rintro ⟨y, hy, hreach⟩
    rcases mem_cons.mp hy with rfl | hy
    · rcases ReflTransGen.cases_head hreach with rfl | ⟨z, hedge, hrest⟩
      · exact absurd rfl hne
      · exact ⟨z, mem_append_left stack (mem_reverse.mpr hedge), hrest⟩
    · exact ⟨y, by simp [hy], hreach⟩
  · rintro ⟨y, hy, hreach⟩
    rw [mem_append, mem_reverse] at hy
    rcases hy with hy | hy
    · exact ⟨x, mem_cons_self, ReflTransGen.head hy hreach⟩
    · exact ⟨y, mem_cons_of_mem x hy, hreach⟩

/-- The search ends, and finds the target exactly when the stack reaches it. -/
theorem run_step (hkeys : ∀ y, y ∉ keys → succ y = []) {rounds : ℕ}
    (hclosed : Closed succ visited stack) (htarget : target ∉ visited)
    (hrounds : stack.length + pending succ visited keys < rounds) :
    ∃ found, Loop.run (step succ target) rounds (visited, stack) = some found ∧
      (found = true ↔ ∃ y ∈ stack, Reach succ y target) := by
  induction rounds generalizing visited stack with
  | zero => exact absurd hrounds (Nat.not_lt_zero _)
  | succ rounds ih =>
    cases stack with
    | nil => exact ⟨false, Loop.run_done rfl (Nat.succ_pos _), by simp⟩
    | cons x stack =>
      rw [length_cons] at hrounds
      by_cases hx : x = target
      · have hstep : step succ target (visited, x :: stack) = some (.inr true) := if_pos hx
        refine ⟨true, Loop.run_done hstep (Nat.succ_pos _), ?_⟩
        subst hx
        simp only [true_iff]
        exact ⟨x, mem_cons_self, refl⟩
      by_cases hvisited : x ∈ visited
      · have hstep : step succ target (visited, x :: stack) = some (.inl (visited, stack)) := by
          rw [step, if_neg hx, if_pos hvisited]
        have hclosed' : Closed succ visited stack := by
          intro y hy z hz
          rcases hclosed y hy z hz with hz | hz
          · exact .inl hz
          · rcases mem_cons.mp hz with rfl | hz
            · exact .inl hvisited
            · exact .inr hz
        obtain ⟨found, hrun, hfound⟩ := ih hclosed' htarget (by omega)
        refine ⟨found, by rw [Loop.run_next hstep, hrun], ?_⟩
        rw [hfound]
        constructor
        · rintro ⟨y, hy, hreach⟩
          exact ⟨y, mem_cons_of_mem x hy, hreach⟩
        · rintro ⟨y, hy, hreach⟩
          rcases mem_cons.mp hy with rfl | hy
          · exact hclosed'.exit htarget hvisited hreach
          · exact ⟨y, hy, hreach⟩
      · have hstep : step succ target (visited, x :: stack) =
            some (.inl (x :: visited, (succ x).reverse ++ stack)) := by
          rw [step, if_neg hx, if_neg hvisited]
        have hclosed' : Closed succ (x :: visited) ((succ x).reverse ++ stack) := by
          intro y hy z hz
          rw [mem_append, mem_reverse]
          rcases mem_cons.mp hy with rfl | hy
          · exact .inr (.inl hz)
          · rcases hclosed y hy z hz with hz | hz
            · exact .inl (mem_cons_of_mem x hz)
            · rcases mem_cons.mp hz with rfl | hz
              · exact .inl mem_cons_self
              · exact .inr (.inr hz)
        have htarget' : target ∉ x :: visited := by
          simp only [mem_cons, not_or]
          exact ⟨fun h => hx h.symm, htarget⟩
        have hvisit := pending_visit (hkeys x) hvisited
        obtain ⟨found, hrun, hfound⟩ := ih hclosed' htarget' (by
          rw [length_append, length_reverse]
          omega)
        exact ⟨found, by rw [Loop.run_next hstep, hrun], by rw [hfound, exists_reach_cons_iff hx]⟩

end Search

section Acyclic

variable {α : Type*} {r r' : α → α → Prop} {waiter : α} {holders : Set α}

def Acyclic (r : α → α → Prop) : Prop := ∀ x, ¬ Relation.TransGen r x x

theorem Acyclic.mono (h : Acyclic r) (hsub : ∀ x y, r' x y → r x y) : Acyclic r' :=
  fun x hx => h x (TransGen.mono hsub x x hx)

variable (hsub : ∀ x y, r' x y → (x = waiter ∧ y ∈ holders) ∨ r x y)
include hsub

theorem reach_of_update {x : α}
    (h : Relation.ReflTransGen r' x waiter) : Relation.ReflTransGen r x waiter := by
  induction h using ReflTransGen.head_induction_on with
  | refl => exact refl
  | head hedge _ ih =>
    rcases hsub _ _ hedge with ⟨rfl, -⟩ | hold
    · exact refl
    · exact ReflTransGen.head hold ih

theorem path_of_update {x y : α} (h : Relation.TransGen r' x y) :
    Relation.TransGen r x y ∨ ∃ holder ∈ holders,
      Relation.ReflTransGen r' x waiter ∧ Relation.ReflTransGen r' holder y := by
  induction h with
  | single hedge =>
    rcases hsub _ _ hedge with ⟨rfl, hholder⟩ | hold
    · exact .inr ⟨_, hholder, refl, refl⟩
    · exact .inl (Relation.TransGen.single hold)
  | tail hpath hedge ih =>
    rcases ih with hpast | ⟨holder, hholder, hto, hfrom⟩
    · rcases hsub _ _ hedge with ⟨rfl, hholder⟩ | hold
      · exact .inr ⟨_, hholder, hpath.to_reflTransGen, refl⟩
      · exact .inl (hpast.tail hold)
    · exact .inr ⟨holder, hholder, hto, hfrom.tail hedge⟩

/-- New edges from a node to nodes that do not reach it close no cycle. -/
theorem Acyclic.update (h : Acyclic r)
    (hfree : ∀ holder ∈ holders, ¬ Relation.ReflTransGen r holder waiter) : Acyclic r' := by
  intro x hcycle
  rcases path_of_update hsub hcycle with hpath | ⟨holder, hholder, hto, hfrom⟩
  · exact h x hpath
  · exact hfree holder hholder (reach_of_update hsub (hfrom.trans hto))

end Acyclic

end GraphSearch
