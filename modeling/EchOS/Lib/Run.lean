import Mathlib.Algebra.GroupWithZero.Nat
import Mathlib.Data.List.Basic

/-! Runs of a deterministic system: a step function folded over a list of
operations, and properties of the steps taken along the way. -/
namespace Run

variable {σ α : Type*}

def exec (step : σ → α → σ) (s : σ) (ops : List α) : σ := ops.foldl step s

/-- `P` holds of every operation of the run and the state it is taken from. -/
def Along (step : σ → α → σ) (P : σ → α → Prop) : σ → List α → Prop
  | _, [] => True
  | s, a :: ops => P s a ∧ Along step P (step s a) ops

instance Along.decidable (step : σ → α → σ) (P : σ → α → Prop)
    [hP : ∀ s a, Decidable (P s a)] : ∀ s ops, Decidable (Along step P s ops)
  | _, [] => inferInstanceAs (Decidable True)
  | s, a :: ops =>
    have := Along.decidable step P (step s a) ops
    inferInstanceAs (Decidable (P s a ∧ Along step P (step s a) ops))

variable {step : σ → α → σ} {P Q G : σ → α → Prop} {I : σ → Prop}

variable (s : σ) {ops : List α}

@[simp] theorem exec_nil : exec step s [] = s := rfl

@[simp] theorem exec_cons (a : α) (ops : List α) :
    exec step s (a :: ops) = exec step (step s a) ops := rfl

theorem exec_append (ops ops' : List α) :
    exec step s (ops ++ ops') = exec step (exec step s ops) ops' := by
  simp [exec, List.foldl_append]

theorem exec_concat (ops : List α) (a : α) :
    exec step s (ops ++ [a]) = step (exec step s ops) a := by
  rw [exec_append, exec_cons, exec_nil]

@[simp] theorem along_nil : Along step P s [] := trivial

@[simp] theorem along_cons (a : α) (ops : List α) :
    Along step P s (a :: ops) ↔ P s a ∧ Along step P (step s a) ops := Iff.rfl

theorem along_append (ops ops' : List α) :
    Along step P s (ops ++ ops') ↔ Along step P s ops ∧ Along step P (exec step s ops) ops' := by
  induction ops generalizing s with
  | nil => simp
  | cons a ops ih => simp [ih, and_assoc]

theorem along_and (ops : List α) :
    Along step (fun s a => P s a ∧ Q s a) s ops ↔ Along step P s ops ∧ Along step Q s ops := by
  induction ops generalizing s with
  | nil => simp
  | cons a ops ih =>
    rw [along_cons, ih]
    exact and_and_and_comm

theorem along_iff_split (ops : List α) :
    Along step P s ops ↔ ∀ l a r, ops = l ++ a :: r → P (exec step s l) a := by
  constructor
  · rintro h l a r rfl
    exact ((along_append s l (a :: r)).mp h).2.1
  · intro h
    induction ops generalizing s with
    | nil => trivial
    | cons b ops ih =>
      refine ⟨h [] b ops rfl, ih (step s b) ?_⟩
      rintro l a r rfl
      exact h (b :: l) a r rfl

/-- Two step properties that agree in every state of an invariant, which they keep, agree along
every run. -/
theorem along_congr (keep : ∀ s a, I s → Q s a → I (step s a))
    (h : ∀ s a, I s → (P s a ↔ Q s a)) {s : σ} (hs : I s) (ops : List α) :
    Along step P s ops ↔ Along step Q s ops := by
  induction ops generalizing s with
  | nil => simp
  | cons a ops ih =>
    rw [along_cons, along_cons, h s a hs]
    exact and_congr_right fun hq => ih (keep s a hs hq)

/-- Invariant rule for guarded runs: a step that meets the guard keeps the invariant. -/
theorem Along.invariant (keep : ∀ s a, I s → G s a → I (step s a)) {s : σ}
    (hs : I s) (hg : Along step G s ops) : I (exec step s ops) := by
  induction ops generalizing s with
  | nil => exact hs
  | cons a ops ih => exact ih (keep s a hs hg.1) hg.2

/-- Safety rule: what the invariant and the guard give for one step holds of every step. -/
theorem Along.safety (keep : ∀ s a, I s → G s a → I (step s a))
    (safe : ∀ s a, I s → G s a → P s a) {s : σ}
    (hs : I s) (hg : Along step G s ops) : Along step P s ops := by
  induction ops generalizing s with
  | nil => trivial
  | cons a ops ih => exact ⟨safe s a hs hg.1, ih (keep s a hs hg.1) hg.2⟩

theorem exec_invariant (keep : ∀ s a, I s → I (step s a)) {s : σ} (hs : I s) (ops : List α) :
    I (exec step s ops) := by
  induction ops generalizing s with
  | nil => exact hs
  | cons a ops ih => exact ih (keep s a hs)

end Run
