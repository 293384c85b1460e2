import Mathlib.Tactic.Common

/-! Reading results back out of computations that may fail. -/

namespace Fallible

universe u v

variable {ε : Type u} {α β : Type v} {x : Except ε α}

theorem bind_eq_ok {f : α → Except ε β} {b : β} :
    (x >>= f) = .ok b ↔ ∃ a, x = .ok a ∧ f a = .ok b := by
  cases x with
  | error e | ok a => simp [bind, Except.bind]

theorem map_eq_ok {f : α → β} {b : β} : x.map f = .ok b ↔ ∃ a, x = .ok a ∧ f a = b := by
  cases x with
  | error e | ok a => simp [Except.map]

theorem forM_eq_ok {f : α → Except ε PUnit} {l : List α} :
    forM l f = .ok PUnit.unit ↔ ∀ a ∈ l, f a = .ok PUnit.unit := by
  induction l with
  | nil => simp [pure, Except.pure]
  | cons a l ih =>
    rw [List.forM_cons, bind_eq_ok, List.forall_mem_cons, ← ih]
    constructor
    · rintro ⟨⟨⟩, ha, hl⟩
      exact ⟨ha, hl⟩
    · rintro ⟨ha, hl⟩
      exact ⟨_, ha, hl⟩

instance decidableExistsOk {P : α → Prop} [DecidablePred P] : Decidable (∃ a, x = .ok a ∧ P a) :=
  match x with
  | .ok a => decidable_of_iff (P a) (by simp)
  | .error _ => isFalse (by simp)

def refuse (c : Prop) [Decidable c] (e : ε) : Except ε Unit := if c then .error e else .ok ()

theorem refuse_eq_ok {c : Prop} [Decidable c] {e : ε} {u : Unit} : refuse c e = .ok u ↔ ¬c := by
  unfold refuse
  split_ifs with h
  · exact iff_of_false (fun heq => nomatch heq) (not_not_intro h)
  · exact iff_of_true rfl h

/-- The computation does not fail in a bad way. -/
def Avoids (bad : ε → Prop) (x : Except ε α) : Prop := ∀ e, x = .error e → ¬bad e

section Avoids

variable {bad : ε → Prop}

theorem avoids_ok (a : α) : Avoids bad (.ok a : Except ε α) := by
  intro e h
  cases h

theorem avoids_error {e : ε} (h : ¬bad e) : Avoids bad (.error e : Except ε α) := by
  intro e' heq
  cases heq
  exact h

theorem Avoids.bind {x : Except ε α} {f : α → Except ε β} (hx : Avoids bad x)
    (hf : ∀ a, x = .ok a → Avoids bad (f a)) : Avoids bad (x >>= f) := by
  cases x with
  | error e => exact avoids_error (hx e rfl)
  | ok a => exact hf a rfl

end Avoids

end Fallible
