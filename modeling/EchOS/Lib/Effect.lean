import Mathlib.Order.Defs.Unbundled
import Mathlib.Tactic.Common

/-! The state that a computation leaves, whether it returns or fails. -/

namespace Effect

variable {ε σ α β : Type} {x : EStateM ε σ α} {s s' : σ} {f : α → EStateM ε σ β}

/-- The state after the computation. A failure keeps the changes made before it. -/
def after (x : EStateM ε σ α) (s : σ) : σ :=
  match x s with
  | .ok _ s' => s'
  | .error _ s' => s'

/-- However it ends, the computation relates the state before it to the one after it. -/
def Relates (R : σ → σ → Prop) (x : EStateM ε σ α) : Prop := ∀ s, R s (after x s)

theorem after_bind (x : EStateM ε σ α) (f : α → EStateM ε σ β) (s : σ) :
    after (x >>= f) s = after x s ∨ ∃ a, after (x >>= f) s = after (f a) (after x s) := by
  show after (EStateM.bind x f) s = _ ∨ ∃ a, after (EStateM.bind x f) s = _
  unfold after EStateM.bind
  cases x s with
  | ok a s' => exact .inr ⟨a, rfl⟩
  | error e s' => exact .inl rfl

theorem after_eq {a : α} (h : x s = .ok a s') : after x s = s' := by
  rw [after, h]

theorem bind_ok {a : α} (h : x s = .ok a s') : (x >>= f) s = f a s' := by
  show EStateM.bind x f s = f a s'
  rw [EStateM.bind, h]

theorem bind_error {e : ε} (h : x s = .error e s') : (x >>= f) s = .error e s' := by
  show EStateM.bind x f s = .error e s'
  rw [EStateM.bind, h]

theorem bind_eq_ok {b : β}
    (h : (x >>= f) s = .ok b s') : ∃ a t, x s = .ok a t ∧ f a t = .ok b s' := by
  change EStateM.bind x f s = .ok b s' at h
  rw [EStateM.bind] at h
  cases hx : x s with
  | ok a t =>
    rw [hx] at h
    exact ⟨a, t, rfl, h⟩
  | error e t =>
    rw [hx] at h
    cases h

theorem after_bind_error (f : α → EStateM ε σ β)
    (h : ∀ a t, x s ≠ .ok a t) : after (x >>= f) s = after x s := by
  show after (EStateM.bind x f) s = after x s
  unfold after EStateM.bind
  cases hx : x s with
  | ok a t => exact absurd hx (h a t)
  | error e t => rfl

section Rules

variable {Q R S : σ → σ → Prop} {f : σ → σ}

theorem relates_modify (h : ∀ s, R s (f s)) : Relates R (modify f : EStateM ε σ Unit) := h

theorem Relates.comp {x : EStateM ε σ α} {f : α → EStateM ε σ β} (hstop : ∀ s t, Q s t → R s t)
    (hgo : ∀ s t u, Q s t → S t u → R s u) (hx : Relates Q x) (hf : ∀ a, Relates S (f a)) :
    Relates R (x >>= f) := by
  intro s
  obtain h | ⟨a, h⟩ := after_bind x f s
  · rw [h]
    exact hstop _ _ (hx s)
  · rw [h]
    exact hgo _ _ _ (hx s) (hf a _)

theorem Relates.ite {c : Prop} [Decidable c] {x y : EStateM ε σ α} (hx : Relates R x)
    (hy : Relates R y) : Relates R (if c then x else y) := by
  split_ifs
  · exact hx
  · exact hy

variable [IsPreorder σ R]

theorem relates_pure (a : α) : Relates R (pure a : EStateM ε σ α) := refl_of R

theorem relates_throw (e : ε) : Relates R (throw e : EStateM ε σ α) := refl_of R

theorem relates_get : Relates R (get : EStateM ε σ σ) := refl_of R

theorem Relates.bind {x : EStateM ε σ α} {f : α → EStateM ε σ β} (hx : Relates R x)
    (hf : ∀ a, Relates R (f a)) : Relates R (x >>= f) :=
  .comp (fun _ _ h => h) (fun _ _ _ => trans_of R) hx hf

theorem relates_modify_get {g : σ → EStateM ε σ α} (hf : ∀ s, R s (f s))
    (hg : ∀ s, Relates R (g (f s))) : Relates R (do modify f; let s ← get; g s) :=
  fun s => trans_of R (hf s) (hg s (f s))

theorem Relates.when {c : Prop} [Decidable c] {x : EStateM ε σ Unit} (hx : Relates R x) :
    Relates R (if c then x else pure ()) :=
  hx.ite (relates_pure ())

end Rules

end Effect
