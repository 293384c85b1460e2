import Mathlib.Data.List.Basic

/-! Readers that take items off the front of their input. The input left is a view of the
state. -/

namespace Consume

universe u

variable {σ ε α β : Type u} {τ : Type*} {view : σ → List τ} {f : α → StateT σ (Except ε) β}
  {x : StateT σ (Except ε) α} {items items' : List τ} {a : α} {b : β} {rounds : ℕ} {P : α → Prop}
  {Q : β → Prop}

/-- Run on input that begins with the items, the reader takes just these and gives the
result. -/
def Consumes (view : σ → List τ) (x : StateT σ (Except ε) α) (items : List τ) (a : α) : Prop :=
  ∀ s more, view s = items ++ more → ∃ s', x s = .ok (a, s') ∧ view s' = more

theorem consumes_pure (a : α) : Consumes view (pure a : StateT σ (Except ε) α) [] a :=
  fun s _ h => ⟨s, rfl, h⟩

theorem Consumes.bind (hx : Consumes view x items a)
    (hf : Consumes view (f a) items' b) : Consumes view (x >>= f) (items ++ items') b := by
  intro s more h
  rw [List.append_assoc] at h
  obtain ⟨s₁, hrun, hview⟩ := hx s _ h
  obtain ⟨s₂, hrun', hview'⟩ := hf s₁ more hview
  refine ⟨s₂, ?_, hview'⟩
  show (x s >>= fun p => f p.1 p.2) = .ok (b, s₂)
  rw [hrun]
  exact hrun'

theorem Consumes.bind_pure (hx : Consumes view x items a) (hf : f a = pure b) :
    Consumes view (x >>= f) items b := by
  have h := hx.bind (hf ▸ consumes_pure b)
  rwa [List.append_nil] at h

/-- Repeat a step until it yields a result; fail if it does not within the rounds given. -/
def loop (step : α → StateT σ (Except ε) (α ⊕ β)) (endless : ε) : ℕ → α → StateT σ (Except ε) β
  | 0, _ => throw endless
  | rounds + 1, a => do
    match ← step a with
    | .inl a => loop step endless rounds a
    | .inr b => pure b

variable {step : α → StateT σ (Except ε) (α ⊕ β)} {endless : ε}

theorem consumes_loop_done (h : Consumes view (step a) items (.inr b)) (hr : 0 < rounds) :
    Consumes view (loop step endless rounds a) items b := by
  cases rounds with
  | zero => exact absurd hr (Nat.lt_irrefl 0)
  | succ rounds => exact h.bind_pure rfl

theorem consumes_loop_next {a' : α} (h : Consumes view (step a) items (.inl a'))
    (hrest : Consumes view (loop step endless rounds a') items' b) :
    Consumes view (loop step endless (rounds + 1) a) (items ++ items') b :=
  h.bind hrest

def Yields (x : StateT σ (Except ε) α) (P : α → Prop) : Prop :=
  ∀ s a s', x s = .ok (a, s') → P a

theorem yields_pure (h : P a) : Yields (pure a : StateT σ (Except ε) α) P := by
  intro s a' s' hrun
  obtain ⟨rfl, -⟩ := Prod.mk.inj (Except.ok.inj hrun)
  exact h

theorem yields_lift {x : Except ε α} (h : ∀ a, x = .ok a → P a) :
    Yields (liftM x : StateT σ (Except ε) α) P := by
  intro s a s' hrun
  cases x with
  | error e => cases hrun
  | ok b =>
    obtain ⟨rfl, -⟩ := Prod.mk.inj (Except.ok.inj hrun)
    exact h b rfl

theorem Yields.bind (hx : Yields x P) (hf : ∀ a, P a → Yields (f a) Q) : Yields (x >>= f) Q := by
  intro s b s' hrun
  change (x s >>= fun p => f p.1 p.2) = .ok (b, s') at hrun
  cases hfirst : x s with
  | error e =>
    rw [hfirst] at hrun
    cases hrun
  | ok p =>
    rw [hfirst] at hrun
    exact hf p.1 (hx s p.1 p.2 hfirst) p.2 b s' hrun

theorem yields_bind (hf : ∀ a, Yields (f a) Q) : Yields (x >>= f) Q := by
  have hx : Yields x fun _ => True := fun _ _ _ _ => trivial
  exact hx.bind fun a _ => hf a

end Consume
