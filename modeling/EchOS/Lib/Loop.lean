import Mathlib.Algebra.GroupWithZero.Nat

/-! Loops of imperative code, run for a bounded number of rounds. -/

namespace Loop

variable {σ β : Type*}

/-- Repeat a step until it yields a result; `none` if it does not within the rounds given. -/
def run (step : σ → Option (σ ⊕ β)) : ℕ → σ → Option β
  | 0, _ => none
  | rounds + 1, s =>
    match step s with
    | none => none
    | some (.inl s') => run step rounds s'
    | some (.inr b) => some b

variable {step : σ → Option (σ ⊕ β)} {s : σ} {rounds : ℕ} {I : σ → Prop} {measure : σ → ℕ}

theorem run_next {s' : σ} (h : step s = some (.inl s')) (rounds : ℕ) :
    run step (rounds + 1) s = run step rounds s' := by
  simp only [run, h]

theorem run_done {b : β} (h : step s = some (.inr b)) (hr : 0 < rounds) :
    run step rounds s = some b := by
  cases rounds with
  | zero => exact absurd hr (Nat.lt_irrefl 0)
  | succ rounds => simp only [run, h]

/-- A loop whose rounds keep an invariant ends with a round from a state that has it. -/
theorem run_invariant (keep : ∀ s s', I s → step s = some (.inl s') → I s')
    {b : β} (hs : I s) (h : run step rounds s = some b) : ∃ s', I s' ∧ step s' = some (.inr b) := by
  induction rounds generalizing s with
  | zero => exact absurd h (by simp [run])
  | succ rounds ih =>
    unfold run at h
    cases hstep : step s with
    | none => simp [hstep] at h
    | some next =>
      rw [hstep] at h
      cases next with
      | inl s' => exact ih (keep s s' hs hstep) h
      | inr b' =>
        obtain rfl : b' = b := Option.some.inj h
        exact ⟨s, hs, hstep⟩

/-- A loop whose rounds keep an invariant and lower a measure ends, with a round from a
state that has the invariant. -/
theorem run_total (round : ∀ s, I s → ∃ next, step s = some next ∧
      ∀ s', next = .inl s' → I s' ∧ measure s' < measure s)
    (hs : I s) (h : measure s < rounds) :
    ∃ b s', run step rounds s = some b ∧ I s' ∧ step s' = some (.inr b) := by
  induction rounds generalizing s with
  | zero => exact absurd h (Nat.not_lt_zero _)
  | succ rounds ih =>
    obtain ⟨next, hstep, hround⟩ := round s hs
    cases next with
    | inl s' =>
      obtain ⟨hkept, hless⟩ := hround s' rfl
      rw [run_next hstep]
      exact ih hkept (Nat.lt_of_lt_of_le hless (Nat.le_of_lt_succ h))
    | inr b => exact ⟨b, s, run_done hstep (Nat.succ_pos rounds), hs, hstep⟩

theorem exists_run
    (lower : ∀ s, ∃ next, step s = some next ∧ ∀ s', next = .inl s' → measure s' < measure s)
    (h : measure s < rounds) : ∃ b, run step rounds s = some b := by
  obtain ⟨b, -, hrun, -⟩ := run_total (I := fun _ => True) (s := s)
    (fun s _ => by
      obtain ⟨next, hstep, hlower⟩ := lower s
      exact ⟨next, hstep, fun s' hs' => ⟨trivial, hlower s' hs'⟩⟩) trivial h
  exact ⟨b, hrun⟩

end Loop
