import EchOS.Lib.Fallible

/-! A worklist analysis: node states are merged with what flows into them and sent through a
transfer function until nothing changes, and the states it ends with cover every flow. -/

namespace Worklist

open List

universe u v

variable {ν A : Type u} {ε : Type v} [DecidableEq ν]

/-- What flows out of a node in a state, and how a state takes up another one: `none` when
the state does not change. -/
structure Analysis (ν A : Type u) (ε : Type v) where
  transfer : ν → A → Except ε (List (ν × A))
  merge : A → A → Option A
  outOfSteps : ε

def setState (states : ν → Option A) (n : ν) (a : A) : ν → Option A :=
  fun n' => if n' = n then some a else states n'

/-- Take the last flow from the list and work it into its node, for at most `steps` flows. -/
def solve (an : Analysis ν A ε) : ℕ → (ν → Option A) → List (ν × A) →
    Except ε (ν → Option A)
  | _, states, [] => .ok states
  | 0, _, _ :: _ => .error an.outOfSteps
  | steps + 1, states, (n, incoming) :: work =>
    match states n with
    | some existing =>
      match an.merge existing incoming with
      | none => solve an steps states work
      | some merged => do
        let next ← an.transfer n merged
        solve an steps (setState states n merged) (next.reverse ++ work)
    | none => do
      let next ← an.transfer n incoming
      solve an steps (setState states n incoming) (next.reverse ++ work)

/-- The state of a node covers a flow into it. -/
def Covers (le : A → A → Prop) (states : ν → Option A) (flow : ν × A) : Prop :=
  ∃ b, states flow.1 = some b ∧ le flow.2 b

def Stable (an : Analysis ν A ε) (le : A → A → Prop) (states : ν → Option A) : Prop :=
  ∀ n a, states n = some a → ∃ next, an.transfer n a = .ok next ∧
    ∀ flow ∈ next, Covers le states flow

/-- While the analysis runs a flow is covered or waits in the list. -/
def Pending (an : Analysis ν A ε) (le : A → A → Prop) (states : ν → Option A)
    (work : List (ν × A)) : Prop :=
  ∀ n a, states n = some a → ∃ next, an.transfer n a = .ok next ∧
    ∀ flow ∈ next, Covers le states flow ∨ flow ∈ work

section

variable {an : Analysis ν A ε} {le : A → A → Prop} {Q : A → Prop} {states final : ν → Option A}
  {flow : ν × A} {a incoming : A} {n : ν} {work next : List (ν × A)} {steps : ℕ}

theorem covers_setState (trans : ∀ a b c, le a b → le b c → le a c)
    (hgrow : ∀ b, states n = some b → le b a)
    (h : Covers le states flow) : Covers le (setState states n a) flow := by
  obtain ⟨b, hb, hle⟩ := h
  by_cases hn : flow.1 = n
  · exact ⟨a, if_pos hn, trans _ _ _ hle (hgrow b (hn ▸ hb))⟩
  · exact ⟨b, (if_neg hn).trans hb, hle⟩

theorem Pending.advance (trans : ∀ a b c, le a b → le b c → le a c)
    (hp : Pending an le states ((n, incoming) :: work))
    (hgrow : ∀ b, states n = some b → le b a) (hin : le incoming a)
    (hnext : an.transfer n a = .ok next) :
    Pending an le (setState states n a) (next.reverse ++ work) := by
  intro m b hm
  by_cases hmn : m = n
  · subst hmn
    obtain rfl : a = b := Option.some.inj ((if_pos rfl).symm.trans hm)
    exact ⟨next, hnext, fun flow hflow =>
      .inr (mem_append_left _ (mem_reverse.mpr hflow))⟩
  · obtain ⟨out, hout, hflows⟩ := hp m b ((if_neg hmn).symm.trans hm)
    refine ⟨out, hout, fun flow hflow => ?_⟩
    rcases hflows flow hflow with hcov | hmem
    · exact .inl (covers_setState trans hgrow hcov)
    · rcases mem_cons.mp hmem with rfl | hmem
      · exact .inl ⟨a, if_pos rfl, hin⟩
      · exact .inr (mem_append_right _ hmem)

omit [DecidableEq ν] in
theorem Pending.drop (hp : Pending an le states (flow :: work)) (hflow : Covers le states flow) :
    Pending an le states work := by
  intro m b hb
  obtain ⟨next, hnext, hflows⟩ := hp m b hb
  refine ⟨next, hnext, fun out hout => ?_⟩
  rcases hflows out hout with hcov | hmem
  · exact .inl hcov
  · rcases mem_cons.mp hmem with rfl | hmem
    · exact .inl hflow
    · exact .inr hmem

omit [DecidableEq ν] in
theorem Pending.stable (hp : Pending an le states []) : Stable an le states := by
  intro n a hn
  obtain ⟨next, hnext, hflows⟩ := hp n a hn
  exact ⟨next, hnext, fun flow hflow => (hflows flow hflow).resolve_right not_mem_nil⟩

def Reaches (an : Analysis ν A ε) (le : A → A → Prop) (states : ν → Option A)
    (work : List (ν × A)) (final : ν → Option A) : Prop :=
  Stable an le final ∧ (∀ flow ∈ work, Covers le final flow) ∧
    ∀ flow, Covers le states flow → Covers le final flow

theorem Reaches.of_advance (trans : ∀ a b c, le a b → le b c → le a c)
    (hgrow : ∀ b, states n = some b → le b a) (hin : le incoming a)
    (h : Reaches an le (setState states n a) (next.reverse ++ work) final) :
    Reaches an le states ((n, incoming) :: work) final := by
  obtain ⟨hstable, hwork, hkeep⟩ := h
  refine ⟨hstable, ?_, fun flow hflow => hkeep flow (covers_setState trans hgrow hflow)⟩
  intro flow hflow
  rcases mem_cons.mp hflow with rfl | hflow
  · exact hkeep _ ⟨a, if_pos rfl, hin⟩
  · exact hwork flow (mem_append_right _ hflow)

theorem solve_induction {P : (ν → Option A) → List (ν × A) → Prop} (hdone : P final [])
    (hdrop : ∀ states n incoming rest existing, states n = some existing →
      an.merge existing incoming = none → P states rest → P states ((n, incoming) :: rest))
    (hadvance : ∀ states n incoming rest a next,
      (states n = none ∧ a = incoming ∨
        ∃ existing, states n = some existing ∧ an.merge existing incoming = some a) →
      an.transfer n a = .ok next → P (setState states n a) (next.reverse ++ rest) →
      P states ((n, incoming) :: rest))
    (h : solve an steps states work = .ok final) : P states work := by
  fun_induction solve an steps states work with
  | case1 steps states =>
    cases h
    exact hdone
  | case2 => cases h
  | case3 states n incoming rest left existing hn hm ih => exact hdrop _ _ _ _ _ hn hm (ih h)
  | case4 states n incoming rest left existing hn merged hm ih =>
    obtain ⟨next, hnext, h⟩ := Fallible.bind_eq_ok.mp h
    exact hadvance _ _ _ _ _ _ (.inr ⟨existing, hn, hm⟩) hnext (ih next h)
  | case5 states n incoming rest left hn ih =>
    obtain ⟨next, hnext, h⟩ := Fallible.bind_eq_ok.mp h
    exact hadvance _ _ _ _ _ _ (.inl ⟨hn, rfl⟩) hnext (ih next h)

/-- If every merge covers both of its sides, the states the analysis ends with are stable
and cover everything it was given. -/
theorem solve_reaches (refl : ∀ a, le a a) (trans : ∀ a b c, le a b → le b c → le a c)
    (hsome : ∀ e a m, an.merge e a = some m → le e m ∧ le a m)
    (hnone : ∀ e a, an.merge e a = none → le a e)
    (hsolve : solve an steps states work = .ok final) (hp : Pending an le states work) :
    Reaches an le states work final := by
  refine solve_induction (P := fun states work => Pending an le states work →
    Reaches an le states work final) ?_ ?_ ?_ hsolve hp
  · exact fun hp => ⟨hp.stable, fun flow hflow => absurd hflow not_mem_nil, fun _ h => h⟩
  · intro states n incoming rest existing hn hm ih hp
    have hin : Covers le states (n, incoming) := ⟨existing, hn, hnone _ _ hm⟩
    obtain ⟨hstable, hwork, hkeep⟩ := ih (hp.drop hin)
    exact ⟨hstable, forall_mem_cons.mpr ⟨hkeep _ hin, hwork⟩, hkeep⟩
  · intro states n incoming rest a next hfrom hnext ih hp
    have hle : (∀ b, states n = some b → le b a) ∧ le incoming a := by
      rcases hfrom with ⟨hn, rfl⟩ | ⟨existing, hn, hm⟩
      · exact ⟨by simp [hn], refl _⟩
      · obtain ⟨hge, hin⟩ := hsome _ _ _ hm
        refine ⟨fun b hb => ?_, hin⟩
        rw [hn] at hb
        exact Option.some.inj hb ▸ hge
    exact .of_advance trans hle.1 hle.2 (ih (hp.advance trans hle.1 hle.2 hnext))

theorem solve_invariant (hmerge : ∀ e a m, Q e → Q a → an.merge e a = some m → Q m)
    (htransfer : ∀ n a next, Q a → an.transfer n a = .ok next → ∀ flow ∈ next, Q flow.2)
    (hsolve : solve an steps states work = .ok final) (hstates : ∀ n a, states n = some a → Q a)
    (hwork : ∀ flow ∈ work, Q flow.2) : ∀ n a, final n = some a → Q a := by
  refine solve_induction (P := fun states work => (∀ n a, states n = some a → Q a) →
    (∀ flow ∈ work, Q flow.2) → ∀ n a, final n = some a → Q a) ?_ ?_ ?_ hsolve hstates hwork
  · exact fun hstates _ => hstates
  · intro states n incoming rest existing hn hm ih hstates hwork
    exact ih hstates (forall_mem_cons.mp hwork).2
  · intro states n incoming rest a next hfrom hnext ih hstates hwork
    obtain ⟨hin, hrest⟩ := forall_mem_cons.mp hwork
    have ha : Q a := by
      rcases hfrom with ⟨-, rfl⟩ | ⟨existing, hn, hm⟩
      · exact hin
      · exact hmerge _ _ _ (hstates _ _ hn) hin hm
    refine ih (fun m b hb => ?_) (fun flow hflow => ?_)
    · unfold setState at hb
      split_ifs at hb with hmn
      · exact Option.some.inj hb ▸ ha
      · exact hstates m b hb
    · rcases mem_append.mp hflow with hflow | hflow
      · exact htransfer _ _ _ ha hnext flow (mem_reverse.mp hflow)
      · exact hrest flow hflow

end

end Worklist
