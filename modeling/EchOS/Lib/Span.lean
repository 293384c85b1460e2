import Mathlib.Data.List.Perm.Basic
import Mathlib.Data.List.Pairwise

/-! Half-open ranges of natural numbers, and lists of ranges no two of which meet. -/

structure Span where
  start : ℕ
  size : ℕ
  deriving DecidableEq

namespace Span

open List

def stop (r : Span) : ℕ := r.start + r.size

def Disjoint (r s : Span) : Prop := r.stop ≤ s.start ∨ s.stop ≤ r.start

def Within (r s : Span) : Prop := s.start ≤ r.start ∧ r.stop ≤ s.stop

instance (r s : Span) : Decidable (r.Disjoint s) := inferInstanceAs (Decidable (_ ∨ _))

instance (r s : Span) : Decidable (r.Within s) := inferInstanceAs (Decidable (_ ∧ _))

variable {r : Span} {l l' : List Span} {s t : Span} {parts : List Span}

theorem Disjoint.symm (h : r.Disjoint s) : s.Disjoint r := Or.symm h

theorem Within.trans (h : r.Within s) (h' : s.Within t) : r.Within t :=
  ⟨Nat.le_trans h'.1 h.1, Nat.le_trans h.2 h'.2⟩

theorem Disjoint.mono_left {r' : Span} (hw : r'.Within r) (h : r.Disjoint s) : r'.Disjoint s := by
  obtain ⟨hl, hr⟩ := hw
  rcases h with h | h
  · exact .inl (Nat.le_trans hr h)
  · exact .inr (Nat.le_trans h hl)

def Apart (l : List Span) : Prop := l.Pairwise Disjoint

instance (l : List Span) : Decidable (Apart l) := inferInstanceAs (Decidable (l.Pairwise _))

theorem Apart.perm (h : Apart l) (hp : l.Perm l') : Apart l' :=
  (hp.pairwise_iff Disjoint.symm).mp h

theorem Apart.subperm (h : Apart l) (hs : l'.Subperm l) : Apart l' := by
  obtain ⟨m, hm, hsub⟩ := hs
  exact (h.sublist hsub).perm hm Disjoint.symm

theorem Apart.refine (h : Apart (r :: l)) (hp : Apart parts)
    (hw : ∀ p ∈ parts, p.Within r) : Apart (parts ++ l) := by
  obtain ⟨hr, hl⟩ := pairwise_cons.mp h
  refine pairwise_append.mpr ⟨hp, hl, ?_⟩
  intro p hp s hs
  exact (hr s hs).mono_left (hw p hp)

def Contains (r : Span) (x : ℕ) : Prop := r.start ≤ x ∧ x < r.stop

/-- The ranges of the list do not meet, lie in the range and leave no gap in it. -/
structure Tiles (l : List Span) (r : Span) : Prop where
  apart : Apart l
  within : ∀ s ∈ l, s.Within r
  covers : ∀ x, r.Contains x → ∃ s ∈ l, s.Contains x

theorem tiles_nil (start : ℕ) : Tiles [] ⟨start, 0⟩ := by
  refine ⟨List.Pairwise.nil, by simp, fun x hx => ?_⟩
  obtain ⟨hle, hlt⟩ := hx
  exact absurd hlt (Nat.not_lt.mpr hle)

theorem tiles_singleton (r : Span) : Tiles [r] r := by
  refine ⟨pairwise_singleton _ _, fun s hs => ?_, fun x hx => ⟨r, mem_singleton_self r, hx⟩⟩
  obtain rfl := mem_singleton.mp hs
  exact ⟨Nat.le_refl _, Nat.le_refl _⟩

theorem Tiles.perm (h : Tiles l r) (hp : l.Perm l') : Tiles l' r := by
  refine ⟨h.apart.perm hp, fun s hs => h.within s (hp.mem_iff.mpr hs), fun x hx => ?_⟩
  obtain ⟨s, hs, hx⟩ := h.covers x hx
  exact ⟨s, hp.mem_iff.mp hs, hx⟩

theorem Tiles.append {start n m : ℕ} (h : Tiles l ⟨start, n⟩) (h' : Tiles l' ⟨start + n, m⟩) :
    Tiles (l ++ l') ⟨start, n + m⟩ := by
  constructor
  · refine pairwise_append.mpr ⟨h.apart, h'.apart, fun s hs t ht => ?_⟩
    exact .inl (Nat.le_trans (h.within s hs).2 (h'.within t ht).1)
  · intro s hs
    rcases mem_append.mp hs with hs | hs
    · obtain ⟨hstart, hstop⟩ := h.within s hs
      simp only [Within, stop] at hstart hstop ⊢
      omega
    · obtain ⟨hstart, hstop⟩ := h'.within s hs
      simp only [Within, stop] at hstart hstop ⊢
      omega
  · intro x hx
    simp only [Contains, stop] at hx
    by_cases hlt : x < start + n
    · obtain ⟨s, hs, hsx⟩ := h.covers x ⟨hx.1, hlt⟩
      exact ⟨s, mem_append_left _ hs, hsx⟩
    · have hx' : Contains ⟨start + n, m⟩ x := by
        simp only [Contains, stop]
        omega
      obtain ⟨s, hs, hsx⟩ := h'.covers x hx'
      exact ⟨s, mem_append_right _ hs, hsx⟩

theorem Tiles.refine (h : Tiles (t :: l) r) (hp : Tiles parts t) : Tiles (parts ++ l) r := by
  have ht := h.within t mem_cons_self
  constructor
  · exact h.apart.refine hp.apart hp.within
  · intro s hs
    rcases mem_append.mp hs with hs | hs
    · have hst := hp.within s hs
      exact ⟨Nat.le_trans ht.1 hst.1, Nat.le_trans hst.2 ht.2⟩
    · exact h.within s (mem_cons_of_mem _ hs)
  · intro x hx
    obtain ⟨s, hs, hsx⟩ := h.covers x hx
    rcases mem_cons.mp hs with rfl | hs
    · obtain ⟨part, hpart, hx⟩ := hp.covers x hsx
      exact ⟨part, mem_append_left _ hpart, hx⟩
    · exact ⟨s, mem_append_right _ hs, hsx⟩

end Span
