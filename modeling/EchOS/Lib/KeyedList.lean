import Mathlib.Data.List.Perm.Basic

/-! Lists in which at most one item has a property: replacing that item. -/

namespace KeyedList

open List

variable {α : Type*} {p : α → Bool} {l : List α}

def AtMostOne (p : α → Bool) (l : List α) : Prop := l.Pairwise fun a b => ¬(p a ∧ p b)

theorem AtMostOne.perm {l' : List α} (h : AtMostOne p l) (hperm : l.Perm l') : AtMostOne p l' := by
  refine (hperm.pairwise_iff ?_).mp h
  exact fun hnot hand => hnot ⟨hand.2, hand.1⟩

theorem filter_not_of_none (h : ∀ a ∈ l, ¬p a) : l.filter (fun a => !p a) = l := by
  rw [filter_eq_self]
  intro a ha
  simpa using h a ha

theorem AtMostOne.length_filter (h : AtMostOne p l) (hsome : ∃ a ∈ l, p a) :
    (l.filter fun a => !p a).length + 1 = l.length := by
  induction l with
  | nil =>
    obtain ⟨a, ha, _⟩ := hsome
    cases ha
  | cons a l ih =>
    obtain ⟨hhead, htail⟩ := pairwise_cons.mp h
    cases ha : p a with
    | true =>
      have hrest : ∀ b ∈ l, ¬p b := fun b hb hpb => hhead b hb ⟨ha, hpb⟩
      rw [filter_cons_of_neg (by simp [ha]), filter_not_of_none hrest, length_cons]
    | false =>
      have hrest : ∃ b ∈ l, p b := by
        obtain ⟨b, hb, hpb⟩ := hsome
        rcases mem_cons.mp hb with rfl | hb
        · rw [ha] at hpb
          cases hpb
        · exact ⟨b, hb, hpb⟩
      rw [filter_cons_of_pos (by simp [ha]), length_cons, length_cons,
        ih htail hrest]

theorem AtMostOne.set_perm (h : AtMostOne p l) {i : ℕ} (hi : l.findIdx? p = some i) (b : α) :
    (l.set i b).Perm (b :: l.filter fun a => !p a) := by
  induction l generalizing i with
  | nil => cases hi
  | cons a l ih =>
    obtain ⟨hhead, htail⟩ := pairwise_cons.mp h
    rw [List.findIdx?_cons] at hi
    cases ha : p a with
    | true =>
      have hrest : ∀ b ∈ l, ¬p b := fun b hb hpb => hhead b hb ⟨ha, hpb⟩
      rw [if_pos ha] at hi
      cases hi
      rw [set_cons_zero, filter_cons_of_neg (by simp [ha]), filter_not_of_none hrest]
    | false =>
      rw [if_neg (by simp [ha])] at hi
      obtain ⟨j, hj, rfl⟩ := Option.map_eq_some_iff.mp hi
      rw [filter_cons_of_pos (by simp [ha])]
      exact ((ih htail hj).cons a).trans (List.Perm.swap b a _)

theorem filter_not_filter {p q r : α → Bool} (h : ∀ x ∈ l, q x → p x = r x) :
    (l.filter fun x => !p x).filter q = (l.filter q).filter fun x => !r x := by
  rw [filter_filter, filter_filter]
  refine filter_congr fun x hx => ?_
  cases hq : q x with
  | false => simp
  | true => simp [h x hx hq]

theorem filter_not_filter_of_false {p q : α → Bool} (h : ∀ x ∈ l, q x → p x = false) :
    (l.filter fun x => !p x).filter q = l.filter q :=
  (filter_not_filter h).trans (by simp)

end KeyedList
