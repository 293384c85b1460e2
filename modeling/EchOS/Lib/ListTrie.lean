import Mathlib.Data.List.Basic

/-! Binary tries with a list of items at every node. -/

/-- A node with its items and its subtrees for the bits 0 and 1. -/
inductive ListTrie (α : Type*)
  | node (items : List α) (left right : Option (ListTrie α))

namespace ListTrie

open Option List

variable {α : Type*} {path : List Bool} (t : ListTrie α)

def empty : ListTrie α := .node [] none none

def items : ListTrie α → List α
  | .node items _ _ => items

def child : ListTrie α → Bool → Option (ListTrie α)
  | .node _ left right, bit => if bit then right else left

def setChild : ListTrie α → Bool → ListTrie α → ListTrie α
  | .node items left right, bit, t =>
    if bit then .node items left (some t) else .node items (some t) right

/-- The items at the end of a path; a path that leaves the trie has none. -/
def itemsAt : ListTrie α → List Bool → List α
  | t, [] => t.items
  | t, bit :: path =>
    match t.child bit with
    | none => []
    | some t' => itemsAt t' path

/-- Changes the items at the end of a path, whose nodes are made where they are missing. -/
def alter (f : List α → List α) : List Bool → ListTrie α → ListTrie α
  | [], .node items left right => .node (f items) left right
  | bit :: path, t => t.setChild bit (alter f path ((t.child bit).getD empty))

def nodeAt : ListTrie α → List Bool → Option (ListTrie α)
  | t, [] => some t
  | t, bit :: path => (t.child bit).bind (nodeAt · path)

/-- Follows a path as far as there are nodes, and keeps the last items that were not empty. -/
def lastItems : List Bool → ListTrie α → Option (List α) → Option (List α)
  | [], _, best => best
  | bit :: path, t, best =>
    match t.child bit with
    | none => best
    | some t' => lastItems path t' (if t'.items.isEmpty then best else some t'.items)

@[simp] theorem items_setChild (bit : Bool) (t' : ListTrie α) :
    (t.setChild bit t').items = t.items := by
  cases t with
  | node items left right => cases bit <;> rfl

theorem child_setChild (bit bit' : Bool) (t' : ListTrie α) :
    (t.setChild bit t').child bit' = if bit' = bit then some t' else t.child bit' := by
  cases t with
  | node items left right => cases bit <;> cases bit' <;> rfl

@[simp] theorem itemsAt_nil : t.itemsAt [] = t.items := by
  cases t with
  | node items left right => rfl

@[simp] theorem itemsAt_empty (path : List Bool) : (empty : ListTrie α).itemsAt path = [] := by
  cases path with
  | nil => rfl
  | cons bit path => cases bit <;> rfl

theorem itemsAt_cons (bit : Bool) (path : List Bool) :
    t.itemsAt (bit :: path) = ((t.child bit).getD empty).itemsAt path := by
  cases h : t.child bit with
  | none | some t' => simp [itemsAt, h]

theorem itemsAt_alter (f : List α → List α) (path path' : List Bool) (t : ListTrie α) :
    (t.alter f path).itemsAt path' =
      if path' = path then f (t.itemsAt path) else t.itemsAt path' := by
  induction path generalizing t path' with
  | nil =>
    cases t with
    | node items left right =>
      cases path' with
      | nil => rfl
      | cons bit path' => rfl
  | cons bit path ih =>
    rw [alter]
    cases path' with
    | nil => simp
    | cons bit' path' =>
      rw [itemsAt_cons, child_setChild]
      by_cases hbit : bit' = bit
      · subst hbit
        rw [if_pos rfl, getD_some, ih, itemsAt_cons, itemsAt_cons]
        by_cases hpath : path' = path
        · rw [if_pos hpath, if_pos (by rw [hpath])]
        · rw [if_neg hpath, if_neg (by simp [hpath])]
      · rw [if_neg hbit, if_neg (by simp [hbit]), itemsAt_cons]

theorem itemsAt_of_nodeAt {t t' : ListTrie α} (h : t.nodeAt path = some t') :
    t.itemsAt path = t'.items := by
  induction path generalizing t with
  | nil =>
    exact congrArg items (some.inj h)
  | cons bit path ih =>
    obtain ⟨next, hnext, hrest⟩ := bind_eq_some_iff.mp h
    rw [itemsAt_cons, hnext]
    exact ih hrest

theorem itemsAt_of_nodeAt_eq_none {t : ListTrie α}
    (h : t.nodeAt path = none) : t.itemsAt path = [] := by
  induction path generalizing t with
  | nil => cases h
  | cons bit path ih =>
    rw [itemsAt_cons]
    cases hnext : t.child bit with
    | none => rw [getD_none, itemsAt_empty]
    | some next =>
      have hrest : (t.child bit).bind (nodeAt · path) = none := h
      rw [hnext] at hrest
      exact ih hrest

/-- Below the root all items of the path are empty, or the walk ends with the last that are not. -/
theorem lastItems_cases (path : List Bool) (t : ListTrie α) (best : Option (List α)) :
    (lastItems path t best = best ∧
        ∀ i, 0 < i → i ≤ path.length → t.itemsAt (path.take i) = []) ∨
      ∃ i, 0 < i ∧ i ≤ path.length ∧ t.itemsAt (path.take i) ≠ [] ∧
        lastItems path t best = some (t.itemsAt (path.take i)) ∧
        ∀ j, i < j → j ≤ path.length → t.itemsAt (path.take j) = [] := by
  fun_induction lastItems path t best with
  | case1 t best => exact .inl ⟨rfl, fun i hpos hle => absurd hle (Nat.not_le.mpr hpos)⟩
  | case2 bit path t best hchild =>
    refine .inl ⟨rfl, ?_⟩
    rintro (_ | i) hpos -
    · exact absurd hpos (by decide)
    · rw [take_succ_cons, itemsAt_cons, hchild, getD_none, itemsAt_empty]
  | case3 bit path t best t' hchild ih =>
    have htake : ∀ i, t.itemsAt ((bit :: path).take (i + 1)) = t'.itemsAt (path.take i) := by
      intro i
      rw [take_succ_cons, itemsAt_cons, hchild, getD_some]
    obtain ⟨hsame, hnone⟩ | ⟨i, hpos, hle, hitems, hlast, hafter⟩ := ih
    · -- Nothing further down: the answer is this node or what was kept before it.
      rw [hsame]
      have hfirst : t.itemsAt ((bit :: path).take 1) = t'.items := by
        rw [htake 0, take_zero, itemsAt_nil]
      have hdeep : ∀ j, 1 < j → j ≤ (bit :: path).length →
          t.itemsAt ((bit :: path).take j) = [] := by
        rintro (_ | j) hj hle
        · exact absurd hj (by decide)
        · rw [htake]
          exact hnone j (Nat.lt_of_succ_lt_succ hj) (Nat.le_of_succ_le_succ hle)
      by_cases hempty : t'.items.isEmpty
      · left
        rw [if_pos hempty]
        refine ⟨rfl, fun i hpos hle => ?_⟩
        by_cases hi : i = 1
        · rw [hi, hfirst]
          exact isEmpty_iff.mp hempty
        · exact hdeep i (by omega) hle
      · right
        rw [if_neg hempty]
        refine ⟨1, by omega, by simp, ?_, ?_, hdeep⟩
        · rw [hfirst]
          exact fun h => hempty (isEmpty_iff.mpr h)
        · rw [hfirst]
    · right
      refine ⟨i + 1, by omega, Nat.succ_le_succ hle, ?_, ?_, ?_⟩
      · rw [htake]
        exact hitems
      · rw [htake]
        exact hlast
      · rintro (_ | j) hj hjle
        · exact absurd hj (Nat.not_lt_zero _)
        · rw [htake]
          exact hafter j (Nat.lt_of_succ_lt_succ hj) (Nat.le_of_succ_le_succ hjle)

end ListTrie
