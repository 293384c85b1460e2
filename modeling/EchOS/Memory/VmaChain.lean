import Mathlib.Data.List.Nodup
import Mathlib.Data.List.Perm.Subperm
import EchOS.Lib.LinkedList
import EchOS.Memory.VmaInterval

/-! The level-0 chain of a VMA map, and what an update of pointers leaves of it. -/

namespace EchOS.Memory.VmaMap

open List

@[simp] theorem load_store (m : VmaMap) (x y : NodeId) (i j : ℕ) (ptr : TaggedPtr) :
    (m.store x i ptr).load y j = if y = x ∧ j = i then ptr else m.load y j := by
  unfold store load
  by_cases hy : y = x
  · by_cases hj : j = i <;> simp [hy, hj]
  · simp [hy]

theorem rounds_pos (m : VmaMap) : 0 < m.rounds := Nat.succ_pos m.fresh

def succ (m : VmaMap) (x : NodeId) : Option NodeId := m.nextPtr x 0

structure Frame (m m' : VmaMap) : Prop where
  start : ∀ x, (m'.nodes x).start = (m.nodes x).start
  stop : ∀ x, (m'.nodes x).stop = (m.nodes x).stop
  vma : ∀ x, (m'.nodes x).vma = (m.nodes x).vma
  tower : ∀ x, (m'.nodes x).height = (m.nodes x).height
  fresh : m'.fresh = m.fresh
  height : m'.height = m.height

namespace Frame

theorem refl (m : VmaMap) : Frame m m :=
  ⟨fun _ => rfl, fun _ => rfl, fun _ => rfl, fun _ => rfl, rfl, rfl⟩

theorem trans {m₁ m₂ m₃ : VmaMap} (h : Frame m₁ m₂) (h' : Frame m₂ m₃) : Frame m₁ m₃ :=
  ⟨fun x => (h'.start x).trans (h.start x), fun x => (h'.stop x).trans (h.stop x),
    fun x => (h'.vma x).trans (h.vma x), fun x => (h'.tower x).trans (h.tower x),
    h'.fresh.trans h.fresh, h'.height.trans h.height⟩

theorem store (m : VmaMap) (x : NodeId) (i : ℕ) (ptr : TaggedPtr) : Frame m (m.store x i ptr) := by
  constructor
  case fresh => rfl
  case height => rfl
  all_goals
    intro y
    simp only [VmaMap.store]
    split_ifs <;> rfl

end Frame

structure Writes (S : NodeId → ℕ → Prop) (m m' : VmaMap) : Prop where
  frame : Frame m m'
  kept : ∀ y i, ¬ S y i → m'.load y i = m.load y i

namespace Writes

variable {S T : NodeId → ℕ → Prop} {m m₁ m₂ : VmaMap} {x : NodeId}

theorem refl (S : NodeId → ℕ → Prop) (m : VmaMap) : Writes S m m :=
  ⟨Frame.refl m, fun _ _ _ => rfl⟩

theorem trans (h : Writes S m m₁) (h' : Writes S m₁ m₂) : Writes S m m₂ :=
  ⟨h.frame.trans h'.frame, fun y i hn => (h'.kept y i hn).trans (h.kept y i hn)⟩

theorem mono (h : Writes S m m₁) (hST : ∀ y i, S y i → T y i) : Writes T m m₁ :=
  ⟨h.frame, fun y i hn => h.kept y i (mt (hST y i) hn)⟩

theorem store {i : ℕ} (hS : S x i) (m : VmaMap) (ptr : TaggedPtr) :
    Writes S m (m.store x i ptr) := by
  refine ⟨Frame.store m x i ptr, fun y j hn => ?_⟩
  rw [load_store, if_neg]
  rintro ⟨rfl, rfl⟩
  exact hn hS

theorem foldl {α : Type*} {f : VmaMap → α → VmaMap} {l : List α}
    (h : ∀ a ∈ l, ∀ m, Writes S m (f m a)) (m : VmaMap) : Writes S m (l.foldl f m) := by
  induction l generalizing m with
  | nil => exact refl S m
  | cons a l ih =>
    exact (h a mem_cons_self m).trans
      (ih (fun b hb => h b (mem_cons_of_mem a hb)) (f m a))

theorem succ_eq (h : Writes S m m₁) (hx : ¬ S x 0) : m₁.succ x = m.succ x := by
  unfold succ nextPtr
  rw [h.kept x 0 hx]

end Writes

structure Threaded (m : VmaMap) (ids : List NodeId) : Prop where
  links : LinkedList.Seg m.succ (some head) (head :: ids) none
  nodup : (head :: ids).Nodup
  allocated : ∀ x ∈ head :: ids, x < m.fresh
  tall : 1 ≤ m.height

variable {ids : List NodeId} {m m' : VmaMap}

theorem Threaded.length_lt (h : Threaded m ids) : ids.length < m.fresh := by
  have hsub : head :: ids ⊆ List.range m.fresh :=
    fun x hx => mem_range.mpr (h.allocated x hx)
  have hle := (subperm_of_subset h.nodup hsub).length_le
  rw [length_range] at hle
  exact hle

/-- The nodes carry the bounds of their VMAs, which are not empty, ascend and do not meet. -/
structure Ordered (m : VmaMap) (ids : List NodeId) : Prop where
  start_eq : ∀ x ∈ ids, (m.nodes x).start = (m.nodes x).vma.start
  stop_eq : ∀ x ∈ ids, (m.nodes x).stop = (m.nodes x).vma.stop
  nonempty : ∀ x ∈ ids, (m.nodes x).start < (m.nodes x).stop
  sorted : ids.Pairwise fun x y => (m.nodes x).stop ≤ (m.nodes y).start

theorem Ordered.congr (h : Ordered m ids)
    (hstart : ∀ x ∈ ids, (m'.nodes x).start = (m.nodes x).start)
    (hstop : ∀ x ∈ ids, (m'.nodes x).stop = (m.nodes x).stop)
    (hvma : ∀ x ∈ ids, (m'.nodes x).vma = (m.nodes x).vma) : Ordered m' ids where
  start_eq x hx := by rw [hstart x hx, hvma x hx, h.start_eq x hx]
  stop_eq x hx := by rw [hstop x hx, hvma x hx, h.stop_eq x hx]
  nonempty x hx := by
    rw [hstart x hx, hstop x hx]
    exact h.nonempty x hx
  sorted := h.sorted.imp_of_mem fun {x y} hx hy hxy => by rwa [hstop x hx, hstart y hy]

theorem Ordered.frame (h : Ordered m ids) (hf : Frame m m') : Ordered m' ids :=
  h.congr (fun x _ => hf.start x) (fun x _ => hf.stop x) fun x _ => hf.vma x

theorem Ordered.sublist {ids' : List NodeId} (h : Ordered m ids)
    (hs : ids'.Sublist ids) : Ordered m ids' where
  start_eq x hx := h.start_eq x (hs.subset hx)
  stop_eq x hx := h.stop_eq x (hs.subset hx)
  nonempty x hx := h.nonempty x (hs.subset hx)
  sorted := h.sorted.sublist hs

def lookup (m : VmaMap) (ids : List NodeId) (addr : ℕ) : Option Vma :=
  (ids.find? fun x => (m.nodes x).start ≤ addr && addr < (m.nodes x).stop).map
    fun x => (m.nodes x).vma

namespace Ordered

variable {m : VmaMap} {ids : List NodeId}

theorem starts_sorted (h : Ordered m ids) :
    ids.Pairwise fun x y => (m.nodes x).start < (m.nodes y).start := by
  refine h.sorted.imp_of_mem fun {x y} hx hy hxy => ?_
  have := h.nonempty x hx
  omega

theorem split_at (h : Ordered m ids) (addr : ℕ) :
    ∃ passed rest, ids = passed ++ rest ∧ (∀ x ∈ passed, (m.nodes x).start ≤ addr) ∧
      ∀ x ∈ rest, addr < (m.nodes x).start := by
  induction ids with
  | nil => exact ⟨[], [], rfl, by simp, by simp⟩
  | cons x ids ih =>
    have hstarts := pairwise_cons.mp h.starts_sorted
    by_cases hx : (m.nodes x).start ≤ addr
    · obtain ⟨passed, rest, rfl, hp, hr⟩ := ih (h.sublist (sublist_cons_self x ids))
      exact ⟨x :: passed, rest, rfl, forall_mem_cons.mpr ⟨hx, hp⟩, hr⟩
    · refine ⟨[], x :: ids, rfl, by simp, forall_mem_cons.mpr ⟨by omega, fun y hy => ?_⟩⟩
      have := hstarts.1 y hy
      omega

end Ordered

theorem run_collectStep {ptr : Option NodeId}
    (h : LinkedList.Seg m.succ ptr ids none) (vmas : List Vma) {rounds : ℕ}
    (hr : ids.length < rounds) :
    Loop.run m.collectStep rounds (ptr, vmas) =
      some (vmas ++ ids.map fun x => (m.nodes x).vma) := by
  induction ids generalizing ptr vmas rounds with
  | nil =>
    obtain rfl : ptr = none := h
    rw [map_nil, append_nil]
    exact Loop.run_done rfl (by omega)
  | cons x ids ih =>
    obtain ⟨rfl, h⟩ := h
    obtain ⟨k, rfl⟩ := Nat.exists_eq_add_one.mpr (Nat.zero_lt_of_lt hr)
    have hstep : m.collectStep (some x, vmas) =
        some (.inl (m.succ x, vmas ++ [(m.nodes x).vma])) := rfl
    rw [Loop.run_next hstep, ih h _ (by simp at hr; omega)]
    simp

theorem collectAll_eq (h : Threaded m ids) :
    m.collectAll = some (ids.map fun x => (m.nodes x).vma) := by
  have hrounds : ids.length < m.rounds := Nat.lt_succ_of_lt h.length_lt
  exact run_collectStep h.links.2 [] hrounds

end EchOS.Memory.VmaMap
