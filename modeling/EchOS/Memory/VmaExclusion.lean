import EchOS.Memory.VmaAccess

/-! Mutual exclusion of the interval locks, over all interleavings. -/

namespace EchOS.Memory.VmaMap

open List Function

variable {P Q : NodeId → Prop} {m m' : VmaMap} {own : List NodeId}

structure Private (P : NodeId → Prop) (m : VmaMap) (own : List NodeId) : Prop where
  bound : ∀ x ∈ own, x < m.fresh
  apart : ∀ x ∈ own, ¬ P x
  within : ∀ x ∈ own, ∀ level, Within (fun y => P y ∨ y ∈ own) (m.load x level).node
  clear : ∀ x ∈ own, (m.load x 0).flag = 0

theorem Private.nil (P : NodeId → Prop) (m : VmaMap) : Private P m [] :=
  ⟨nofun, nofun, nofun, nofun⟩

theorem Private.congr (h : Private P m own) (hfresh : m'.fresh = m.fresh)
    (hload : ∀ x ∈ own, ∀ level, m'.load x level = m.load x level) : Private P m' own := by
  constructor
  · rw [hfresh]
    exact h.bound
  · exact h.apart
  · intro x hx level
    rw [hload x hx]
    exact h.within x hx level
  · intro x hx
    rw [hload x hx]
    exact h.clear x hx

theorem Private.mono (h : Private P m own) (hPQ : ∀ x, P x → Q x) (hapart : ∀ x ∈ own, ¬ Q x) :
    Private Q m own := by
  constructor
  · exact h.bound
  · exact hapart
  · intro x hx level y hy
    rcases h.within x hx level y hy with hy | hy
    · exact .inl (hPQ y hy)
    · exact .inr hy
  · exact h.clear

theorem Private.publish (h : Private P m own) (hm : Closed P m) :
    Closed (fun x => P x ∨ x ∈ own) m := by
  constructor
  · rintro x (hx | hx) level
    · exact (hm.within x hx level).mono fun y hy => .inl hy
    · exact h.within x hx level
  · exact hm.flags

namespace Effect

theorem fresh (h : Effect P own m m') : m'.fresh = m.fresh := by
  cases h <;> assumption

theorem closed (h : Effect P own m m') (hm : Closed P m)
    (hown : ∀ x ∈ own, P x → ∀ y ∈ own, P y) : Closed P m' := by
  cases h with
  | read hfresh hload =>
    constructor
    · intro x hx level
      rw [hload]
      exact hm.within x hx level
    · intro x level
      rw [hload]
      exact hm.flags x level
  | shared x level ptr hfresh hload hx hptr hflag =>
    constructor
    · intro y hy i
      rw [hload]
      split_ifs
      · exact hptr
      · exact hm.within y hy i
    · intro y i
      rw [hload]
      split_ifs
      · exact hflag
      · exact hm.flags y i
  | own x level node hfresh hload hx hnode =>
    constructor
    · intro y hy i
      rw [hload]
      split_ifs with heq
      · intro z hz
        rcases hnode z hz with hz | hz
        · exact hz
        · exact hown x hx (heq.1 ▸ hy) z hz
      · exact hm.within y hy i
    · intro y i
      rw [hload]
      split_ifs
      · show (0 : BitVec 2) ≠ 3
        decide
      · exact hm.flags y i

theorem load_eq (h : Effect P own m m') {x : NodeId} (hx : ¬ P x) (hown : x ∉ own) (level : ℕ) :
    m'.load x level = m.load x level := by
  cases h with
  | read hfresh hload => exact hload x level
  | shared y i ptr hfresh hload hy hptr hflag =>
    have hne : x ≠ y := fun heq => hx (heq ▸ hy)
    simp [hload, hne]
  | own y i node hfresh hload hy hnode =>
    have hne : x ≠ y := fun heq => hown (heq ▸ hy)
    simp [hload, hne]

theorem private_own (h : Effect P own m m') (hp : Private P m own) : Private P m' own := by
  cases h with
  | read hfresh hload => exact hp.congr hfresh fun x _ level => hload x level
  | shared y i ptr hfresh hload hy hptr hflag =>
    apply hp.congr hfresh
    intro x hx level
    have hne : x ≠ y := fun heq => hp.apart x hx (heq ▸ hy)
    simp [hload, hne]
  | own y i node hfresh hload hy hnode =>
    constructor
    · rw [hfresh]
      exact hp.bound
    · exact hp.apart
    · intro x hx level
      rw [hload]
      split_ifs
      · exact hnode
      · exact hp.within x hx level
    · intro x hx
      rw [hload]
      split_ifs
      · rfl
      · exact hp.clear x hx

end Effect

namespace System

open Custody

variable {s : System} {t : ThreadId}

/-- The invariant of all threads, with the public nodes in `P`. -/
structure Invariant (P : NodeId → Prop) (s : System) : Prop where
  head : P head
  bound : ∀ x, P x → x < s.map.fresh
  closed : Closed P s.map
  sound : ∀ t, (s.pc t).Sound P
  pending : ∀ t, Private P s.map (s.pc t).pending
  apart : ∀ t t', t ≠ t' → ∀ x ∈ (s.pc t).pending, x ∉ (s.pc t').pending
  exclusive : Exclusive (Locked s.map) fun t => (s.pc t).held

theorem forall_pc (p : Pc → Prop) {pc : Pc} (ht : p pc) (hothers : ∀ u, u ≠ t → p (s.pc u)) :
    ∀ u, p ((s.setPc t pc).pc u) :=
  (forall_update_iff s.pc fun _ => p).mpr ⟨ht, hothers⟩

theorem held_update (pcs : ThreadId → Pc) (t : ThreadId) (pc : Pc) :
    (fun u => (update pcs t pc u).held) =
      update (fun u => (pcs u).held) t pc.held :=
  comp_update Pc.held pcs t pc

/-- A call that begins: the thread knows as much, holds the same locks and has no new nodes. -/
theorem Invariant.setPc (h : Invariant P s) {pc : Pc} (hsound : pc.Sound P)
    (hheld : pc.held = (s.pc t).held) (hpending : pc.pending = []) :
    Invariant P (s.setPc t pc) := by
  have hsub : ∀ u, ∀ x ∈ (update s.pc t pc u).pending, x ∈ (s.pc u).pending := by
    intro u x hx
    by_cases hu : u = t
    · subst hu
      rw [update_self, hpending] at hx
      exact absurd hx not_mem_nil
    · rwa [update_of_ne hu] at hx
  constructor
  · exact h.head
  · exact h.bound
  · exact h.closed
  · exact forall_pc (Pc.Sound P) hsound fun u _ => h.sound u
  · apply forall_pc fun pc => Private P s.map pc.pending
    · rw [hpending]
      exact Private.nil P s.map
    · exact fun u _ => h.pending u
  · intro u v huv x hx hx'
    exact h.apart u v huv x (hsub u x hx) (hsub v x hx')
  · show Exclusive (Locked s.map) fun u => (update s.pc t pc u).held
    rw [held_update, hheld, update_eq_self]
    exact h.exclusive

theorem Invariant.run (h : Invariant P s) (hclear : (s.pc t).readsClear s.map) :
    Invariant (fun x => P x ∨ x ∈ (s.pc t).publishes) (s.step (.run t)) := by
  have hcases := (s.pc t).publishes_cases
  have hpub : Private P s.map (s.pc t).publishes := by
    rcases hcases with heq | heq
    · rw [heq]
      exact Private.nil P s.map
    · rw [heq]
      exact h.pending t
  have hmine : ∀ x ∈ (s.pc t).publishes, x ∈ (s.pc t).pending := by
    rcases hcases with heq | heq
    · rw [heq]
      exact nofun
    · exact fun x hx => heq ▸ hx
  have hPQ : ∀ x, P x → P x ∨ x ∈ (s.pc t).publishes := fun x hx => .inl hx
  have hclosed := hpub.publish h.closed
  obtain ⟨hsound, heffect, hmove, hpending⟩ := Pc.advance_access (hPQ _ h.head) hclosed
    ((h.sound t).mono hPQ) hclear (h.pending t).clear fun x hx => .inr hx
  have hothers : ∀ u, u ≠ t → ∀ x ∈ (s.pc u).pending, ¬(P x ∨ x ∈ (s.pc t).publishes) := by
    rintro u hu x hx (hP | hin)
    · exact (h.pending u).apart x hx hP
    · exact h.apart u t hu x hx (hmine x hin)
  have hsub : ∀ u, ∀ x ∈ ((s.step (.run t)).pc u).pending, x ∈ (s.pc u).pending := by
    intro u x hx
    change x ∈ (update s.pc t ((s.pc t).advance s.map).2 u).pending at hx
    by_cases hu : u = t
    · subst hu
      rw [update_self, hpending] at hx
      split_ifs at hx
      · exact hx
      · exact absurd hx not_mem_nil
    · rwa [update_of_ne hu] at hx
  have hown : Private (fun x => P x ∨ x ∈ (s.pc t).publishes) ((s.pc t).advance s.map).1
      ((s.pc t).advance s.map).2.pending := by
    rw [hpending]
    split_ifs with hnone
    · refine heffect.private_own ((h.pending t).mono hPQ fun x hx hQ => ?_)
      rw [hnone] at hQ
      exact hQ.elim ((h.pending t).apart x hx) not_mem_nil
    · exact Private.nil _ _
  constructor
  · exact hPQ _ h.head
  · intro x hx
    show x < ((s.pc t).advance s.map).1.fresh
    rw [heffect.fresh]
    exact hx.elim (h.bound x) (hpub.bound x)
  · apply heffect.closed hclosed
    rintro x hx (hP | hin) y hy
    · exact absurd hP ((h.pending t).apart x hx)
    · refine .inr (hcases.elim (fun heq => ?_) fun heq => heq ▸ hy)
      exact absurd (heq ▸ hin) not_mem_nil
  · exact forall_pc (Pc.Sound _) hsound fun u _ => (h.sound u).mono hPQ
  · apply forall_pc (fun pc => Private _ ((s.pc t).advance s.map).1 pc.pending) hown
    intro u hu
    apply ((h.pending u).mono hPQ (hothers u hu)).congr heffect.fresh
    intro x hx level
    exact heffect.load_eq (hothers u hu x hx) (h.apart u t hu x hx) level
  · intro u v huv x hx hx'
    exact h.apart u v huv x (hsub u x hx) (hsub v x hx')
  · show Exclusive (Locked ((s.pc t).advance s.map).1)
      fun u => (update s.pc t ((s.pc t).advance s.map).2 u).held
    rw [held_update]
    exact h.exclusive.move hmove

/-- The heap gives out nodes that nobody has, with clean pointers to nothing. -/
structure Allocated (m m' : VmaMap) (newNodes : List NodeId) : Prop where
  fresh_le : m.fresh ≤ m'.fresh
  new : ∀ x ∈ newNodes, m.fresh ≤ x ∧ x < m'.fresh
  clean : ∀ x ∈ newNodes, ∀ level, m'.load x level = .clean none
  kept : ∀ x, x < m.fresh → ∀ level, m'.load x level = m.load x level
  flags : (∀ x level, (m.load x level).flag ≠ 3) → ∀ x level, (m'.load x level).flag ≠ 3

theorem load_allocated (m : VmaMap) (vma : Vma) (height : ℕ) (x : NodeId) (level : ℕ) :
    (m.alloc vma height).2.load x level =
      if x = m.fresh then .clean none else m.load x level := by
  unfold alloc load
  dsimp only
  split_ifs <;> rfl

theorem allocated_allocAll (m : VmaMap) (vmas : List (Vma × ℕ)) :
    Allocated m (allocAll m vmas).2 (allocAll m vmas).1 := by
  induction vmas generalizing m with
  | nil => exact ⟨Nat.le_refl _, nofun, nofun, fun _ _ _ => rfl, fun h => h⟩
  | cons pair vmas ih =>
    have hrest := ih (m.alloc pair.1 pair.2).2
    have hload := load_allocated m pair.1 pair.2
    have hle := hrest.fresh_le
    constructor
    · exact Nat.le_of_succ_le hle
    · intro x hx
      rcases mem_cons.mp hx with rfl | hx
      · exact ⟨Nat.le_refl _, hle⟩
      · have hnew := hrest.new x hx
        exact ⟨Nat.le_of_succ_le hnew.1, hnew.2⟩
    · intro x hx level
      rcases mem_cons.mp hx with rfl | hx
      · have hkept := hrest.kept m.fresh (Nat.lt_succ_self _) level
        rw [hload, if_pos rfl] at hkept
        exact hkept
      · exact hrest.clean x hx level
    · intro x hx level
      have hkept := hrest.kept x (Nat.lt_succ_of_lt hx) level
      rw [hload, if_neg (Nat.ne_of_lt hx)] at hkept
      exact hkept
    · intro hflags
      apply hrest.flags
      intro x level
      rw [hload]
      split_ifs
      · show (0 : BitVec 2) ≠ 3
        decide
      · exact hflags x level

theorem Invariant.swap (h : Invariant P s) {guard : IntervalGuard}
    (hpc : s.pc t = .holding guard) {newNodes : List NodeId} {map : VmaMap}
    (halloc : Allocated s.map map newNodes) :
    Invariant P (System.setPc ⟨map, s.pc⟩ t
      (.mark ⟨guard, newNodes⟩ (map.upperLevels guard.locked.tail))) := by
  have hguard : guard.Sound P := by
    have hsound := h.sound t
    rwa [hpc] at hsound
  have hnew : Private P map newNodes := by
    constructor
    · exact fun x hx => (halloc.new x hx).2
    · exact fun x hx hP => Nat.not_lt.mpr (halloc.new x hx).1 (h.bound x hP)
    · intro x hx level
      rw [halloc.clean x hx]
      exact within_none
    · intro x hx
      rw [halloc.clean x hx]
      rfl
  have hothers : ∀ u, Private P map (s.pc u).pending := by
    intro u
    have hp := h.pending u
    constructor
    · exact fun x hx => Nat.lt_of_lt_of_le (hp.bound x hx) halloc.fresh_le
    · exact hp.apart
    · intro x hx level
      rw [halloc.kept x (hp.bound x hx)]
      exact hp.within x hx level
    · intro x hx
      rw [halloc.kept x (hp.bound x hx)]
      exact hp.clear x hx
  have hfresh : ∀ u, ∀ x ∈ newNodes, x ∉ (s.pc u).pending := by
    intro u x hx hx'
    exact Nat.not_lt.mpr (halloc.new x hx).1 ((h.pending u).bound x hx')
  constructor
  · exact h.head
  · exact fun x hx => Nat.lt_of_lt_of_le (h.bound x hx) halloc.fresh_le
  · constructor
    · intro x hx level
      show Within P (map.load x level).node
      rw [halloc.kept x (h.bound x hx)]
      exact h.closed.within x hx level
    · exact halloc.flags h.closed.flags
  · exact forall_pc (Pc.Sound P) ⟨hguard, upperWork_upperLevels hguard.old map⟩
      fun u _ => h.sound u
  · exact forall_pc (fun pc => Private P map pc.pending) hnew fun u _ => hothers u
  · intro u v huv x hx hx'
    change x ∈ (update s.pc t _ u).pending at hx
    change x ∈ (update s.pc t _ v).pending at hx'
    by_cases hu : u = t
    · subst hu
      rw [update_self] at hx
      rw [update_of_ne huv.symm] at hx'
      exact hfresh v x hx hx'
    · rw [update_of_ne hu] at hx
      by_cases hv : v = t
      · subst hv
        rw [update_self] at hx'
        exact hfresh u x hx' hx
      · rw [update_of_ne hv] at hx'
        exact h.apart u v huv x hx hx'
  · show Exclusive (Locked map) fun u => (update s.pc t _ u).held
    have hheld : (s.pc t).held = guard.locked := by
      rw [hpc]
      rfl
    rw [held_update]
    show Exclusive (Locked map) (update (fun u => (s.pc u).held) t guard.locked)
    rw [← hheld, update_eq_self]
    apply h.exclusive.mono
    intro u x hx hlocked
    have hkept := halloc.kept x (h.bound x ((h.sound u).held x hx)) 0
    unfold Locked at hlocked ⊢
    rw [hkept]
    exact hlocked

theorem Invariant.step (h : Invariant P s) {action : Action} (hclear : s.ReadsClear action) :
    ∃ Q, Invariant Q (s.step action) := by
  cases action with
  | run t => exact ⟨_, h.run hclear⟩
  | lock t r =>
    refine ⟨P, ?_⟩
    simp only [System.step]
    split_ifs with hidle
    · apply h.setPc
      · trivial
      · rw [hidle]
        rfl
      · rfl
    · exact h
  | unlock t =>
    refine ⟨P, ?_⟩
    simp only [System.step]
    split
    · rename_i guard hpc
      have hguard := h.sound t
      rw [hpc] at hguard
      apply h.setPc
      · exact ⟨hguard.within, trivial⟩
      · rw [hpc]
        exact append_nil guard.locked
      · rfl
    · exact h
  | swap t vmas =>
    refine ⟨P, ?_⟩
    simp only [System.step]
    split
    · rename_i guard hpc
      exact h.swap hpc (allocated_allocAll s.map vmas)
    · exact h

/-- Pointers lead to nodes that have been allocated, and none is locked and invalidated. -/
structure WellFormed (m : VmaMap) : Prop where
  head_lt : VmaMap.head < m.fresh
  closed : Closed (· < m.fresh) m

theorem wellFormed_new : WellFormed VmaMap.new := by
  constructor
  · decide
  · constructor
    · exact fun _ _ _ => within_none
    · intro x level
      show (0 : BitVec 2) ≠ 3
      decide

theorem invariant_init (hm : WellFormed m) : Invariant (· < m.fresh) (init m) where
  head := hm.head_lt
  bound _ hx := hx
  closed := hm.closed
  sound _ := trivial
  pending _ := Private.nil _ _
  apart _ _ _ := nofun
  exclusive := ⟨fun _ => nofun, fun _ => nodup_nil, fun _ _ _ => nofun⟩

theorem outstanding_subset_held (pc : Pc) : ∀ x ∈ pc.outstanding, x ∈ pc.held := by
  cases pc with
  | _ => simp [Pc.outstanding, Pc.held]

/-- Interval locks exclude each other in every interleaving in which the walks read clear
pointers. -/
theorem interval_locks_exclusive (hm : WellFormed m) {actions : List Action}
    (h : Run.Along step ReadsClear (init m) actions) :
    (Run.exec step (init m) actions).Exclusion := by
  have hkeep : ∀ s a, (∃ P, Invariant P s) → s.ReadsClear a → ∃ P, Invariant P (s.step a) :=
    fun s a ⟨_, hs⟩ hclear => hs.step hclear
  obtain ⟨P, hinv⟩ := h.invariant hkeep ⟨_, invariant_init hm⟩
  intro t t' hne x hx hx'
  exact hinv.exclusive.disjoint t t' hne x (outstanding_subset_held _ x hx)
    (outstanding_subset_held _ x hx')

def anonymous (start stop : ℕ) : Vma := ⟨start, stop, 0, .anonymous 0, false, false, false⟩

def lockFor (t : ThreadId) (start stop accesses : ℕ) : List Action :=
  .lock t ⟨start, stop⟩ :: List.replicate accesses (.run t)

def mapTwoPages : List Action :=
  lockFor 0 0x1000 0x3000 6 ++
    .swap 0 [(anonymous 0x1000 0x2000, 1), (anonymous 0x2000 0x3000, 1)] ::
      List.replicate 7 (.run 0)

/-- One thread locks the first page, another one the range behind both. -/
theorem interval_locks_exclusive_apart :
    let actions := mapTwoPages ++ lockFor 0 0x1000 0x2000 10 ++ lockFor 1 0x3000 0x4000 11
    Run.Along step ReadsClear (init VmaMap.new) actions ∧
      let s := Run.exec step (init VmaMap.new) actions
      (s.pc 0).outstanding = [0, 1] ∧ (s.pc 1).outstanding = [2] ∧ s.Exclusion := by
  intro actions
  have halong : Run.Along step ReadsClear (init VmaMap.new) actions := by decide +kernel
  exact ⟨halong, by decide +kernel, by decide +kernel,
    interval_locks_exclusive wellFormed_new halong⟩

/-- A thread holds the second page and its predecessor, node 1. The walk of another one that
locks the first page finds node 1 locked and takes it as well. -/
theorem interval_locks_share_predecessor :
    let s := Run.exec step (init VmaMap.new)
      (mapTwoPages ++ lockFor 0 0x2000 0x3000 12 ++ lockFor 1 0x1000 0x2000 10)
    (s.pc 0).outstanding = [1, 2] ∧ (s.pc 1).outstanding = [0, 1] ∧ ¬ s.Exclusion := by
  refine ⟨by decide +kernel, by decide +kernel, fun hexclusion => ?_⟩
  exact hexclusion 0 1 (by decide) 1 (by decide +kernel) (by decide +kernel)

end System

end EchOS.Memory.VmaMap
