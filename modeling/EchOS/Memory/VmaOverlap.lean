import EchOS.Memory.VmaLevels

/-! Overlap queries of a VMA map. They scan level 0 behind the node at which the search for
the start of the range ends, and so leave out the VMA that contains the start. -/

namespace EchOS.Memory.VmaMap

open List

def Meets (m : VmaMap) (start stop : ℕ) (x : NodeId) : Prop :=
  (m.nodes x).start < stop ∧ start < (m.nodes x).stop

instance (m : VmaMap) (start stop : ℕ) (x : NodeId) : Decidable (m.Meets start stop x) :=
  inferInstanceAs (Decidable (_ ∧ _))

def meetingIds (m : VmaMap) (start stop : ℕ) (ids : List NodeId) : List NodeId :=
  ids.filter fun x => m.Meets start stop x

section

variable {m : VmaMap} {start stop : ℕ} {ptr : Option NodeId} {ids : List NodeId} {x : NodeId}
  {rounds : ℕ}

theorem meetingIds_cons_of_meets (hx : m.Meets start stop x) :
    m.meetingIds start stop (x :: ids) = x :: m.meetingIds start stop ids :=
  filter_cons_of_pos (by simpa using hx)

theorem meetingIds_cons_of_not (hx : ¬ m.Meets start stop x) :
    m.meetingIds start stop (x :: ids) = m.meetingIds start stop ids :=
  filter_cons_of_neg (by simpa using hx)

theorem meetingIds_eq_nil (ho : Ordered m (x :: ids))
    (hx : stop ≤ (m.nodes x).start) : m.meetingIds start stop (x :: ids) = [] := by
  refine filter_eq_nil_iff.mpr fun y hy => ?_
  have hstart : stop ≤ (m.nodes y).start := by
    rcases mem_cons.mp hy with rfl | hy
    · exact hx
    · have h₁ := (pairwise_cons.mp ho.sorted).1 y hy
      have h₂ := ho.nonempty x mem_cons_self
      omega
  rw [decide_eq_true_eq]
  exact fun h => absurd h.1 (Nat.not_lt.mpr hstart)

theorem run_overlapsStep (hseg : LinkedList.Seg m.succ ptr ids none) (ho : Ordered m ids)
    (hr : ids.length < rounds) :
    Loop.run (m.overlapsStep start stop) rounds ptr =
      some (decide (m.meetingIds start stop ids ≠ [])) := by
  induction ids generalizing ptr rounds with
  | nil =>
    obtain rfl : ptr = none := hseg
    exact Loop.run_done rfl hr
  | cons x ids ih =>
    obtain ⟨rfl, hseg⟩ := hseg
    obtain ⟨rounds, rfl⟩ := Nat.exists_eq_add_one.mpr (Nat.zero_lt_of_lt hr)
    have hstep : m.overlapsStep start stop (some x) =
        if stop ≤ (m.nodes x).start then some (.inr false)
        else if m.Meets start stop x then some (.inr true)
        else some (.inl (m.succ x)) := rfl
    by_cases hbehind : stop ≤ (m.nodes x).start
    · rw [if_pos hbehind] at hstep
      rw [meetingIds_eq_nil ho hbehind, Loop.run_done hstep (Nat.succ_pos rounds)]
      rfl
    rw [if_neg hbehind] at hstep
    split_ifs at hstep with hmeets
    · rw [meetingIds_cons_of_meets hmeets, Loop.run_done hstep (Nat.succ_pos rounds)]
      rfl
    · rw [meetingIds_cons_of_not hmeets, Loop.run_next hstep]
      exact ih hseg (ho.sublist (sublist_cons_self x ids)) (by simp at hr; omega)

theorem run_findOverlappingStep (hseg : LinkedList.Seg m.succ ptr ids none)
    (ho : Ordered m ids) (vmas : List Vma) (hr : ids.length < rounds) :
    Loop.run (m.findOverlappingStep start stop) rounds (ptr, vmas) =
      some (vmas ++ (m.meetingIds start stop ids).map fun x => (m.nodes x).vma) := by
  induction ids generalizing ptr vmas rounds with
  | nil =>
    obtain rfl : ptr = none := hseg
    rw [meetingIds, filter_nil, map_nil, append_nil]
    exact Loop.run_done rfl hr
  | cons x ids ih =>
    obtain ⟨rfl, hseg⟩ := hseg
    obtain ⟨rounds, rfl⟩ := Nat.exists_eq_add_one.mpr (Nat.zero_lt_of_lt hr)
    have hrest := ho.sublist (sublist_cons_self x ids)
    have hlen : ids.length < rounds := by simp at hr; omega
    have hstep : m.findOverlappingStep start stop (some x, vmas) =
        if stop ≤ (m.nodes x).start then some (.inr vmas)
        else if start < (m.nodes x).stop ∧ (m.nodes x).start < stop then
          some (.inl (m.succ x, vmas ++ [(m.nodes x).vma]))
        else some (.inl (m.succ x, vmas)) := rfl
    by_cases hbehind : stop ≤ (m.nodes x).start
    · rw [if_pos hbehind] at hstep
      rw [meetingIds_eq_nil ho hbehind, map_nil, append_nil]
      exact Loop.run_done hstep (Nat.succ_pos rounds)
    rw [if_neg hbehind] at hstep
    by_cases hmeets : m.Meets start stop x
    · rw [if_pos ⟨hmeets.2, hmeets.1⟩] at hstep
      rw [meetingIds_cons_of_meets hmeets, Loop.run_next hstep, ih hseg hrest _ hlen,
        map_cons, append_assoc, singleton_append]
    · rw [if_neg fun h => hmeets ⟨h.2, h.1⟩] at hstep
      rw [meetingIds_cons_of_not hmeets, Loop.run_next hstep]
      exact ih hseg hrest vmas hlen

end

/-- Both queries tell what the chain says. -/
structure QueriesExact (m : VmaMap) (ids : List NodeId) (start stop : ℕ) : Prop where
  overlaps : m.overlaps start stop = some (decide (∃ x ∈ ids, m.Meets start stop x))
  findOverlapping : m.findOverlapping start stop =
    some ((m.meetingIds start stop ids).map fun x => (m.nodes x).vma)

/-- In a sorted and disjoint chain whose upper links lead forward along it, the queries are
exact just for the ranges whose start no VMA contains. -/
theorem queriesExact_iff (m : VmaMap) (ids : List NodeId) (h : Threaded m ids)
    (ho : Ordered m ids) (hf : Forward m ids) {start stop : ℕ} (hlt : start < stop) :
    QueriesExact m ids start stop ↔
      ∀ x ∈ ids, ¬ ((m.nodes x).start ≤ start ∧ start < (m.nodes x).stop) := by
  obtain ⟨passed, rest, rfl, hpassed, hrest⟩ := ho.split_at start
  obtain ⟨preds, hpreds, hzero⟩ := findPredsBelow_eq h hf hpassed hrest h.tall
  have hpreds : m.findPreds start = some preds := hpreds
  have hseg : LinkedList.Seg m.succ (m.nextPtr (preds 0) 0) rest none := by
    rw [hzero]
    exact h.links.from_last.2
  have horest := ho.sublist (sublist_append_right passed rest)
  have hlen : rest.length < m.rounds := by
    have := h.length_lt
    simp only [length_append] at this
    unfold rounds
    omega
  -- the queries see only the nodes that start behind the start of the range
  have hoverlaps : m.overlaps start stop = some (decide (m.meetingIds start stop rest ≠ [])) := by
    rw [overlaps, if_neg (Nat.not_le.mpr hlt), hpreds]
    exact run_overlapsStep hseg horest hlen
  have hfound : m.findOverlapping start stop =
      some ((m.meetingIds start stop rest).map fun x => (m.nodes x).vma) := by
    rw [findOverlapping, if_neg (Nat.not_le.mpr hlt), hpreds, Option.bind_eq_bind]
    exact run_findOverlappingStep hseg horest [] hlen
  have hall : m.meetingIds start stop (passed ++ rest) =
      (passed.filter fun x => start < (m.nodes x).stop) ++ m.meetingIds start stop rest := by
    refine (filter_append ..).trans (congrArg (· ++ _) (filter_congr fun x hx => ?_))
    refine decide_eq_decide.mpr ⟨fun h => h.2, fun h => ⟨?_, h⟩⟩
    exact Nat.lt_of_le_of_lt (hpassed x hx) hlt
  -- exact means that no node before the scanned part meets the range
  have hnone : (∀ x ∈ passed ++ rest, ¬ ((m.nodes x).start ≤ start ∧ start < (m.nodes x).stop)) ↔
      (passed.filter fun x => start < (m.nodes x).stop) = [] := by
    rw [filter_eq_nil_iff]
    constructor
    · intro hno x hx hcovers
      exact hno x (mem_append_left _ hx) ⟨hpassed x hx, by simpa using hcovers⟩
    · intro hno x hx hcovers
      rcases mem_append.mp hx with hx | hx
      · exact hno x hx (by simpa using hcovers.2)
      · exact absurd hcovers.1 (Nat.not_le.mpr (hrest x hx))
  rw [hnone]
  constructor
  · intro hexact
    have hlists := Option.some.inj (hfound.symm.trans hexact.findOverlapping)
    rw [hall] at hlists
    have hlen := congrArg List.length hlists
    simp only [length_append, length_map] at hlen
    exact eq_nil_of_length_eq_zero (by omega)
  · intro hempty
    rw [hempty, nil_append] at hall
    refine ⟨hoverlaps.trans ?_, hfound.trans (by rw [hall])⟩
    rw [← hall]
    refine congrArg some (decide_eq_decide.mpr ?_)
    simp only [meetingIds, ne_eq, filter_eq_nil_iff, decide_eq_true_eq, not_forall, not_not]
    simp only [exists_prop]

private def twoPages : VmaMap :=
  (new.alloc ⟨0x1000, 0x3000, 3, .anonymous 1, false, false, false⟩ 1).2.store head 0
    (.clean (some 1))

private theorem threaded_twoPages : Threaded twoPages [1] :=
  ⟨⟨rfl, rfl, rfl⟩, by decide, by decide, Nat.le_refl 1⟩

private theorem leveled_twoPages : Leveled twoPages (flatLevels [1]) [] := by
  refine threaded_twoPages.leveled (fun x hx => ?_) fun level hl => ?_
  · simp only [mem_cons, not_mem_nil, or_false] at hx
    rcases hx with rfl | rfl <;> rfl
  · rw [twoPages, load_store, if_neg fun h => Nat.ne_of_gt hl h.2]
    rfl

private theorem ordered_twoPages : Ordered twoPages [1] where
  start_eq x hx := by obtain rfl := mem_singleton.mp hx; rfl
  stop_eq x hx := by obtain rfl := mem_singleton.mp hx; rfl
  nonempty x hx := by obtain rfl := mem_singleton.mp hx; decide
  sorted := pairwise_singleton _ _

/-- The page before the two and the first of them. -/
theorem queriesExact_twoPages : QueriesExact twoPages [1] 0 0x2000 :=
  (queriesExact_iff twoPages [1] threaded_twoPages ordered_twoPages
    (leveled_twoPages.forward ordered_twoPages) (by decide)).mpr (by decide)

/-- A range that begins inside a VMA is said to overlap nothing. -/
theorem overlaps_misses_containing_vma :
    (do
      let (_, m) ← new.insert 7 ⟨0x1000, 0x3000, 3, .anonymous 1, false, false, false⟩
      let vmas ← m.collectAll
      let overlaps ← m.overlaps 0x2000 0x2800
      let found ← m.findOverlapping 0x2000 0x2800
      return (vmas, overlaps, found)) =
      some ([⟨0x1000, 0x3000, 3, .anonymous 1, false, false, false⟩], false, []) := by
  decide +kernel

end EchOS.Memory.VmaMap
