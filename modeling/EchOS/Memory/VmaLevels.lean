import EchOS.Memory.VmaChain

/-! Searches through the levels of a VMA map. As long as no upper link leads off the chain of
level 0, a search ends at the last node that starts at or before the address. -/

namespace EchOS.Memory.VmaMap

open List Option

/-- `find_vma_cils` on the sentinel of the map. Without another thread the epoch that the
reader began in is still the current one when it ends. -/
def findVmaCils (m : VmaMap) (addr : ℕ) : Option (Option Vma) := do
  let preds ← m.findPredsBelow addr maxHeight head fun _ => head
  let node := preds 0
  if node ≠ head ∧ (m.nodes node).start ≤ addr ∧ addr < (m.nodes node).stop then
    return some (m.nodes node).vma
  else return none

/-- Where a search can get: along a level, and from a level to the one below. -/
inductive Reaches (m : VmaMap) : ℕ → NodeId → Prop
  | head (level : ℕ) : Reaches m level head
  | next {level : ℕ} {x y : NodeId} : Reaches m level x → m.nextPtr x level = some y →
      Reaches m level y
  | down {level : ℕ} {x : NodeId} : Reaches m (level + 1) x → Reaches m level x

/-- Every link that a search can meet leads forward, to a node of the chain. -/
def Forward (m : VmaMap) (ids : List NodeId) : Prop :=
  ∀ level x y, Reaches m level x → m.nextPtr x level = some y →
    y ∈ ids ∧ (x = head ∨ (m.nodes x).start < (m.nodes y).start)

variable {ids : List NodeId} {m : VmaMap}

theorem Forward.mem (h : Forward m ids) {level : ℕ} {x : NodeId}
    (hx : Reaches m level x) : x ∈ head :: ids := by
  induction hx with
  | head => exact mem_cons_self
  | next hx hnext _ => exact mem_cons_of_mem head (h _ _ _ hx hnext).1
  | down _ ih => exact ih

def ahead (m : VmaMap) (ids : List NodeId) (x : NodeId) : ℕ :=
  (ids.filter fun y => x = head ∨ (m.nodes x).start < (m.nodes y).start).length

theorem ahead_lt {x y : NodeId} (hy : y ∈ ids) (hne : y ≠ head)
    (hxy : x = head ∨ (m.nodes x).start < (m.nodes y).start) : m.ahead ids y < m.ahead ids x := by
  have hsub : ids.filter (fun z => decide (y = head ∨ (m.nodes y).start < (m.nodes z).start)) =
      (ids.filter fun z => decide (x = head ∨ (m.nodes x).start < (m.nodes z).start)).filter
        fun z => decide (y = head ∨ (m.nodes y).start < (m.nodes z).start) := by
    rw [List.filter_filter]
    refine filter_congr fun z _ => ?_
    simp only [hne, false_or, ← Bool.decide_and]
    refine decide_eq_decide.mpr ⟨fun h => ⟨h, ?_⟩, fun h => h.1⟩
    rcases hxy with hx | hx
    · exact .inl hx
    · exact .inr (Nat.lt_trans hx h)
  unfold ahead
  rw [hsub, length_filter_lt_length_iff_exists]
  refine ⟨y, mem_filter.mpr ⟨hy, by simpa using hxy⟩, ?_⟩
  simp [hne]

/-- A place of a search for an address: reached on the level, not behind the address. -/
structure Passed (m : VmaMap) (ids : List NodeId) (addr level : ℕ) (x : NodeId) : Prop where
  reached : Reaches m level x
  start_le : x ≠ head → (m.nodes x).start ≤ addr

section

variable {m : VmaMap} {ids : List NodeId} {addr : ℕ}

variable {x : NodeId} {passed rest : List NodeId} {level : ℕ}

theorem run_findPredsStep (h : Threaded m ids) (hf : Forward m ids)
    (hx : Passed m ids addr level x) :
    ∃ x', Loop.run (m.findPredsStep addr level) m.rounds x = some x' ∧
      Passed m ids addr level x' ∧
      ∀ y, m.nextPtr x' level = some y → addr < (m.nodes y).start := by
  have hhead : head ∉ ids := (nodup_cons.mp h.nodup).1
  have hround : ∀ x, Passed m ids addr level x → ∃ next, m.findPredsStep addr level x = some next ∧
      ∀ x', next = .inl x' → Passed m ids addr level x' ∧ m.ahead ids x' < m.ahead ids x := by
    intro x hx
    unfold findPredsStep
    cases hnext : m.nextPtr x level with
    | none => exact ⟨_, rfl, fun x' hx' => nomatch hx'⟩
    | some y =>
      dsimp only
      split_ifs with hle
      · refine ⟨_, rfl, fun x' hx' => ?_⟩
        cases hx'
        obtain ⟨hy, hlt⟩ := hf _ _ _ hx.reached hnext
        exact ⟨⟨hx.reached.next hnext, fun _ => hle⟩,
          ahead_lt hy (fun heq => hhead (heq ▸ hy)) hlt⟩
      · exact ⟨_, rfl, fun x' hx' => nomatch hx'⟩
  have hrounds : m.ahead ids x < m.rounds := by
    have hfilter : m.ahead ids x ≤ ids.length := length_filter_le _ _
    have hlen := h.length_lt
    unfold rounds
    omega
  obtain ⟨b, s, hrun, hs, hstep⟩ := Loop.run_total hround hx hrounds
  -- the loop ends where it stands
  have hend : b = s ∧ ∀ y, m.nextPtr s level = some y → addr < (m.nodes y).start := by
    unfold findPredsStep at hstep
    cases hnext : m.nextPtr s level with
    | none =>
      rw [hnext] at hstep
      exact ⟨(Sum.inr.inj (some.inj hstep)).symm, fun y hy => nomatch hy⟩
    | some y =>
      rw [hnext] at hstep
      dsimp only at hstep
      split_ifs at hstep with hle
      · cases hstep
      · refine ⟨(Sum.inr.inj (some.inj hstep)).symm, fun z hz => ?_⟩
        cases hz
        exact Nat.not_le.mp hle
  obtain ⟨rfl, hbehind⟩ := hend
  exact ⟨b, hrun, hs, hbehind⟩

theorem findPredsBelow_spec (h : Threaded m ids) (hf : Forward m ids)
    (hx : Passed m ids addr level x) (preds : ℕ → NodeId) :
    ∃ preds', m.findPredsBelow addr (level + 1) x preds = some preds' ∧
      (∀ i ≤ level, Passed m ids addr i (preds' i) ∧
        ∀ y, m.nextPtr (preds' i) i = some y → addr < (m.nodes y).start) ∧
      ∀ i, level < i → preds' i = preds i := by
  induction level generalizing x preds with
  | zero =>
    obtain ⟨x', hrun, hx', hbehind⟩ := run_findPredsStep h hf hx
    refine ⟨fun i => if i = 0 then x' else preds i, ?_, fun i hi => ?_, fun i hi => ?_⟩
    · simp only [findPredsBelow, hrun]
      rfl
    · obtain rfl := Nat.le_zero.mp hi
      exact ⟨hx', hbehind⟩
    · exact if_neg (Nat.ne_of_gt hi)
  | succ level ih =>
    obtain ⟨x', hrun, hx', hbehind⟩ := run_findPredsStep h hf hx
    obtain ⟨preds', hpreds', hends, hkept⟩ := ih ⟨hx'.reached.down, hx'.start_le⟩
      fun i => if i = level + 1 then x' else preds i
    refine ⟨preds', ?_, fun i hi => ?_, fun i hi => ?_⟩
    · rw [findPredsBelow, hrun]
      exact hpreds'
    · rcases Nat.lt_or_eq_of_le hi with hlt | rfl
      · exact hends i (Nat.lt_succ_iff.mp hlt)
      · rw [hkept (level + 1) (Nat.lt_succ_self level), if_pos rfl]
        exact ⟨hx', hbehind⟩
    · rw [hkept i (by omega), if_neg (by omega)]

section Search

variable (h : Threaded m (passed ++ rest)) (hf : Forward m (passed ++ rest))
  (ho : Ordered m (passed ++ rest)) (hpassed : ∀ y ∈ passed, (m.nodes y).start ≤ addr)
  (hrest : ∀ y ∈ rest, addr < (m.nodes y).start)

include h hpassed hrest

include hf in
theorem passed_last (hx : Passed m (passed ++ rest) addr 0 x)
    (hbehind : ∀ y, m.succ x = some y → addr < (m.nodes y).start) : x = passed.getLastD head := by
  have hmem : x ∈ head :: passed := by
    rcases mem_cons.mp (hf.mem hx.reached) with rfl | hin
    · exact mem_cons_self
    · rcases mem_append.mp hin with hin | hin
      · exact mem_cons_of_mem head hin
      · have hle := hx.start_le fun heq =>
          (nodup_cons.mp h.nodup).1 (heq ▸ mem_append_right _ hin)
        have := hrest x hin
        omega
  obtain ⟨l, r, hsplit⟩ := append_of_mem hmem
  have hnext : m.succ x = (r ++ rest).head? := by
    have hlinks := h.links
    rw [← cons_append, hsplit, append_assoc] at hlinks
    exact hlinks.next_eq
  cases r with
  | nil =>
    cases l with
    | nil =>
      obtain ⟨rfl, rfl⟩ := cons.inj hsplit
      rfl
    | cons a l =>
      obtain ⟨-, rfl⟩ := cons.inj hsplit
      exact (getLastD_concat ..).symm
  | cons y r =>
    have hy : y ∈ passed := by
      cases l with
      | nil | cons a l => simp [(cons.inj hsplit).2]
    have h₁ := hpassed y hy
    have h₂ := hbehind y hnext
    omega

include hf in
theorem findPredsBelow_eq {levels : ℕ} (hlevels : 0 < levels) :
    ∃ preds, m.findPredsBelow addr levels head (fun _ => head) = some preds ∧
      preds 0 = passed.getLastD head := by
  obtain ⟨level, rfl⟩ := Nat.exists_eq_add_one.mpr hlevels
  have hhead : Passed m (passed ++ rest) addr level head :=
    ⟨.head level, fun h => absurd rfl h⟩
  obtain ⟨preds, hpreds, hends, -⟩ := findPredsBelow_spec h hf hhead fun _ => head
  obtain ⟨hend, hbehind⟩ := hends 0 (Nat.zero_le level)
  exact ⟨preds, hpreds, passed_last h hf hpassed hrest hend hbehind⟩

include ho in
theorem found_eq {node : NodeId} (hnode : node = passed.getLastD head) :
    (if node ≠ head ∧ (m.nodes node).start ≤ addr ∧ addr < (m.nodes node).stop then
      some (m.nodes node).vma else none) = m.lookup (passed ++ rest) addr := by
  subst hnode
  have hbehind : rest.find? (fun x =>
      decide ((m.nodes x).start ≤ addr) && decide (addr < (m.nodes x).stop)) = none := by
    rw [List.find?_eq_none]
    intro x hx
    have := hrest x hx
    simp
    omega
  simp only [lookup, List.find?_append, hbehind, or_none]
  obtain rfl | ⟨before, x, rfl⟩ := eq_nil_or_concat' passed
  · simp
  · have hx : x ≠ head := by
      have hnodup := h.nodup
      rintro rfl
      simp at hnodup
    have hearlier : before.find? (fun x =>
        decide ((m.nodes x).start ≤ addr) && decide (addr < (m.nodes x).stop)) = none := by
      rw [List.find?_eq_none]
      intro y hy
      have hsorted := ho.sorted
      rw [append_assoc, pairwise_append] at hsorted
      have hle := hsorted.2.2 y hy x (by simp)
      have := hpassed x (by simp)
      simp
      omega
    have hle := hpassed x (by simp)
    rw [List.find?_append, hearlier]
    by_cases hlt : addr < (m.nodes x).stop <;> simp [hx, hle, hlt]

end Search

theorem find_eq (h : Threaded m ids) (hf : Forward m ids) (ho : Ordered m ids) (addr : ℕ) :
    m.find addr = some (m.lookup ids addr) := by
  obtain ⟨passed, rest, rfl, hpassed, hrest⟩ := ho.split_at addr
  obtain ⟨preds, hpreds, hzero⟩ := findPredsBelow_eq h hf hpassed hrest h.tall
  have hfound := found_eq h ho hpassed hrest hzero
  rw [find, findPreds, hpreds, bind_eq_bind, bind_some, ← hfound]
  dsimp only
  split_ifs <;> rfl

/-- The lookup without locks finds the same, from the top level of the sentinel on. -/
theorem findVmaCils_eq (h : Threaded m ids) (hf : Forward m ids) (ho : Ordered m ids)
    (addr : ℕ) : m.findVmaCils addr = some (m.lookup ids addr) := by
  obtain ⟨passed, rest, rfl, hpassed, hrest⟩ := ho.split_at addr
  obtain ⟨preds, hpreds, hzero⟩ :=
    findPredsBelow_eq h hf hpassed hrest (show 0 < maxHeight by decide)
  have hfound := found_eq h ho hpassed hrest hzero
  rw [findVmaCils, hpreds, bind_eq_bind, bind_some, ← hfound]
  dsimp only
  split_ifs <;> rfl

end

/-- The nodes of every level in order. A level above 0 has some nodes of the one below, all of
them tall enough, and no flag on its pointers. -/
structure Leveled (m : VmaMap) (levels : ℕ → List NodeId) (locked : List NodeId) : Prop where
  threaded : Threaded m (levels 0)
  flags : ∀ x ∈ head :: levels 0,
    (m.load x 0).flag = if x ∈ locked then TaggedPtr.lockedBit else 0
  links : ∀ i, 0 < i →
    LinkedList.Seg (m.nextPtr · i) (some head) (head :: levels i) none
  clean : ∀ i, 0 < i → ∀ x ∈ head :: levels i, (m.load x i).flag = 0
  nested : ∀ i, (levels (i + 1)).Sublist (levels i)
  towers : ∀ i, 0 < i → ∀ x ∈ levels i, i < (m.nodes x).height

namespace Leveled

variable {m : VmaMap} {levels : ℕ → List NodeId} {locked : List NodeId}

section

variable (h : Leveled m levels locked) (i : ℕ)
include h

theorem seg : LinkedList.Seg (m.nextPtr · i) (some head) (head :: levels i) none := by
  cases i with
  | zero => exact h.threaded.links
  | succ i => exact h.links (i + 1) (Nat.succ_pos i)

theorem sublist_of_le {i j : ℕ} (hij : i ≤ j) : (levels j).Sublist (levels i) := by
  induction hij with
  | refl => exact Sublist.refl _
  | step _ ih => exact (h.nested _).trans ih

theorem sublist : (levels i).Sublist (levels 0) :=
  h.sublist_of_le (Nat.zero_le i)

theorem nodup : (head :: levels i).Nodup :=
  h.threaded.nodup.sublist ((h.sublist i).cons_cons head)

theorem next_split {i : ℕ} {x y : NodeId} (hx : x ∈ head :: levels i)
    (hnext : m.nextPtr x i = some y) : ∃ l r, head :: levels i = l ++ x :: y :: r := by
  obtain ⟨l, r, hsplit⟩ := append_of_mem hx
  have hseg := h.seg i
  rw [hsplit] at hseg
  have hhead : r.head? = some y := hseg.next_eq.symm.trans hnext
  cases r with
  | nil => cases hhead
  | cons z r =>
    cases hhead
    exact ⟨l, r, hsplit⟩

theorem mem_of_reaches {i : ℕ} {x : NodeId} (hx : Reaches m i x) : x ∈ head :: levels i := by
  induction hx with
  | head => exact mem_cons_self
  | next _ hnext ih =>
    obtain ⟨l, r, hsplit⟩ := h.next_split ih hnext
    rw [hsplit]
    simp
  | down _ ih => exact ((h.nested _).cons_cons head).subset ih

theorem forward (ho : Ordered m (levels 0)) : Forward m (levels 0) := by
  intro i x y hx hnext
  obtain ⟨l, r, hsplit⟩ := h.next_split (h.mem_of_reaches hx) hnext
  cases l with
  | nil =>
    obtain ⟨rfl, hlevel⟩ := cons.inj hsplit
    exact ⟨(h.sublist i).subset (by simp [hlevel]), .inl rfl⟩
  | cons a l =>
    have hlevel : levels i = l ++ x :: y :: r := (cons.inj hsplit).2
    have hstarts := ho.starts_sorted.sublist (h.sublist i)
    rw [hlevel, pairwise_append] at hstarts
    exact ⟨(h.sublist i).subset (by simp [hlevel]),
      .inr ((pairwise_cons.mp hstarts.2.1).1 y mem_cons_self)⟩

end

end Leveled

def flatLevels (ids : List NodeId) : ℕ → List NodeId
  | 0 => ids
  | _ + 1 => []

theorem Threaded.leveled (h : Threaded m ids) (hflags : ∀ x ∈ head :: ids, (m.load x 0).flag = 0)
    (hflat : ∀ level, 0 < level → m.load head level = .clean none) :
    Leveled m (flatLevels ids) [] where
  threaded := h
  flags x hx := by simpa using hflags x hx
  links i hi := by
    cases i with
    | zero => exact absurd hi (Nat.lt_irrefl 0)
    | succ i => exact ⟨rfl, congrArg TaggedPtr.node (hflat _ hi)⟩
  clean i hi x hx := by
    cases i with
    | zero => exact absurd hi (Nat.lt_irrefl 0)
    | succ i =>
      obtain rfl := mem_singleton.mp hx
      rw [hflat _ hi]
      rfl
  nested i := nil_sublist _
  towers i hi x hx := by
    cases i with
    | zero => exact absurd hi (Nat.lt_irrefl 0)
    | succ i => cases hx

end EchOS.Memory.VmaMap
