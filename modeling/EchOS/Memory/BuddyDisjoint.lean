import EchOS.Lib.Run
import EchOS.Memory.BuddyBlocks

/-! Who owns which pages of the buddy allocator: the blocks handed out and not returned,
and the blocks of the free lists. -/
namespace EchOS.Memory

open Option List Prod FibonacciBuddyAllocator

namespace FibonacciBuddyAllocator

variable {a a' : FibonacciBuddyAllocator} {i idx : Fin 32} {addr block size : ℕ}
  {rest : List Span} {c : Candidate} {r : Option ℕ}

theorem minPosition_lt {l : List ℕ} {p : ℕ} (h : minPosition l = some p) : p < l.length := by
  induction l generalizing p with
  | nil => simp [minPosition] at h
  | cons a l ih =>
    rw [minPosition] at h
    split at h
    · simp at h
      simp [← h]
    · rename_i q hq
      have := ih hq
      split_ifs at h <;> simp at h <;> simp [← h]
      omega

theorem takeLowestBlock_perm (h : a.takeLowestBlock idx = some (block, a')) :
    a.freeSpans.Perm (blockSpan idx block :: a'.freeSpans) := by
  simp only [takeLowestBlock, Option.bind_eq_bind, Option.bind_eq_some_iff, Option.pure_def,
    some.injEq] at h
  obtain ⟨p, hp, rfl, rfl⟩ := h
  exact freeSpans_removeAt a idx (minPosition_lt hp)

def Candidate.Listed (a : FibonacciBuddyAllocator) (target : Fin 32) (c : Candidate) : Prop :=
  target < c.idx ∧ c.position < (a.freeLists c.idx).items.length

theorem candidates_listed {target : Fin 32} (hc : c ∈ a.candidates target) : c.Listed a target := by
  simp only [candidates, mem_flatMap, mem_filter, mem_finRange, true_and,
    decide_eq_true_eq] at hc
  obtain ⟨idx, hidx, hc⟩ := hc
  obtain ⟨p, hp, rfl⟩ := mem_mapIdx.mp hc
  exact ⟨hidx, hp⟩

theorem foldl_better_mem {cs : List Candidate} {best : Option Candidate}
    (h : cs.foldl better best = some c) : best = some c ∨ c ∈ cs := by
  induction cs generalizing best with
  | nil => exact .inl h
  | cons d cs ih =>
    rcases ih h with hb | hb
    · cases best with
      | none =>
        obtain rfl : d = c := some.inj hb
        exact .inr (by simp)
      | some b =>
        simp only [better] at hb
        split_ifs at hb
        · obtain rfl : d = c := some.inj hb
          exact .inr (by simp)
        · exact .inl hb
    · exact .inr (by simp [hb])

theorem takeLowestSuitableBlock_perm {target larger : Fin 32}
    (h : a.takeLowestSuitableBlock target = some (larger, block, a')) :
    target < larger ∧ a.freeSpans.Perm (blockSpan larger block :: a'.freeSpans) := by
  simp only [takeLowestSuitableBlock, bind_eq_bind, bind_eq_some_iff,
    Option.pure_def, Option.some.injEq] at h
  obtain ⟨c, hc, rfl, rfl, rfl⟩ := h
  rcases foldl_better_mem hc with hn | hc
  · simp at hn
  obtain ⟨hlt, hp⟩ := candidates_listed hc
  exact ⟨hlt, freeSpans_removeAt a c.idx hp⟩

theorem splitBlock_apart [PhysAddr] {i target : ℕ} {hi : i < 32} (ht : target ≤ i)
    (hs : a.splitBlock block i hi target = some a')
    (h : Span.Apart (blockSpan ⟨i, hi⟩ block :: (rest ++ a.freeSpans))) :
    Span.Apart (blockSpan ⟨target, target_lt_lists hi ht⟩ block :: (rest ++ a'.freeSpans)) := by
  obtain rfl := splitBlock_some ht hs
  have htiles := tiles_cutBlocks block hi ht
  refine (h.refine htiles.apart htiles.within).subperm ?_
  refine (subperm_cons _).mpr ?_
  refine ((subperm_append_left rest).mpr (freeSpans_pushAll a _)).trans ?_
  exact (perm_append_comm_assoc _ _ _).subperm

/-- What an allocation can do: fail and change nothing, take a block of the target list, or
take and split a larger one when the target list has none. -/
theorem allocate_cases [PhysAddr] (ha : a.allocate size = some (r, a')) :
    (r = none ∧ a' = a ∧ (size = 0 ∨
      a.takeLowestBlock (findFibIndex (pagesFor size)) = none ∧
      a.takeLowestSuitableBlock (findFibIndex (pagesFor size)) = none)) ∨
    (∃ block b, size ≠ 0 ∧ r = some block ∧
      a.takeLowestBlock (findFibIndex (pagesFor size)) = some (block, b) ∧
      a' = b.addUsed (fib (findFibIndex (pagesFor size)))) ∨
    (∃ larger block b c, size ≠ 0 ∧ r = some block ∧
      a.takeLowestBlock (findFibIndex (pagesFor size)) = none ∧
      a.takeLowestSuitableBlock (findFibIndex (pagesFor size)) = some (larger, block, b) ∧
      b.splitBlock block larger larger.isLt (findFibIndex (pagesFor size)) = some c ∧
      a' = c.addUsed (fib (findFibIndex (pagesFor size)))) := by
  unfold allocate at ha
  split_ifs at ha with hz
  · obtain ⟨rfl, rfl⟩ := Prod.mk.inj (some.inj ha)
    exact .inl ⟨rfl, rfl, .inl hz⟩
  · dsimp only at ha
    split at ha
    · rename_i block b hb
      obtain ⟨rfl, rfl⟩ := Prod.mk.inj (some.inj ha)
      exact .inr (.inl ⟨block, b, hz, rfl, hb, rfl⟩)
    · rename_i hnone
      split at ha
      · rename_i hlarger
        obtain ⟨rfl, rfl⟩ := Prod.mk.inj (some.inj ha)
        exact .inl ⟨rfl, rfl, .inr ⟨hnone, hlarger⟩⟩
      · rename_i larger block b hb
        simp only [Option.bind_eq_bind, Option.bind_eq_some_iff, Option.pure_def,
          some.injEq] at ha
        obtain ⟨c, hc, rfl, rfl⟩ := ha
        exact .inr (.inr ⟨larger, block, b, c, hz, rfl, hnone, hb, hc, rfl⟩)

theorem allocate_apart [PhysAddr] (ha : a.allocate size = some (r, a'))
    (h : Span.Apart (rest ++ a.freeSpans)) :
    Span.Apart ((r.map (blockSpan (findFibIndex (pagesFor size)))).toList ++
      (rest ++ a'.freeSpans)) := by
  rcases allocate_cases ha with ⟨rfl, rfl, -⟩ | ⟨block, b, -, rfl, hb, rfl⟩ |
    ⟨larger, block, b, c, -, rfl, -, hb, hc, rfl⟩
  · simpa using h
  · have hp := (takeLowestBlock_perm hb).append_left rest
    exact h.perm (hp.trans perm_middle)
  · obtain ⟨hlt, hp⟩ := takeLowestSuitableBlock_perm hb
    have hbig := h.perm ((hp.append_left rest).trans perm_middle)
    have hsplit := splitBlock_apart (Nat.le_of_lt hlt) hc hbig
    exact hsplit

/-- Freeing `addr` into list `idx` merges it: its XOR buddy is found in the same list. -/
def MergesBuddy [PhysAddr] (a : FibonacciBuddyAllocator) (addr : ℕ) (idx : Fin 32) : Prop :=
  idx.val < 31 ∧ (a.findBuddy addr idx).bind a.findBlockInFreelist = some idx

instance [PhysAddr] (a : FibonacciBuddyAllocator) (addr : ℕ) (idx : Fin 32) :
    Decidable (a.MergesBuddy addr idx) := inferInstanceAs (Decidable (_ ∧ _))

theorem findBuddy_ne [PhysAddr] {buddy : ℕ} (h : a.findBuddy addr idx = some buddy) :
    buddy ≠ addr := by
  simp only [findBuddy, PhysAddr.new_eq, ite_none_right_eq_some, some.injEq] at h
  intro heq
  have hoff : (addr - a.baseAddress) / pageSize =
      ((addr - a.baseAddress) / pageSize) ^^^ fib idx := by
    have hsub : addr - a.baseAddress =
        (((addr - a.baseAddress) / pageSize) ^^^ fib idx) * pageSize := by omega
    conv_lhs => rw [hsub]
    exact Nat.mul_div_cancel _ (by decide)
  have hz : fib idx = 0 := by
    have hx := congrArg (((addr - a.baseAddress) / pageSize) ^^^ ·) hoff
    simpa [← Nat.xor_assoc] using hx.symm
  have hpos := fib_pos idx
  omega

theorem mem_push_iff {j : Fin 32} {x : ℕ} (hne : x ≠ addr) :
    x ∈ ((a.push i addr).freeLists j).items ↔ x ∈ (a.freeLists j).items := by
  by_cases hj : j = i
  · subst j
    by_cases hfull : (a.freeLists i).items.length < maxBlocksPerList
    · simp [push, setList, FixedBlockList.push_items_of_lt hfull, hne]
    · simp [push, setList, FixedBlockList.push_of_not_lt hfull]
  · simp [push, setList, hj]

theorem mergesBuddy_push_iff [PhysAddr] :
    (a.push i addr).MergesBuddy addr idx ↔ a.MergesBuddy addr idx := by
  refine and_congr_right fun _ => ?_
  have hsame : (a.push i addr).findBuddy addr idx = a.findBuddy addr idx := rfl
  rw [hsame]
  cases hf : a.findBuddy addr idx with
  | none => simp
  | some buddy => simp only [bind_some, findBlockInFreelist, mem_push_iff (findBuddy_ne hf)]

theorem tryCoalesce_of_not_merges [PhysAddr] (hn : ¬ a.MergesBuddy addr idx)
    (hc : a.tryCoalesce addr idx = some a') : a = a' := by
  unfold tryCoalesce at hc
  obtain ⟨rounds, hr⟩ : ∃ rounds, 31 - idx.val = rounds := ⟨_, rfl⟩
  cases rounds with
  | zero =>
    simp only [hr, tryCoalesceFrom] at hc
    exact some.inj hc
  | succ rounds =>
    simp only [hr, tryCoalesceFrom] at hc
    split at hc
    · simp at hc
    · rename_i buddy hf
      have hnone : a.findBlockInFreelist buddy ≠ some idx := by
        intro hfound
        exact hn ⟨by omega, by rw [hf, bind_some, hfound]⟩
      exact some.inj ((if_neg hnone).symm.trans hc)

theorem deallocate_eq [PhysAddr] (hz : size ≠ 0)
    (hn : ¬ a.MergesBuddy addr (findFibIndex (pagesFor size)))
    (hd : a.deallocate addr size = some a') :
    (a.push (findFibIndex (pagesFor size)) addr).subUsed (fib (findFibIndex (pagesFor size))) =
      a' := by
  rw [deallocate, if_neg hz] at hd
  let target := findFibIndex (pagesFor size)
  have hn' : ¬ ((a.push target addr).subUsed (fib target)).MergesBuddy addr target :=
    fun h => hn ((mergesBuddy_push_iff (a := a)).mp h)
  exact tryCoalesce_of_not_merges hn' hd

theorem deallocate_of_not_merges [PhysAddr]
    (hn : ¬ a.MergesBuddy addr (findFibIndex (pagesFor size)))
    (hd : a.deallocate addr size = some a') :
    a'.freeSpans.Subperm (blockSpan (findFibIndex (pagesFor size)) addr :: a.freeSpans) := by
  by_cases hz : size = 0
  · rw [deallocate, if_pos hz] at hd
    obtain rfl : a = a' := some.inj hd
    exact (sublist_cons_self _ _).subperm
  · obtain rfl := deallocate_eq hz hn hd
    exact freeSpans_push a _ addr

end FibonacciBuddyAllocator

/-- An allocator and the blocks its callers hold, each with the size it was asked for. -/
structure BuddySystem where
  allocator : FibonacciBuddyAllocator
  live : List (ℕ × ℕ)

namespace BuddySystem

inductive Op
  | allocate (size : ℕ)
  | deallocate (addr size : ℕ)

def liveSpan (block : ℕ × ℕ) : Span := blockSpan (findFibIndex (pagesFor block.2)) block.1

def owned (s : BuddySystem) : List Span := s.live.map liveSpan ++ s.allocator.freeSpans

def step? [PhysAddr] (s : BuddySystem) : Op → Option BuddySystem
  | .allocate size => do
    let (r, a) ← s.allocator.allocate size
    return ⟨a, (r.map fun addr => (addr, size)).toList ++ s.live⟩
  | .deallocate addr size => do
    let a ← s.allocator.deallocate addr size
    return ⟨a, s.live.erase (addr, size)⟩

/-- `none` is the panicked system, which takes no further step. -/
def step [PhysAddr] (s : Option BuddySystem) (op : Op) : Option BuddySystem := s.bind (·.step? op)

def start [PhysAddr] (base size : ℕ) : Option BuddySystem :=
  (new base size).map fun a => ⟨a, []⟩

/-- Callers return only blocks they hold, with the size they asked for. -/
def ReturnsLive : Option BuddySystem → Op → Prop
  | some s, .deallocate addr size => (addr, size) ∈ s.live
  | _, _ => True

/-- No returned block finds its XOR buddy in the free list it joins. -/
def FindsNoBuddy [PhysAddr] : Option BuddySystem → Op → Prop
  | some s, .deallocate addr size =>
    ¬ s.allocator.MergesBuddy addr (findFibIndex (pagesFor size))
  | _, _ => True

instance : ∀ s op, Decidable (ReturnsLive s op)
  | some _, .deallocate _ _ => inferInstanceAs (Decidable (_ ∈ _))
  | some _, .allocate _ => inferInstanceAs (Decidable True)
  | none, _ => inferInstanceAs (Decidable True)

instance [PhysAddr] : ∀ s op, Decidable (FindsNoBuddy s op)
  | some _, .deallocate _ _ => inferInstanceAs (Decidable (¬ _))
  | some _, .allocate _ => inferInstanceAs (Decidable True)
  | none, _ => inferInstanceAs (Decidable True)

def Disjoint (s : Option BuddySystem) : Prop := ∀ t, s = some t → Span.Apart t.owned

instance : DecidablePred Disjoint
  | none => isTrue fun _ h => nomatch h
  | some t => decidable_of_iff (Span.Apart t.owned)
    ⟨fun h _ ht => some.inj ht ▸ h, fun h => h t rfl⟩

theorem disjoint_step [PhysAddr] (s : Option BuddySystem) (op : Op) (h : Disjoint s)
    (hg : ReturnsLive s op ∧ FindsNoBuddy s op) : Disjoint (step s op) := by
  intro t ht
  simp only [step, bind_eq_some_iff] at ht
  obtain ⟨s, rfl, ht⟩ := ht
  have hs : Span.Apart s.owned := h s rfl
  cases op with
  | allocate size =>
    simp only [step?, Option.bind_eq_bind, Option.bind_eq_some_iff, Option.pure_def,
      some.injEq, Prod.exists] at ht
    obtain ⟨r, a, ha, rfl⟩ := ht
    have happ := allocate_apart ha hs
    cases r with
    | none => simpa [owned] using happ
    | some addr => simpa [owned, liveSpan] using happ
  | deallocate addr size =>
    simp only [step?, Option.bind_eq_bind, Option.bind_eq_some_iff, Option.pure_def,
      some.injEq] at ht
    obtain ⟨a, ha, rfl⟩ := ht
    have hsub := deallocate_of_not_merges hg.2 ha
    have hlive := (perm_cons_erase hg.1).map liveSpan
    refine hs.subperm ?_
    refine ((subperm_append_left _).mpr hsub).trans ?_
    exact (perm_middle.trans (hlive.append_right _).symm).subperm

/-- In every run that returns only live blocks and never merges a returned block, no two
owned ranges meet. -/
theorem owned_ranges_apart [PhysAddr] (base size : ℕ) (ops : List Op)
    (hlive : Run.Along step ReturnsLive (start base size) ops)
    (hbuddy : Run.Along step FindsNoBuddy (start base size) ops) :
    Disjoint (Run.exec step (start base size) ops) := by
  refine Run.Along.invariant disjoint_step ?_ ((Run.along_and _ _).mpr ⟨hlive, hbuddy⟩)
  intro t ht
  simp only [start, map_eq_some_iff] at ht
  obtain ⟨a, ha, rfl⟩ := ht
  simpa [owned] using (tiles_fillBlocks (Nat.le_refl _) _).apart.subperm (freeSpans_new ha)

/-- Eight pages at 1 MiB: two pages and five pages are taken and the two are returned. -/
theorem owned_ranges_apart_eight_pages :
    Disjoint (Run.exec step (start 0x100000 0x8000)
      [.allocate 0x2000, .allocate 0x5000, .deallocate 0x100000 0x2000]) :=
  owned_ranges_apart 0x100000 0x8000 _ (by decide +kernel) (by decide +kernel)

/-- Two single pages returned one after the other: the second return leaves the block in
its own list and also lists the merged two-page block. -/
theorem owned_ranges_meet_after_merge :
    Run.Along step ReturnsLive (start 0 0x2000)
      [.allocate 0x1000, .allocate 0x1000, .deallocate 0 0x1000, .deallocate 0x1000 0x1000] ∧
    ¬ Disjoint (Run.exec step (start 0 0x2000)
      [.allocate 0x1000, .allocate 0x1000, .deallocate 0 0x1000, .deallocate 0x1000 0x1000]) := by
  decide +kernel

end BuddySystem

end EchOS.Memory
