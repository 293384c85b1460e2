import Mathlib.Algebra.BigOperators.Fin
import EchOS.Memory.BuddyDisjoint

/-! How many pages the buddy allocator accounts for: the used pages and the pages of the
blocks in the free lists. -/
namespace EchOS.Memory

open List Option FibonacciBuddyAllocator Run Prod

theorem fib_succ_le : ∀ (i : Fin 32) (h : i.val + 1 < 32), fib ⟨i + 1, h⟩ ≤ 2 * fib i := by
  decide

namespace FibonacciBuddyAllocator

def freePages (a : FibonacciBuddyAllocator) : ℕ :=
  ∑ i, (a.freeLists i).items.length * fib i

theorem freePages_setList (a : FibonacciBuddyAllocator) (i : Fin 32) (l : FixedBlockList) :
    (a.setList i l).freePages + (a.freeLists i).items.length * fib i =
      a.freePages + l.items.length * fib i := by
  have hother : ∑ j ∈ Finset.univ.erase i, ((a.setList i l).freeLists j).items.length * fib j =
      ∑ j ∈ Finset.univ.erase i, (a.freeLists j).items.length * fib j := by
    refine Finset.sum_congr rfl fun j hj => ?_
    simp [setList, Finset.ne_of_mem_erase hj]
  have hnew := Finset.add_sum_erase Finset.univ
    (fun j => ((a.setList i l).freeLists j).items.length * fib j) (Finset.mem_univ i)
  have hold := Finset.add_sum_erase Finset.univ
    (fun j => (a.freeLists j).items.length * fib j) (Finset.mem_univ i)
  have hat : ((a.setList i l).freeLists i).items.length = l.items.length := by simp [setList]
  rw [hat] at hnew
  unfold freePages
  omega

theorem freePages_push (a : FibonacciBuddyAllocator) (i : Fin 32) (addr : ℕ) :
    (a.push i addr).freePages = a.freePages + if a.HasRoom i then fib i else 0 := by
  have h : (a.push i addr).freePages + _ = _ := freePages_setList a i _
  by_cases hroom : a.HasRoom i
  · rw [FixedBlockList.push_items_of_lt hroom, length_append, length_singleton,
      Nat.add_mul] at h
    rw [if_pos hroom]
    omega
  · rw [FixedBlockList.push_of_not_lt hroom] at h
    rw [if_neg hroom]
    omega

variable {p remaining fuel : ℕ} {idx : Fin 32}

theorem freePages_removeAt (a : FibonacciBuddyAllocator) (i : Fin 32)
    (hp : p < (a.freeLists i).items.length) : (a.removeAt i p).freePages + fib i = a.freePages := by
  have h : (a.removeAt i p).freePages + _ = _ := freePages_setList a i _
  have hlen : (a.freeLists i).items.length = ((a.freeLists i).swapRemove p).items.length + 1 :=
    (SwapRemove.perm_swapRemove hp).length_eq
  rw [hlen, Nat.add_mul] at h
  omega

structure TakenFrom (a a' : FibonacciBuddyAllocator) (idx : Fin 32) : Prop where
  freePages : a'.freePages + fib idx = a.freePages
  usedPages : a'.usedPages = a.usedPages
  totalPages : a'.totalPages = a.totalPages
  others : ∀ i, i ≠ idx → a'.freeLists i = a.freeLists i

theorem takenFrom_removeAt (a : FibonacciBuddyAllocator) (i : Fin 32)
    (hp : p < (a.freeLists i).items.length) : TakenFrom a (a.removeAt i p) i where
  freePages := freePages_removeAt a i hp
  usedPages := rfl
  totalPages := rfl
  others j hj := by simp [removeAt, setList, hj]

variable {a a' : FibonacciBuddyAllocator} {addr block i size target : ℕ}

theorem takeLowestBlock_takenFrom (h : a.takeLowestBlock idx = some (block, a')) :
    TakenFrom a a' idx := by
  simp only [takeLowestBlock, Option.bind_eq_bind, Option.bind_eq_some_iff, Option.pure_def,
    some.injEq] at h
  obtain ⟨p, hp, -, rfl⟩ := h
  exact takenFrom_removeAt a idx (minPosition_lt hp)

theorem items_of_takeLowestBlock_none (h : a.takeLowestBlock idx = none) :
    (a.freeLists idx).items = [] := by
  simp only [takeLowestBlock, Option.bind_eq_bind, Option.pure_def, Option.bind_eq_none_iff,
    reduceCtorEq, imp_false] at h
  cases hl : (a.freeLists idx).items with
  | nil => rfl
  | cons b l =>
    rw [hl, minPosition] at h
    split at h
    · exact absurd rfl (h 0)
    · split_ifs at h
      · exact absurd rfl (h _)
      · exact absurd rfl (h 0)

theorem takeLowestSuitableBlock_takenFrom {target larger : Fin 32}
    (h : a.takeLowestSuitableBlock target = some (larger, block, a')) :
    target < larger ∧ TakenFrom a a' larger := by
  simp only [takeLowestSuitableBlock, bind_eq_bind, bind_eq_some_iff,
    Option.pure_def, Option.some.injEq] at h
  obtain ⟨c, hc, rfl, -, rfl⟩ := h
  rcases foldl_better_mem hc with hn | hc
  · simp at hn
  obtain ⟨hlt, hp⟩ := candidates_listed hc
  exact ⟨hlt, takenFrom_removeAt a c.idx hp⟩

/-- Every right part that is cut off on the way from list `larger` to list `target` finds
room in its list. -/
def RoomToSplit (a : FibonacciBuddyAllocator) (target larger : ℕ) : Prop :=
  ∀ i : Fin 32, target ≤ i + 1 → i + 2 ≤ larger → a.HasRoom i

instance (a : FibonacciBuddyAllocator) (target larger : ℕ) :
    Decidable (a.RoomToSplit target larger) := inferInstanceAs (Decidable (∀ _, _))

theorem freePages_pushAll (a : FibonacciBuddyAllocator) (pushes : List (Fin 32 × ℕ)) :
    (a.pushAll pushes).freePages ≤ a.freePages + (pushes.map (fib ·.1)).sum ∧
      ((a.pushAll pushes).freePages = a.freePages + (pushes.map (fib ·.1)).sum ↔
        a.Accepts pushes) := by
  induction pushes generalizing a with
  | nil => simpa [pushAll, Accepts] using fun i => (a.freeLists i).bounded
  | cons p pushes ih =>
    obtain ⟨hle, heq⟩ := ih (a.push p.1 p.2)
    have hpush := freePages_push a p.1 p.2
    have hpos := fib_pos p.1
    rw [map_cons, sum_cons, accepts_cons, ← heq]
    change ((a.push p.1 p.2).pushAll pushes).freePages ≤ _ ∧
      (((a.push p.1 p.2).pushAll pushes).freePages = _ ↔ _)
    split_ifs at hpush with hroom
    · rw [and_iff_right hroom]
      omega
    · exact ⟨by omega, iff_of_false (by omega) fun h => hroom h.1⟩

theorem counts_pushAll (a : FibonacciBuddyAllocator) (pushes : List (Fin 32 × ℕ)) :
    (a.pushAll pushes).usedPages = a.usedPages ∧ (a.pushAll pushes).totalPages = a.totalPages := by
  induction pushes generalizing a with
  | nil => exact ⟨rfl, rfl⟩
  | cons p pushes ih => exact ih (a.push p.1 p.2)

theorem sum_cutBlocks (block : ℕ) (hi : i < 32) (ht : target ≤ i) :
    ((cutBlocks block i hi target).map (fib ·.1)).sum + fib ⟨target, target_lt_lists hi ht⟩ =
      fib ⟨i, hi⟩ := by
  induction i with
  | zero =>
    obtain rfl : target = 0 := by omega
    rfl
  | succ i ih =>
    by_cases hself : target = i + 1
    · subst hself
      rw [cutBlocks_self]
      exact Nat.zero_add _
    · cases i with
      | zero =>
        obtain rfl : target = 0 := by omega
        rfl
      | succ i =>
        have hrest := ih (by omega) (by omega)
        rw [cutBlocks, if_pos (by omega), map_cons, sum_cons, fib_add i hi]
        dsimp only
        omega

/-- Each list on the way down gets one right part. Down to a single page, list `0` gets one
more. -/
theorem count_cutBlocks (block : ℕ) (hi : i < 32) (ht : target ≤ i) (j : Fin 32) :
    ((cutBlocks block i hi target).map fst).count j =
      (if target ≤ j + 1 ∧ j + 2 ≤ i then 1 else 0) +
        if target = 0 ∧ 0 < i ∧ j = 0 then 1 else 0 := by
  induction i with
  | zero => simp [cutBlocks]
  | succ i ih =>
    by_cases hself : target = i + 1
    · subst hself
      rw [cutBlocks_self, if_neg (by omega)]
      rfl
    · cases i with
      | zero =>
        obtain rfl : target = 0 := by omega
        simp [cutBlocks, count_singleton, @eq_comm _ j 0]
      | succ i =>
        rw [cutBlocks, if_pos (by omega), map_cons, count_cons, ih (by omega) (by omega)]
        simp only [beq_iff_eq, Fin.ext_iff]
        split_ifs <;> omega

theorem accepts_cutBlocks_iff (hi : i < 32) (ht : target ≤ i)
    (hzero : target = 0 → (a.freeLists 0).items.length + min i 2 ≤ maxBlocksPerList) :
    a.Accepts (cutBlocks block i hi target) ↔ a.RoomToSplit target i := by
  constructor
  · intro h j hj hji
    have hfits := h j
    rw [count_cutBlocks block hi ht, if_pos ⟨hj, hji⟩] at hfits
    unfold HasRoom
    omega
  · intro h j
    have hbounded := (a.freeLists j).bounded
    have hroom := h j
    unfold HasRoom at hroom
    rw [count_cutBlocks block hi ht]
    by_cases hj : target = 0 ∧ 0 < i ∧ j = 0
    · obtain ⟨rfl, hpos, rfl⟩ := hj
      split_ifs <;> omega
    · split_ifs <;> omega

/-- The list of the larger block that is split for `size` bytes, if one is split. -/
def splitSource (a : FibonacciBuddyAllocator) (size : ℕ) : Option (Fin 32) :=
  let target := findFibIndex (pagesFor size)
  if size = 0 ∨ (a.takeLowestBlock target).isSome then none
  else (a.takeLowestSuitableBlock target).map (·.1)

def RoomToAllocate (a : FibonacciBuddyAllocator) (size : ℕ) : Prop :=
  ∀ larger ∈ a.splitSource size, a.RoomToSplit (findFibIndex (pagesFor size)) larger

instance (a : FibonacciBuddyAllocator) (size : ℕ) : Decidable (a.RoomToAllocate size) :=
  inferInstanceAs (Decidable (∀ _ ∈ _, _))

/-- Pages the allocator can name: the used ones and the listed ones. -/
def namedPages (a : FibonacciBuddyAllocator) : ℕ := a.usedPages + a.freePages

theorem allocate_pages [PhysAddr] {r : Option ℕ} (ha : a.allocate size = some (r, a')) :
    a'.totalPages = a.totalPages ∧
      a'.usedPages = a.usedPages + (r.map fun _ => fib (findFibIndex (pagesFor size))).getD 0 ∧
      (a'.namedPages = a.namedPages ↔ a.RoomToAllocate size) := by
  have hquiet : a.splitSource size = none → a.RoomToAllocate size := by
    intro hnone larger hl
    rw [hnone] at hl
    cases hl
  rcases allocate_cases ha with ⟨rfl, rfl, hfail⟩ | ⟨block, b, hz, rfl, hexact, rfl⟩ |
    ⟨larger, block, b, c, hz, rfl, hexact, hlarger, hc, rfl⟩
  · refine ⟨rfl, rfl, iff_of_true rfl (hquiet ?_)⟩
    rcases hfail with hz | ⟨hexact, hlarger⟩
    · rw [splitSource, if_pos (.inl hz)]
    · simp [splitSource, hexact, hlarger]
  · have ht := takeLowestBlock_takenFrom hexact
    have hpages : b.usedPages + fib (findFibIndex (pagesFor size)) + b.freePages =
        a.usedPages + a.freePages := by
      rw [ht.usedPages, ← ht.freePages]
      omega
    refine ⟨ht.totalPages, congrArg (· + _) ht.usedPages,
      iff_of_true hpages (hquiet ?_)⟩
    rw [splitSource, if_pos (.inr (by rw [hexact]; rfl))]
  · obtain ⟨hlt, ht⟩ := takeLowestSuitableBlock_takenFrom hlarger
    have hcut := splitBlock_some (Nat.le_of_lt hlt) hc
    obtain ⟨hused, htotal⟩ := counts_pushAll b (cutBlocks block larger larger.isLt _)
    -- the target list is empty, so the last two right parts find room in list 0
    have hfirst : findFibIndex (pagesFor size) = 0 →
        (b.freeLists 0).items.length + min larger.val 2 ≤ maxBlocksPerList := by
      intro h0
      rw [ht.others 0 (by rw [← h0]; exact (Fin.ne_of_lt hlt)), ← h0,
        items_of_takeLowestBlock_none hexact]
      simp [maxBlocksPerList]
    obtain ⟨hle, heq⟩ := freePages_pushAll b (cutBlocks block larger larger.isLt _)
    have hsum := sum_cutBlocks block larger.isLt (Nat.le_of_lt hlt)
    rw [accepts_cutBlocks_iff larger.isLt (Nat.le_of_lt hlt) fun h0 => hfirst (Fin.ext h0)] at heq
    rw [hcut] at hused htotal hle heq
    simp only [Fin.eta] at hsum
    have hroom : b.RoomToSplit (findFibIndex (pagesFor size)) larger ↔
        a.RoomToAllocate size := by
      have hsource : a.splitSource size = some larger := by simp [splitSource, hz, hexact, hlarger]
      rw [RoomToAllocate, hsource]
      simp only [mem_some_iff, forall_eq']
      refine forall_congr' fun i => imp_congr_right fun _ => forall_congr' fun hi => ?_
      rw [HasRoom, HasRoom, ht.others i (by simp [Fin.ext_iff]; omega)]
    have hfree := ht.freePages
    have hused' : (c.addUsed (fib (findFibIndex (pagesFor size)))).usedPages =
        a.usedPages + fib (findFibIndex (pagesFor size)) :=
      congrArg (· + _) (hused.trans ht.usedPages)
    have hnamed : (c.addUsed (fib (findFibIndex (pagesFor size)))).namedPages =
        a.usedPages + fib (findFibIndex (pagesFor size)) + c.freePages := by
      rw [namedPages, hused']
      rfl
    refine ⟨htotal.trans ht.totalPages, hused', ?_⟩
    rw [hnamed, namedPages, ← hroom, ← heq]
    omega

theorem deallocate_pages [PhysAddr] (hz : size ≠ 0)
    (hn : ¬ a.MergesBuddy addr (findFibIndex (pagesFor size)))
    (hused : fib (findFibIndex (pagesFor size)) ≤ a.usedPages)
    (hd : a.deallocate addr size = some a') :
    a'.totalPages = a.totalPages ∧
      a'.usedPages + fib (findFibIndex (pagesFor size)) = a.usedPages ∧
      (a'.namedPages = a.namedPages ↔ a.HasRoom (findFibIndex (pagesFor size))) := by
  obtain rfl := deallocate_eq hz hn hd
  generalize findFibIndex (pagesFor size) = idx at hused ⊢
  have hsub := Nat.sub_add_cancel hused
  have hpush := freePages_push a idx addr
  have hpos := fib_pos idx
  refine ⟨rfl, hsub, ?_⟩
  have hnamed : ((a.push idx addr).subUsed (fib idx)).namedPages =
      a.usedPages - fib idx + (a.push idx addr).freePages := rfl
  rw [hnamed, namedPages]
  split_ifs at hpush with hroom
  · exact iff_of_true (by omega) hroom
  · exact iff_of_false (by omega) hroom

theorem sum_fillBlocks (hfuel : remaining ≤ fuel) (current : ℕ) :
    ((fillBlocks fuel remaining current).map (fib ·.1)).sum = remaining := by
  fun_induction fillBlocks fuel remaining current with
  | case1 remaining =>
    obtain rfl : remaining = 0 := by omega
    rfl
  | case2 => rfl
  | case3 fuel remaining current hzero idx ih =>
    have hfit : fib idx ≤ remaining := (findFibIndexFloor_spec (Nat.pos_of_ne_zero hzero)).1
    have hpos := fib_pos idx
    rw [map_cons, sum_cons, ih (by omega)]
    exact Nat.add_sub_cancel' hfit

/-- The greedy blocks: the largest ones that fit, and at most one of each smaller size. -/
theorem count_fillBlocks (hfuel : remaining ≤ fuel) (current : ℕ) :
    ((fillBlocks fuel remaining current).map fst).count 31 = remaining / fib 31 ∧
      ∀ j < 31, ((fillBlocks fuel remaining current).map fst).count j ≤
        if fib j ≤ remaining then 1 else 0 := by
  fun_induction fillBlocks fuel remaining current with
  | case1 remaining =>
    obtain rfl : remaining = 0 := by omega
    simp
  | case2 => simp
  | case3 fuel remaining current hzero idx ih =>
    obtain ⟨hfit, hnext⟩ : fib idx ≤ remaining ∧ ∀ j, idx < j → remaining < fib j :=
      findFibIndexFloor_spec (Nat.pos_of_ne_zero hzero)
    have hpos := fib_pos idx
    clear_value idx
    obtain ⟨rest, rfl⟩ := Nat.exists_eq_add_of_le hfit
    rw [Nat.add_sub_cancel_left] at ih ⊢
    obtain ⟨hlast, hsmall⟩ := ih (by omega)
    simp only [map_cons, count_cons, beq_iff_eq, hlast]
    by_cases hbig : idx = 31
    · subst hbig
      refine ⟨by rw [if_pos rfl, Nat.add_div_left _ hpos], fun j hj => ?_⟩
      have hj' := hsmall j hj
      split_ifs at hj' ⊢ <;> omega
    · -- the rest is below a smaller block, so its list gets no other
      have hlt : idx < 31 := by omega
      have hbelow := hnext 31 hlt
      have hup := hnext ⟨idx + 1, by omega⟩ (Nat.lt_succ_self _)
      have hdouble := fib_succ_le idx (by omega)
      rw [if_neg hbig, Nat.div_eq_of_lt hbelow, Nat.div_eq_of_lt (by omega)]
      refine ⟨rfl, fun j hj => ?_⟩
      have hj' := hsmall j hj
      by_cases hsame : idx = j
      · subst hsame
        rw [if_neg (by omega)] at hj'
        rw [if_pos rfl, if_pos (by omega)]
        omega
      · rw [if_neg hsame]
        split_ifs at hj' ⊢ <;> omega

/-- A new allocator lists all its pages exactly when the last list holds the largest
blocks of the region. -/
theorem new_pages [PhysAddr] {base : ℕ} (h : new base size = some a) :
    a.totalPages = size / pageSize ∧ a.usedPages = 0 ∧
      (a.freePages = size / pageSize ↔
        size / pageSize < (maxBlocksPerList + 1) * fib 31) := by
  obtain rfl := new_eq h
  have hempty : freePages ⟨fun _ => .empty, size / pageSize, 0, base⟩ = 0 := by
    simp [freePages, FixedBlockList.empty]
  obtain ⟨hused, htotal⟩ := counts_pushAll ⟨fun _ => .empty, size / pageSize, 0, base⟩
    (fillBlocks (size / pageSize) (size / pageSize) base)
  have hpages := (freePages_pushAll ⟨fun _ => .empty, size / pageSize, 0, base⟩
    (fillBlocks (size / pageSize) (size / pageSize) base)).2
  obtain ⟨hbig, hsmall⟩ := count_fillBlocks (Nat.le_refl (size / pageSize)) base
  rw [hempty, sum_fillBlocks (Nat.le_refl _), Nat.zero_add] at hpages
  refine ⟨htotal, hused, hpages.trans ?_⟩
  rw [← Nat.div_lt_iff_lt_mul (fib_pos 31), ← hbig, Nat.lt_succ_iff]
  constructor
  · intro h
    exact (Nat.zero_add _).symm.trans_le (h 31)
  · intro h j
    refine (Nat.zero_add _).trans_le ?_
    by_cases hj : j = 31
    · rwa [hj]
    · have hone := hsmall j (by omega)
      have hle : (if fib j ≤ size / pageSize then 1 else 0) ≤ 1 := by split_ifs <;> omega
      exact hone.trans (hle.trans (by decide))

end FibonacciBuddyAllocator

namespace BuddySystem

def livePages (block : ℕ × ℕ) : ℕ := fib (findFibIndex (pagesFor block.2))

/-- The used pages are those of the live blocks, none of which was asked for with no bytes. -/
structure Accounted (s : BuddySystem) : Prop where
  used : s.allocator.usedPages = (s.live.map livePages).sum
  sizes : ∀ block ∈ s.live, block.2 ≠ 0

/-- Every block that the operation puts in a free list finds room there. -/
def FindsRoom : Option BuddySystem → Op → Prop
  | some s, .allocate size => s.allocator.RoomToAllocate size
  | some s, .deallocate _ size => s.allocator.HasRoom (findFibIndex (pagesFor size))
  | none, _ => True

instance : ∀ s op, Decidable (FindsRoom s op)
  | some s, .allocate size => inferInstanceAs (Decidable (s.allocator.RoomToAllocate size))
  | some s, .deallocate _ size =>
    inferInstanceAs (Decidable (s.allocator.HasRoom (findFibIndex (pagesFor size))))
  | none, _ => inferInstanceAs (Decidable True)

/-- Used and listed pages add up to the pages of the region. -/
def Conserved (s : Option BuddySystem) : Prop :=
  ∀ t, s = some t → t.allocator.usedPages + t.allocator.freePages = t.allocator.totalPages

instance : DecidablePred Conserved
  | none => isTrue fun _ h => nomatch h
  | some t => decidable_of_iff
    (t.allocator.usedPages + t.allocator.freePages = t.allocator.totalPages)
    ⟨fun h _ ht => some.inj ht ▸ h, fun h => h t rfl⟩

theorem step?_pages [PhysAddr] {s t : BuddySystem} {op : Op} (hs : Accounted s)
    (hlive : ReturnsLive (some s) op) (hbuddy : FindsNoBuddy (some s) op)
    (h : s.step? op = some t) :
    Accounted t ∧ t.allocator.totalPages = s.allocator.totalPages ∧
      (t.allocator.namedPages = s.allocator.namedPages ↔ FindsRoom (some s) op) := by
  cases op with
  | allocate size =>
    simp only [step?, Option.bind_eq_bind, Option.bind_eq_some_iff, Option.pure_def,
      some.injEq, Prod.exists] at h
    obtain ⟨r, a, ha, rfl⟩ := h
    obtain ⟨htotal, hused, hnamed⟩ := allocate_pages ha
    refine ⟨?_, htotal, hnamed⟩
    cases r with
    | none => exact ⟨hused.trans hs.used, hs.sizes⟩
    | some addr =>
      refine ⟨?_, ?_⟩
      · simp [hused, hs.used, livePages, Nat.add_comm]
      · intro block hblock
        rcases mem_cons.mp hblock with rfl | hold
        · rintro rfl
          cases ha
        · exact hs.sizes block hold
  | deallocate addr size =>
    simp only [step?, Option.bind_eq_bind, Option.bind_eq_some_iff, Option.pure_def,
      some.injEq] at h
    obtain ⟨a, ha, rfl⟩ := h
    have hsum : (s.live.map livePages).sum =
        livePages (addr, size) + ((s.live.erase (addr, size)).map livePages).sum := by
      simpa using ((perm_cons_erase hlive).map livePages).sum_eq
    have hle : livePages (addr, size) ≤ s.allocator.usedPages := by
      rw [hs.used, hsum]
      exact Nat.le_add_right _ _
    obtain ⟨htotal, hused, hnamed⟩ :=
      deallocate_pages (hs.sizes _ hlive) hbuddy hle ha
    refine ⟨⟨?_, fun b hb => hs.sizes b (mem_of_mem_erase hb)⟩, htotal, hnamed⟩
    have hrest : a.usedPages + livePages (addr, size) = s.allocator.usedPages := hused
    rw [hs.used] at hrest
    dsimp only
    omega

theorem exec_none [PhysAddr] (ops : List Op) : exec step none ops = none :=
  exec_invariant (I := (· = none)) (fun _ _ h => by rw [h]; rfl) rfl ops

/-- From a state that names all its pages, a run that merges no returned block does so in
every state exactly when all its steps find room. -/
theorem conserved_along_iff [PhysAddr] {s : BuddySystem} {ops : List Op} (hs : Accounted s)
    (hstart : s.allocator.namedPages = s.allocator.totalPages)
    (hlive : Along step ReturnsLive (some s) ops) (hbuddy : Along step FindsNoBuddy (some s) ops)
    (hrun : (exec step (some s) ops).isSome) :
    (∀ l, l <+: ops → Conserved (exec step (some s) l)) ↔
      Along step FindsRoom (some s) ops := by
  induction ops generalizing s with
  | nil =>
    refine iff_of_true ?_ trivial
    intro l hl t ht
    obtain rfl := prefix_nil.mp hl
    obtain rfl : s = t := some.inj ht
    exact hstart
  | cons op ops ih =>
    obtain ⟨t, ht⟩ : ∃ t, s.step? op = some t := by
      cases h : s.step? op with
      | some t => exact ⟨t, rfl⟩
      | none =>
        have hnone : step (some s) op = none := h
        rw [exec_cons, hnone, exec_none] at hrun
        cases hrun
    have hstep : step (some s) op = some t := ht
    rw [along_cons, hstep] at hlive hbuddy ⊢
    rw [exec_cons, hstep] at hrun
    obtain ⟨haccounted, htotal, hroom⟩ := step?_pages hs hlive.1 hbuddy.1 ht
    -- the state after one step decides whether the first step found room
    have hfirst : t.allocator.namedPages = t.allocator.totalPages ↔ FindsRoom (some s) op := by
      rw [htotal, ← hstart, hroom]
    constructor
    · intro h
      have hnow := h [op] (by simp) t (by rw [exec_cons, hstep, exec_nil])
      refine ⟨hfirst.mp hnow, (ih haccounted hnow hlive.2 hbuddy.2 hrun).mp ?_⟩
      intro l hl
      have := h (op :: l) (by simpa using hl)
      rwa [exec_cons, hstep] at this
    · rintro ⟨hop, hrest⟩ l hl
      have hafter := (ih haccounted (hfirst.mpr hop) hlive.2 hbuddy.2 hrun).mpr hrest
      rcases prefix_cons_iff.mp hl with rfl | ⟨rest, rfl, hpre⟩
      · intro u hu
        obtain rfl : s = u := some.inj hu
        exact hstart
      · rw [exec_cons, hstep]
        exact hafter rest hpre

/-- An allocator's run that returns only live blocks, never finds a buddy and does not
panic accounts for every page in every state exactly when the new allocator had room for
the region and every step finds room for the blocks it lists. -/
theorem pages_conserved_iff [PhysAddr] (base size : ℕ) (ops : List Op) {a : FibonacciBuddyAllocator}
    (hnew : new base size = some a) (hlive : Along step ReturnsLive (some ⟨a, []⟩) ops)
    (hbuddy : Along step FindsNoBuddy (some ⟨a, []⟩) ops)
    (hrun : (exec step (some ⟨a, []⟩) ops).isSome) :
    (∀ l, l <+: ops → Conserved (exec step (some ⟨a, []⟩) l)) ↔
      size / pageSize < (maxBlocksPerList + 1) * fib 31 ∧
        Along step FindsRoom (some ⟨a, []⟩) ops := by
  obtain ⟨htotal, hused, hfree⟩ := new_pages hnew
  have hstart : a.namedPages = a.totalPages ↔
      size / pageSize < (maxBlocksPerList + 1) * fib 31 := by
    rw [namedPages, hused, Nat.zero_add, htotal, hfree]
  have haccounted : Accounted ⟨a, []⟩ := ⟨hused, fun _ h => nomatch h⟩
  constructor
  · intro h
    have hnow := h [] nil_prefix ⟨a, []⟩ rfl
    exact ⟨hstart.mp hnow, (conserved_along_iff haccounted hnow hlive hbuddy hrun).mp h⟩
  · rintro ⟨hfits, hroom⟩
    exact (conserved_along_iff haccounted (hstart.mpr hfits) hlive hbuddy hrun).mpr hroom

/-- Eight pages at 1 MiB: two pages and five pages are taken and the two are returned. -/
theorem pages_conserved_eight_pages :
    Conserved (exec step
      (some ⟨(new 0x100000 0x8000).get (by decide +kernel), []⟩)
      [.allocate 0x2000, .allocate 0x5000, .deallocate 0x100000 0x2000]) :=
  (pages_conserved_iff 0x100000 0x8000 _ (some_get _).symm (by decide +kernel)
    (by decide +kernel) (by decide +kernel)).mpr ⟨by decide +kernel, by decide +kernel⟩ _
      (prefix_refl _)

/-- Two single pages of a two-page region returned one after the other: the merged block
is listed and one of its halves stays listed, three pages in all. -/
theorem pages_invented_by_merge :
    Along step ReturnsLive (start 0 0x2000)
      [.allocate 0x1000, .allocate 0x1000, .deallocate 0 0x1000, .deallocate 0x1000 0x1000] ∧
    ¬ Conserved (exec step (start 0 0x2000)
      [.allocate 0x1000, .allocate 0x1000, .deallocate 0 0x1000, .deallocate 0x1000 0x1000]) := by
  decide +kernel

end BuddySystem

end EchOS.Memory
