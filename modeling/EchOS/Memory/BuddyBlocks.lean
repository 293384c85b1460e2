import Mathlib.Data.List.TakeWhile
import Mathlib.Order.Fin.Basic
import EchOS.Lib.Span
import EchOS.Memory.FibonacciBuddy

/-! The page ranges of the free lists, and the blocks that a new allocator lists and that splitting
cuts off: as lists of pushes, they tile the region and the block they come from. -/
namespace EchOS.Memory

open List

def blockSpan (i : Fin 32) (addr : ℕ) : Span := ⟨addr, fib i * pageSize⟩

namespace FixedBlockList

variable {l : FixedBlockList} {addr : ℕ}

theorem push_items_of_lt
    (h : l.items.length < maxBlocksPerList) : (l.push addr).items = l.items ++ [addr] := by
  rw [push, dif_pos h]

theorem push_of_not_lt (h : ¬ l.items.length < maxBlocksPerList) : l.push addr = l := by
  rw [push, dif_neg h]

end FixedBlockList

private theorem fib_add_fin :
    ∀ j : Fin 30, fib ⟨j + 2, by omega⟩ = fib ⟨j + 1, by omega⟩ + fib ⟨j, by omega⟩ := by
  decide

theorem fib_add (i : ℕ) (h : i + 2 < 32) :
    fib ⟨i + 2, h⟩ = fib ⟨i + 1, succ_lt_lists h⟩ + fib ⟨i, lt_lists h⟩ :=
  fib_add_fin ⟨i, by omega⟩

theorem fib_pos (i : Fin 32) : 0 < fib i := by
  revert i
  decide

theorem fib_strictMono : StrictMono fib := by
  intro i j hij
  revert i j
  decide

theorem findFibIndexFloor_spec {pages : ℕ} (hpos : 0 < pages) :
    fib (findFibIndexFloor pages) ≤ pages ∧ ∀ i, findFibIndexFloor pages < i → pages < fib i := by
  -- every index that fits is taken with all below it, so the last one taken is no smaller
  have hfloor : ∀ i, fib i ≤ pages →
      fib (findFibIndexFloor pages) ≤ pages ∧ i ≤ findFibIndexFloor pages := by
    intro i hi
    obtain ⟨before, after, hlist⟩ := append_of_mem (mem_finRange i)
    have hsorted := pairwise_lt_finRange 32
    rw [hlist, pairwise_append, pairwise_cons] at hsorted
    obtain ⟨-, ⟨hafter, -⟩, hbefore⟩ := hsorted
    have hbelow : ∀ j ∈ before, decide (fib j ≤ pages) = true := by
      intro j hj
      have hlt := hbefore j hj i mem_cons_self
      exact decide_eq_true ((fib_strictMono.monotone hlt.le).trans hi)
    have heq : findFibIndexFloor pages =
        (after.takeWhile fun j => decide (fib j ≤ pages)).getLastD i := by
      rw [findFibIndexFloor, hlist, takeWhile_append_of_pos hbelow]
      simp [hi, List.getLast?_cons]
    rw [heq]
    rcases mem_cons.mp getLastD_mem_cons with hsame | hmem
    · rw [hsame]
      exact ⟨hi, le_rfl⟩
    · have hfits := mem_takeWhile_imp hmem
      have hin := (takeWhile_sublist _).subset hmem
      exact ⟨of_decide_eq_true hfits, (hafter _ hin).le⟩
  refine ⟨(hfloor 0 hpos).1, fun i hi => ?_⟩
  by_contra hfits
  exact absurd (hfloor i (Nat.not_lt.mp hfits)).2 (Fin.not_le.mpr hi)

namespace FibonacciBuddyAllocator

def listSpans (a : FibonacciBuddyAllocator) (i : Fin 32) : List Span :=
  (a.freeLists i).items.map (blockSpan i)

def freeSpans (a : FibonacciBuddyAllocator) : List Span :=
  (List.finRange 32).flatMap a.listSpans

private def otherSpans (a : FibonacciBuddyAllocator) (i : Fin 32) : List Span :=
  ((List.finRange 32).erase i).flatMap a.listSpans

section

variable (a : FibonacciBuddyAllocator) (i : Fin 32) (l : FixedBlockList)
include a i

private theorem freeSpans_perm : a.freeSpans.Perm (a.listSpans i ++ a.otherSpans i) := by
  have hp := perm_cons_erase (mem_finRange i)
  simpa [freeSpans, otherSpans] using hp.flatMap_right a.listSpans

private theorem otherSpans_setList : (a.setList i l).otherSpans i = a.otherSpans i := by
  refine flatMap_congr fun j hj => ?_
  have hne : j ≠ i := ((nodup_finRange 32).mem_erase_iff.mp hj).1
  simp [listSpans, setList, hne]

private theorem freeSpans_setList_perm :
    (a.setList i l).freeSpans.Perm (l.items.map (blockSpan i) ++ a.otherSpans i) := by
  have h := freeSpans_perm (a.setList i l) i
  rw [otherSpans_setList] at h
  simpa [listSpans, setList] using h

end

variable {a a' : FibonacciBuddyAllocator} {i : Fin 32} {addr : ℕ}

theorem freeSpans_push_of_lt (hroom : (a.freeLists i).items.length < maxBlocksPerList) (addr : ℕ) :
    (a.push i addr).freeSpans.Perm (blockSpan i addr :: a.freeSpans) := by
  have h : (a.push i addr).freeSpans.Perm _ := freeSpans_setList_perm a i _
  rw [FixedBlockList.push_items_of_lt hroom, map_append, map_singleton,
    append_assoc] at h
  exact h.trans (perm_middle.trans ((freeSpans_perm a i).symm.cons _))

theorem freeSpans_push (a : FibonacciBuddyAllocator) (i : Fin 32) (addr : ℕ) :
    (a.push i addr).freeSpans.Subperm (blockSpan i addr :: a.freeSpans) := by
  by_cases hroom : (a.freeLists i).items.length < maxBlocksPerList
  · exact (freeSpans_push_of_lt hroom addr).subperm
  · have h : (a.push i addr).freeSpans.Perm _ := freeSpans_setList_perm a i _
    rw [FixedBlockList.push_of_not_lt hroom] at h
    exact (h.trans (freeSpans_perm a i).symm).subperm.trans (sublist_cons_self _ _).subperm

theorem freeSpans_removeAt (a : FibonacciBuddyAllocator) (i : Fin 32) {p : ℕ}
    (hp : p < (a.freeLists i).items.length) :
    a.freeSpans.Perm
      (blockSpan i ((a.freeLists i).items.getD p 0) :: (a.removeAt i p).freeSpans) := by
  have hset : (a.removeAt i p).freeSpans.Perm _ := freeSpans_setList_perm a i _
  have hitems := (SwapRemove.perm_swapRemove hp).map (blockSpan i)
  have hget : (a.freeLists i).items.getD p 0 = (a.freeLists i).items[p] := by
    simp [List.getD, hp]
  rw [hget]
  exact (freeSpans_perm a i).trans ((hitems.append_right _).trans (hset.symm.cons _))

def HasRoom (a : FibonacciBuddyAllocator) (i : Fin 32) : Prop :=
  (a.freeLists i).items.length < maxBlocksPerList

instance (a : FibonacciBuddyAllocator) (i : Fin 32) : Decidable (a.HasRoom i) :=
  inferInstanceAs (Decidable (_ < _))

theorem freeLists_push_of_ne {i j : Fin 32} (h : j ≠ i) :
    (a.push i addr).freeLists j = a.freeLists j := by
  simp [push, setList, h]

theorem length_push (a : FibonacciBuddyAllocator) (i : Fin 32) (addr : ℕ) :
    ((a.push i addr).freeLists i).items.length =
      (a.freeLists i).items.length + if a.HasRoom i then 1 else 0 := by
  by_cases hroom : a.HasRoom i
  · simp [push, setList, FixedBlockList.push_items_of_lt hroom, hroom]
  · simp [push, setList, FixedBlockList.push_of_not_lt hroom, hroom]

/-- The lists and the addresses that the filling loop pushes. -/
def fillBlocks : (fuel remaining current : ℕ) → List (Fin 32 × ℕ)
  | 0, _, _ => []
  | fuel + 1, remaining, current =>
    if remaining = 0 then []
    else
      let idx := findFibIndexFloor remaining
      (idx, current) :: fillBlocks fuel (remaining - fib idx) (current + fib idx * pageSize)

/-- The lists and the addresses that splitting a block of list `i` pushes. -/
def cutBlocks (block : ℕ) : (i : ℕ) → i < 32 → (target : ℕ) → List (Fin 32 × ℕ)
  | 0, _, _ => []
  | 1, _, target => if target = 0 then [(0, block + pageSize)] else []
  | i + 2, h, target =>
    if target < i + 2 then
      (⟨i, lt_lists h⟩, block + fib ⟨i + 1, succ_lt_lists h⟩ * pageSize) ::
        cutBlocks block (i + 1) (succ_lt_lists h) target
    else []

def pushAll (a : FibonacciBuddyAllocator) (pushes : List (Fin 32 × ℕ)) : FibonacciBuddyAllocator :=
  pushes.foldl (fun a p => a.push p.1 p.2) a

def pushSpans (pushes : List (Fin 32 × ℕ)) : List Span := pushes.map fun p => blockSpan p.1 p.2

/-- No list needs more entries for the pushes than it has. -/
def Accepts (a : FibonacciBuddyAllocator) (pushes : List (Fin 32 × ℕ)) : Prop :=
  ∀ i, (a.freeLists i).items.length + (pushes.map Prod.fst).count i ≤ maxBlocksPerList

instance (a : FibonacciBuddyAllocator) (pushes : List (Fin 32 × ℕ)) :
    Decidable (a.Accepts pushes) := inferInstanceAs (Decidable (∀ _, _))

section Push

variable {a : FibonacciBuddyAllocator} {pushes : List (Fin 32 × ℕ)}

theorem accepts_cons {p : Fin 32 × ℕ} :
    a.Accepts (p :: pushes) ↔ a.HasRoom p.1 ∧ (a.push p.1 p.2).Accepts pushes := by
  have hsum (hroom : a.HasRoom p.1) (i : Fin 32) :
      ((a.push p.1 p.2).freeLists i).items.length + (pushes.map Prod.fst).count i =
        (a.freeLists i).items.length + ((p :: pushes).map Prod.fst).count i := by
    rw [map_cons, count_cons]
    by_cases heq : p.1 = i
    · subst heq
      rw [length_push, if_pos hroom, if_pos (beq_self_eq_true _)]
      omega
    · rw [freeLists_push_of_ne (Ne.symm heq), if_neg (by simpa using heq), Nat.add_zero]
  constructor
  · intro h
    have hroom : a.HasRoom p.1 := by
      have hp := h p.1
      rw [map_cons, count_cons_self] at hp
      unfold HasRoom
      omega
    exact ⟨hroom, fun i => (hsum hroom i).trans_le (h i)⟩
  · rintro ⟨hroom, h⟩ i
    exact (hsum hroom i).symm.trans_le (h i)

theorem freeSpans_pushAll (a : FibonacciBuddyAllocator) (pushes : List (Fin 32 × ℕ)) :
    (a.pushAll pushes).freeSpans.Subperm (pushSpans pushes ++ a.freeSpans) := by
  induction pushes generalizing a with
  | nil => exact Subperm.refl _
  | cons p pushes ih =>
    refine (ih (a.push p.1 p.2)).trans ?_
    refine ((subperm_append_left _).mpr (freeSpans_push a p.1 p.2)).trans ?_
    exact perm_middle.subperm

theorem Accepts.perm_pushAll (h : a.Accepts pushes) :
    (a.pushAll pushes).freeSpans.Perm (pushSpans pushes ++ a.freeSpans) := by
  induction pushes generalizing a with
  | nil => exact List.Perm.refl _
  | cons p pushes ih =>
    obtain ⟨hroom, hrest⟩ := accepts_cons.mp h
    have hpush := freeSpans_push_of_lt hroom p.2
    exact (ih hrest).trans ((hpush.append_left _).trans perm_middle)

end Push

section New

variable {fuel remaining : ℕ} {base size : ℕ}

/-- The filling loop panics exactly if the address behind its last block has more than 52
bits, and pushes its blocks otherwise. -/
theorem fill_eq [PhysAddr] (a : FibonacciBuddyAllocator) (hfuel : remaining ≤ fuel) (current : ℕ) :
    a.fill fuel remaining current =
      if remaining = 0 ∨ current + remaining * pageSize < 2 ^ 52 then
        some (a.pushAll (fillBlocks fuel remaining current))
      else none := by
  induction fuel generalizing a remaining current with
  | zero =>
    have hzero : remaining = 0 := by omega
    rw [if_pos (.inl hzero)]
    rfl
  | succ fuel ih =>
    rw [fill, fillBlocks]
    by_cases hzero : remaining = 0
    · rw [if_pos hzero, if_pos hzero, if_pos (.inl hzero)]
      rfl
    · have hfit := (findFibIndexFloor_spec (Nat.pos_of_ne_zero hzero)).1
      have hpos := fib_pos (findFibIndexFloor remaining)
      have hsum : fib (findFibIndexFloor remaining) * pageSize +
          (remaining - fib (findFibIndexFloor remaining)) * pageSize = remaining * pageSize := by
        rw [← Nat.add_mul, Nat.add_sub_cancel' hfit]
      rw [if_neg hzero, if_neg hzero]
      dsimp only
      generalize findFibIndexFloor remaining = idx at hfit hpos hsum ⊢
      have hrest := ih (a.push idx current) (by omega : remaining - fib idx ≤ fuel)
        (current + fib idx * pageSize)
      by_cases hnext : current + fib idx * pageSize < 2 ^ 52
      · rw [PhysAddr.new_eq, if_pos hnext]
        refine hrest.trans ?_
        congr 1
        rw [eq_iff_iff]
        constructor
        · rintro (hlast | hlt)
          · rw [hlast] at hsum
            omega
          · omega
        · rintro (hlast | hlt)
          · exact absurd hlast hzero
          · exact .inr (by omega)
      · rw [PhysAddr.new_eq, if_neg hnext, if_neg (by omega)]
        rfl

theorem tiles_fillBlocks (hfuel : remaining ≤ fuel) (current : ℕ) :
    Span.Tiles (pushSpans (fillBlocks fuel remaining current)) ⟨current, remaining * pageSize⟩ := by
  fun_induction fillBlocks fuel remaining current with
  | case1 remaining current =>
    obtain rfl : remaining = 0 := by omega
    exact Span.tiles_nil current
  | case2 fuel current => exact Span.tiles_nil current
  | case3 fuel remaining current hzero idx ih =>
    have hfit : fib idx ≤ remaining := (findFibIndexFloor_spec (Nat.pos_of_ne_zero hzero)).1
    have hpos := fib_pos idx
    have htiles := (Span.tiles_singleton (blockSpan idx current)).append (ih (by omega))
    rwa [← Nat.add_mul, Nat.add_sub_cancel' hfit] at htiles

theorem new_eq [PhysAddr] (h : new base size = some a) :
    pushAll ⟨fun _ => .empty, size / pageSize, 0, base⟩
      (fillBlocks (size / pageSize) (size / pageSize) base) = a := by
  rw [new, fill_eq _ (Nat.le_refl _)] at h
  split_ifs at h
  exact Option.some.inj h

theorem freeSpans_empty (total base : ℕ) : freeSpans ⟨fun _ => .empty, total, 0, base⟩ = [] := by
  simp [freeSpans, listSpans, FixedBlockList.empty]

theorem freeSpans_new [PhysAddr] (h : new base size = some a) :
    a.freeSpans.Subperm (pushSpans (fillBlocks (size / pageSize) (size / pageSize) base)) := by
  have hspans := freeSpans_pushAll ⟨fun _ => .empty, size / pageSize, 0, base⟩
    (fillBlocks (size / pageSize) (size / pageSize) base)
  rwa [new_eq h, freeSpans_empty, append_nil] at hspans

end New

section Split

theorem splitBlock_self [PhysAddr] (a : FibonacciBuddyAllocator) (block : ℕ) {i : ℕ} (hi : i < 32) :
    a.splitBlock block i hi i = some a := by
  match i with
  | 0 => rfl
  | 1 => rw [splitBlock, if_neg Nat.one_ne_zero]
  | i + 2 => rw [splitBlock, if_neg (Nat.lt_irrefl _)]

variable (block : ℕ)

theorem cutBlocks_self {i : ℕ} (hi : i < 32) : cutBlocks block i hi i = [] := by
  match i with
  | 0 => rfl
  | 1 => rw [cutBlocks, if_neg Nat.one_ne_zero]
  | i + 2 => rw [cutBlocks, if_neg (Nat.lt_irrefl _)]

variable {target : ℕ}

/-- Splitting panics exactly if the first right part, which is the highest, has an address of
more than 52 bits. -/
theorem splitBlock_eq [PhysAddr] (a : FibonacciBuddyAllocator) (block : ℕ) {i : ℕ} (hi : i + 1 < 32)
    (ht : target < i + 1) :
    a.splitBlock block (i + 1) hi target =
      if block + fib ⟨i, by omega⟩ * pageSize < 2 ^ 52 then
        some (a.pushAll (cutBlocks block (i + 1) hi target))
      else none := by
  induction i generalizing a with
  | zero =>
    obtain rfl : target = 0 := by omega
    have hone : fib ⟨0, by omega⟩ * pageSize = pageSize := by decide
    rw [splitBlock, if_pos rfl, hone, PhysAddr.new_eq]
    split_ifs
    · rfl
    · rfl
  | succ i ih =>
    have hle : fib ⟨i, by omega⟩ ≤ fib ⟨i + 1, by omega⟩ :=
      fib_strictMono.monotone (Fin.mk_le_mk.mpr (Nat.le_succ i))
    rw [splitBlock, if_pos ht, PhysAddr.new_eq, cutBlocks, if_pos ht]
    by_cases hright : block + fib ⟨i + 1, by omega⟩ * pageSize < 2 ^ 52
    · rw [if_pos hright, if_pos hright]
      change (a.push _ _).splitBlock block (i + 1) _ target = _
      by_cases hlast : target = i + 1
      · subst hlast
        rw [splitBlock_self, cutBlocks_self]
        rfl
      · have hbelow :=
          Nat.lt_of_le_of_lt (Nat.add_le_add_left (Nat.mul_le_mul_right _ hle) _) hright
        rw [ih _ (by omega) (by omega), if_pos hbelow]
        rfl
    · rw [if_neg hright, if_neg hright]
      rfl

theorem splitBlock_some [PhysAddr] {block k : ℕ} {hk : k < 32} (ht : target ≤ k)
    (h : a.splitBlock block k hk target = some a') :
    a.pushAll (cutBlocks block k hk target) = a' := by
  rcases Nat.lt_or_eq_of_le ht with hlt | rfl
  · obtain ⟨j, rfl⟩ : ∃ j, k = j + 1 := Nat.exists_eq_succ_of_ne_zero (Nat.ne_zero_of_lt hlt)
    rw [splitBlock_eq a block hk hlt] at h
    split_ifs at h
    exact Option.some.inj h
  · rw [splitBlock_self] at h
    rw [cutBlocks_self]
    exact Option.some.inj h

theorem target_lt_lists {i : ℕ} (hi : i < 32) (ht : target ≤ i) : target < 32 := by omega

theorem tiles_cutBlocks {i : ℕ} (hi : i < 32) (ht : target ≤ i) :
    Span.Tiles (blockSpan ⟨target, target_lt_lists hi ht⟩ block ::
      pushSpans (cutBlocks block i hi target))
      (blockSpan ⟨i, hi⟩ block) := by
  induction i with
  | zero =>
    obtain rfl : target = 0 := by omega
    exact Span.tiles_singleton _
  | succ i ih =>
    by_cases hself : target = i + 1
    · subst hself
      rw [cutBlocks_self]
      exact Span.tiles_singleton _
    · cases i with
      | zero =>
        obtain rfl : target = 0 := by omega
        have hone : fib 0 * pageSize = pageSize := by decide
        have htwo : fib 0 + fib 0 = fib 1 := by decide
        have hpair := (Span.tiles_singleton (blockSpan 0 block)).append
          (Span.tiles_singleton (blockSpan 0 (block + fib 0 * pageSize)))
        rw [← Nat.add_mul] at hpair
        exact hpair
      | succ i =>
        -- the larger left part is cut again, the right part of this cut stays
        have hcut : Span.Tiles [blockSpan ⟨i + 1, by omega⟩ block,
            blockSpan ⟨i, by omega⟩ (block + fib ⟨i + 1, by omega⟩ * pageSize)]
            (blockSpan ⟨i + 2, hi⟩ block) := by
          have hpair := (Span.tiles_singleton (blockSpan ⟨i + 1, by omega⟩ block)).append
            (Span.tiles_singleton
              (blockSpan ⟨i, by omega⟩ (block + fib ⟨i + 1, by omega⟩ * pageSize)))
          rwa [← Nat.add_mul, ← fib_add i hi] at hpair
        have hrest := hcut.refine (ih (by omega) (by omega))
        rw [cutBlocks, if_pos (by omega)]
        refine hrest.perm ?_
        exact (perm_append_singleton _ _).cons _

end Split

end FibonacciBuddyAllocator

end EchOS.Memory
