import EchOS.Memory.BuddyBlocks

/-! Whether the blocks a new allocator lists tile its region, and the blocks that splitting leaves
the block they come from. -/
namespace EchOS.Memory

namespace FibonacciBuddyAllocator

/-- Entries that list `i` needs for the blocks of a new allocator. -/
def neededEntries (size : ℕ) (i : Fin 32) : ℕ :=
  ((fillBlocks (size / pageSize) (size / pageSize) 0).map Prod.fst).count i

theorem fst_fillBlocks (fuel remaining current current' : ℕ) :
    (fillBlocks fuel remaining current).map Prod.fst =
      (fillBlocks fuel remaining current').map Prod.fst := by
  induction fuel generalizing remaining current current' with
  | zero => rfl
  | succ fuel ih =>
    rw [fillBlocks, fillBlocks]
    split_ifs
    · rfl
    · rw [List.map_cons, List.map_cons, ih]

variable {a : FibonacciBuddyAllocator}

theorem new_tiles [PhysAddr] {base size : ℕ} (hneeds : ∀ i, neededEntries size i ≤ maxBlocksPerList)
    (h : new base size = some a) : Span.Tiles a.freeSpans ⟨base, size / pageSize * pageSize⟩ := by
  obtain rfl := new_eq h
  have haccepts : Accepts ⟨fun _ => .empty, size / pageSize, 0, base⟩
      (fillBlocks (size / pageSize) (size / pageSize) base) := by
    intro i
    rw [fst_fillBlocks _ _ base 0]
    exact (Nat.zero_add _).trans_le (hneeds i)
  have hperm := haccepts.perm_pushAll
  rw [freeSpans_empty, List.append_nil] at hperm
  exact (tiles_fillBlocks (Nat.le_refl _) base).perm hperm.symm

/-- What splitting gives: the address of the block, and right parts that tile the block
together with the part that is kept. -/
structure SplitExactly (a : FibonacciBuddyAllocator) (block : ℕ) (fromIdx toIdx : Fin 32)
    (result : ℕ × FibonacciBuddyAllocator) : Prop where
  returned : result.1 = block
  pushed : ∃ pushes, result.2 = a.pushAll pushes ∧
    result.2.freeSpans.Perm (pushSpans pushes ++ a.freeSpans) ∧
    Span.Tiles (blockSpan toIdx block :: pushSpans pushes) (blockSpan fromIdx block)

/-- The blocks of a new allocator tile its region, and splitting tiles the block it splits,
exactly if no address on the way needs more than 52 bits. A new allocator also computes the
address behind its last block. -/
theorem blocks_tile_iff [PhysAddr] (base size : ℕ) (a : FibonacciBuddyAllocator) (block : ℕ)
    (fromIdx toIdx : Fin 32) :
    (base < 2 ^ 52 → (∀ i, neededEntries size i ≤ maxBlocksPerList) →
      ((∃ a, new base size = some a ∧
          Span.Tiles a.freeSpans ⟨base, size / pageSize * pageSize⟩) ↔
        base + size / pageSize * pageSize < 2 ^ 52)) ∧
    (toIdx < fromIdx → a.Accepts (cutBlocks block fromIdx fromIdx.isLt toIdx) →
      ((∃ result, a.splitBlockAt block fromIdx toIdx = some result ∧
          SplitExactly a block fromIdx toIdx result) ↔
        block + fib ⟨fromIdx - 1, by omega⟩ * pageSize < 2 ^ 52)) := by
  constructor
  · intro hbase hneeds
    have hnew : new base size = _ := fill_eq _ (Nat.le_refl _) base
    constructor
    · rintro ⟨a, ha, -⟩
      rw [hnew] at ha
      split_ifs at ha with hok
      rcases hok with hzero | hlt
      · rw [hzero]
        exact hbase
      · exact hlt
    · intro hlt
      rw [if_pos (.inr hlt)] at hnew
      exact ⟨_, hnew, new_tiles hneeds hnew⟩
  · intro hlt hroom
    obtain ⟨i, hi⟩ := fromIdx
    obtain ⟨j, rfl⟩ : ∃ j, i = j + 1 := Nat.exists_eq_succ_of_ne_zero (Nat.ne_zero_of_lt hlt)
    have hsplit := splitBlock_eq a block hi hlt
    change _ ↔ block + fib ⟨j, by omega⟩ * pageSize < 2 ^ 52
    constructor
    · rintro ⟨result, hresult, -⟩
      by_contra hnot
      rw [if_neg hnot] at hsplit
      rw [splitBlockAt, hsplit] at hresult
      cases hresult
    · intro hok
      rw [if_pos hok] at hsplit
      refine ⟨(block, _), ?_, rfl, _, rfl, hroom.perm_pushAll,
        tiles_cutBlocks block hi (Nat.le_of_lt hlt)⟩
      rw [splitBlockAt, hsplit]
      rfl

theorem blocks_tile_iff_twelve_pages :
    (∃ a, new 0x1000 0xC000 = some a ∧ Span.Tiles a.freeSpans ⟨0x1000, 0xC000⟩) ∧
    ∃ result, splitBlockAt ⟨fun _ => .empty, 8, 0, 0x1000⟩ 0x1000 4 0 = some result ∧
      SplitExactly ⟨fun _ => .empty, 8, 0, 0x1000⟩ 0x1000 4 0 result := by
  have htiles := blocks_tile_iff 0x1000 0xC000 ⟨fun _ => .empty, 8, 0, 0x1000⟩ 0x1000 4 0
  exact ⟨(htiles.1 (by decide) (by decide +kernel)).mpr (by decide),
    (htiles.2 (by decide) (by decide +kernel)).mpr (by decide)⟩

/-- The last page below `2 ^ 52` needs one entry, and the allocator panics on the address
behind it. -/
theorem new_panics_on_last_page :
    (∀ i, neededEntries 0x1000 i ≤ maxBlocksPerList) ∧
      new (2 ^ 52 - 0x1000) 0x1000 = none := by
  decide +kernel

end FibonacciBuddyAllocator

end EchOS.Memory
