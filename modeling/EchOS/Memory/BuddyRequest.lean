import EchOS.Memory.BuddyPages

/-! Whether a block handed out for a request lies in the region of the allocator and holds
the bytes asked for. -/
namespace EchOS.Memory

open List Option

theorem le_block_of_le {size : ℕ} (h : size ≤ fib 31 * pageSize) :
    size ≤ fib (findFibIndex (pagesFor size)) * pageSize := by
  have hlast : fib 31 * pageSize = 14436671488 := rfl
  have hpages : pagesFor size ≤ fib 31 := by
    rw [pagesFor]
    simp only [pageSize] at hlast h ⊢
    omega
  have hfound : pagesFor size ≤ fib (findFibIndex (pagesFor size)) := by
    unfold findFibIndex
    cases hf : (List.finRange 32).find? fun i => decide (pagesFor size ≤ fib i) with
    | none => exact hpages
    | some i => simpa using List.find?_some hf
  have hround : size ≤ pagesFor size * pageSize := by
    rw [pagesFor]
    simp only [pageSize]
    omega
  exact Nat.le_trans hround (Nat.mul_le_mul_right _ hfound)

theorem fib_le_last (i : Fin 32) : fib i ≤ fib 31 := fib_strictMono.monotone (Fin.le_last i)

namespace FibonacciBuddyAllocator

def FreeWithin (a : FibonacciBuddyAllocator) (region : Span) : Prop :=
  ∀ r ∈ a.freeSpans, r.Within region

variable {a a' : FibonacciBuddyAllocator} {region : Span}

theorem FreeWithin.of_perm {r : Span} (h : a.FreeWithin region)
    (hp : a.freeSpans.Perm (r :: a'.freeSpans)) : r.Within region ∧ a'.FreeWithin region :=
  ⟨h r (hp.mem_iff.mpr mem_cons_self),
    fun s hs => h s (hp.mem_iff.mpr (mem_cons_of_mem _ hs))⟩

theorem splitBlock_within [PhysAddr] {block i target : ℕ} {hi : i < 32} (ht : target ≤ i)
    (hs : a.splitBlock block i hi target = some a')
    (hblock : (blockSpan ⟨i, hi⟩ block).Within region) (h : a.FreeWithin region) :
    (blockSpan ⟨target, target_lt_lists hi ht⟩ block).Within region ∧ a'.FreeWithin region := by
  obtain rfl := splitBlock_some ht hs
  have hparts : ∀ r ∈ blockSpan ⟨target, target_lt_lists hi ht⟩ block ::
      pushSpans (cutBlocks block i hi target),
      r.Within region :=
    fun r hr => ((tiles_cutBlocks block hi ht).within r hr).trans hblock
  refine ⟨hparts _ mem_cons_self, fun r hr => ?_⟩
  rcases mem_append.mp ((freeSpans_pushAll a _).subset hr) with hr | hr
  · exact hparts r (mem_cons_of_mem _ hr)
  · exact h r hr

theorem allocate_within [PhysAddr] {size : ℕ} {r : Option ℕ} (ha : a.allocate size = some (r, a'))
    (h : a.FreeWithin region) :
    a'.FreeWithin region ∧
      ∀ addr ∈ r, (blockSpan (findFibIndex (pagesFor size)) addr).Within region := by
  rcases allocate_cases ha with ⟨rfl, rfl, -⟩ | ⟨block, b, -, rfl, hb, rfl⟩ |
    ⟨larger, block, b, c, -, rfl, -, hb, hc, rfl⟩
  · exact ⟨h, fun _ hr => nomatch hr⟩
  · obtain ⟨hblock, hfree⟩ := h.of_perm (takeLowestBlock_perm hb)
    exact ⟨hfree, fun addr haddr => mem_some.mp haddr ▸ hblock⟩
  · obtain ⟨hlt, hp⟩ := takeLowestSuitableBlock_perm hb
    obtain ⟨hlarge, hfree⟩ := h.of_perm hp
    obtain ⟨hblock, hfree⟩ := splitBlock_within (Nat.le_of_lt hlt) hc hlarge hfree
    exact ⟨hfree, fun addr haddr => mem_some.mp haddr ▸ hblock⟩

theorem new_within [PhysAddr] {base size : ℕ} (h : new base size = some a) :
    a.FreeWithin ⟨base, size⟩ := by
  intro r hr
  have hlisted := (freeSpans_new h).subset hr
  refine ((tiles_fillBlocks (Nat.le_refl _) base).within r hlisted).trans ⟨Nat.le_refl _, ?_⟩
  exact Nat.add_le_add_left (Nat.div_mul_le_self size pageSize) base

end FibonacciBuddyAllocator

namespace BuddySystem

def FreeWithin (region : Span) (s : Option BuddySystem) : Prop :=
  ∀ t, s = some t → t.allocator.FreeWithin region

theorem freeWithin_start [PhysAddr] (base size : ℕ) :
    FreeWithin ⟨base, size⟩ (start base size) := by
  intro t ht
  simp only [start, map_eq_some_iff] at ht
  obtain ⟨a, ha, rfl⟩ := ht
  exact FibonacciBuddyAllocator.new_within ha

theorem freeWithin_allocate [PhysAddr] {region : Span} (s : Option BuddySystem) (size : ℕ)
    (h : FreeWithin region s) : FreeWithin region (step s (.allocate size)) := by
  intro t ht
  simp only [step, step?, Option.bind_eq_bind, Option.bind_eq_some_iff, Option.pure_def,
    some.injEq, Prod.exists] at ht
  obtain ⟨s, rfl, r, a, ha, rfl⟩ := ht
  exact (FibonacciBuddyAllocator.allocate_within ha (h s rfl)).1

/-- After any allocations, a block handed out for `n` bytes lies in the region with its
first `n` bytes, and holds them, exactly when `n` is at most the largest block. -/
theorem allocation_holds_iff [PhysAddr] (base size : ℕ) (sizes : List ℕ) (n addr : ℕ)
    {s : BuddySystem} {a : FibonacciBuddyAllocator}
    (hs : Run.exec step (start base size) (sizes.map .allocate) = some s)
    (ha : s.allocator.allocate n = some (some addr, a)) :
    (⟨addr, n⟩ : Span).Within ⟨base, size⟩ ∧
        (⟨addr, n⟩ : Span).Within (blockSpan (findFibIndex (pagesFor n)) addr) ↔
      n ≤ fib 31 * pageSize := by
  rw [Run.exec, foldl_map] at hs
  have hfree : FreeWithin ⟨base, size⟩ (some s) := by
    rw [← hs]
    exact Run.exec_invariant (fun s size h => freeWithin_allocate s size h)
      (freeWithin_start base size) sizes
  obtain ⟨-, hblock⟩ := FibonacciBuddyAllocator.allocate_within ha (hfree s rfl)
  obtain ⟨hlow, hhigh⟩ := hblock addr rfl
  have hlargest := Nat.mul_le_mul_right pageSize (fib_le_last (findFibIndex (pagesFor n)))
  simp only [Span.Within, Span.stop, blockSpan] at hlow hhigh ⊢
  constructor
  · rintro ⟨-, -, hholds⟩
    omega
  · intro hn
    have hholds := le_block_of_le hn
    omega

/-- Three pages, then two more pages, of a region of eight pages at 1 MiB. -/
theorem allocation_holds_two_pages :
    (⟨0x103000, 0x2000⟩ : Span).Within ⟨0x100000, 0x8000⟩ ∧
      (⟨0x103000, 0x2000⟩ : Span).Within
        (blockSpan (findFibIndex (pagesFor 0x2000)) 0x103000) := by
  obtain ⟨s, hs, ⟨_, a⟩, ha, rfl⟩ :
      ∃ s ∈ Run.exec step (start 0x100000 0x8000) ([0x3000].map .allocate),
        ∃ r ∈ s.allocator.allocate 0x2000, r.1 = some 0x103000 := by decide +kernel
  exact (allocation_holds_iff 0x100000 0x8000 [0x3000] 0x2000 0x103000 hs ha).mpr
    (by decide +kernel)

/-- The largest size wraps to no page at all and is served with a single page. -/
theorem one_page_for_largest_size :
    (Run.exec step (start 0 0x1000) []).bind (fun s =>
      (s.allocator.allocate (2 ^ 64 - 1)).map (·.1)) = some (some 0) ∧
    ¬ ((⟨0, 2 ^ 64 - 1⟩ : Span).Within ⟨0, 0x1000⟩ ∧
      (⟨0, 2 ^ 64 - 1⟩ : Span).Within (blockSpan (findFibIndex (pagesFor (2 ^ 64 - 1))) 0)) := by
  decide +kernel

end BuddySystem

end EchOS.Memory
