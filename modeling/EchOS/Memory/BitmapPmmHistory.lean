import EchOS.Memory.BitmapPmm
import Mathlib.Data.UInt

/-! What the bitmap allocator keeps along every history: the counter agrees with the bits, frame
zero is never free, and both searches are exact. -/

namespace EchOS.Memory

open List Option WordBits

namespace BitmapPmm

open WordBits

variable {pmm pmm' : BitmapPmm} {i j : ℕ}

def bit (pmm : BitmapPmm) (i : ℕ) : Bool := WordBits.bit pmm.bitmap i

def Free (pmm : BitmapPmm) (i : ℕ) : Prop := i < pmm.totalFrames ∧ pmm.bit i = false

def FreeRun (pmm : BitmapPmm) (start n : ℕ) : Prop := ∀ k < n, pmm.Free (start + k)

structure Sound (pmm : BitmapPmm) : Prop where
  covered : pmm.totalFrames ≤ 64 * pmm.bitmap.length
  bounded : pmm.totalFrames ≤ 2 ^ 52
  counted : pmm.usedFrames = setCount pmm.bitmap pmm.totalFrames
  nullUsed : ¬ pmm.Free 0
  cursor : pmm.lastIdx ≤ pmm.bitmap.length

structure SameShape (pmm pmm' : BitmapPmm) : Prop where
  frames : pmm'.totalFrames = pmm.totalFrames
  words : pmm'.bitmap.length = pmm.bitmap.length
  cursor : pmm'.lastIdx = pmm.lastIdx

theorem SameShape.refl (pmm : BitmapPmm) : SameShape pmm pmm := ⟨rfl, rfl, rfl⟩

theorem SameShape.trans {pmm'' : BitmapPmm} (h : SameShape pmm pmm') (h' : SameShape pmm' pmm'') :
    SameShape pmm pmm'' :=
  ⟨h'.frames.trans h.frames, h'.words.trans h.words, h'.cursor.trans h.cursor⟩

structure Keeps (pmm pmm' : BitmapPmm) (free : ℕ → Prop) : Prop where
  sound : pmm'.Sound
  shape : SameShape pmm pmm'
  free : ∀ j, pmm'.Free j ↔ free j

theorem and_mask_eq_zero : pmm.bitmap.getD (i / 64) 0 &&& mask 64 i = 0 ↔
    pmm.bit i = false := WordBits.and_mask_eq_zero (by decide)

theorem isFrameFree_iff (h : pmm.Sound) : pmm.isFrameFree i = true ↔ pmm.Free i := by
  unfold isFrameFree
  split_ifs with hout
  · constructor
    · exact False.elim
    · rintro ⟨hlt, hclear⟩
      rcases hout with rfl | hle
      · exact absurd ⟨hlt, hclear⟩ h.nullUsed
      · omega
  · rw [not_or, not_le] at hout
    rw [decide_eq_true_eq, and_mask_eq_zero]
    exact (and_iff_right hout.2).symm

section OneFrame

theorem markFrameUsed_spec (h : pmm.Sound) (i : ℕ) :
    Keeps pmm (pmm.markFrameUsed i) fun j => pmm.Free j ∧ j ≠ i := by
  unfold markFrameUsed
  split_ifs with hout hclear
  · refine ⟨h, .refl pmm, fun j => (and_iff_left_of_imp ?_).symm⟩
    rintro hfree rfl
    exact absurd hfree.1 (by omega)
  · rw [and_mask_eq_zero] at hclear
    have hlt : i < pmm.totalFrames := by omega
    have hbits (j : ℕ) : WordBits.bit (WordBits.set pmm.bitmap i) j =
        (decide (j = i) || pmm.bit j) := bit_set (Nat.lt_of_lt_of_le hlt h.covered)
    have hfree (j : ℕ) : j < pmm.totalFrames ∧ WordBits.bit (WordBits.set pmm.bitmap i) j = false ↔
        pmm.Free j ∧ j ≠ i := by
      rw [hbits, Bool.or_eq_false_iff, decide_eq_false_iff_not, Free]
      tauto
    refine ⟨⟨?_, h.bounded, ?_, fun hnull => h.nullUsed ((hfree 0).mp hnull).1, ?_⟩,
      ⟨rfl, length_set _ _, rfl⟩, hfree⟩
    · exact (length_set pmm.bitmap i).symm ▸ h.covered
    · exact (congrArg (· + 1) h.counted).trans (setCount_of_marked hlt hclear hbits).symm
    · exact (length_set pmm.bitmap i).symm ▸ h.cursor
  · rw [and_mask_eq_zero, Bool.not_eq_false] at hclear
    refine ⟨h, .refl pmm, fun j => (and_iff_left_of_imp ?_).symm⟩
    rintro hfree rfl
    exact absurd (hclear.symm.trans hfree.2) (by decide)

theorem freeFrameInternal_spec (h : pmm.Sound) (i : ℕ) :
    Keeps pmm (pmm.freeFrameInternal i) fun j =>
      pmm.Free j ∨ i = j ∧ j ≠ 0 ∧ j < pmm.totalFrames := by
  unfold freeFrameInternal
  split_ifs with hnull hout hset
  · refine ⟨h, .refl pmm, fun j => (or_iff_left ?_).symm⟩
    exact fun hmem => hmem.2.1 (hmem.1.symm.trans hnull)
  · refine ⟨h, .refl pmm, fun j => (or_iff_left ?_).symm⟩
    exact fun hmem => absurd hmem.2.2 (by omega)
  · rw [ne_eq, and_mask_eq_zero, Bool.not_eq_false] at hset
    have hlt : i < pmm.totalFrames := by omega
    have hbits (j : ℕ) : WordBits.bit (WordBits.clear pmm.bitmap i) j =
        (!decide (j = i) && pmm.bit j) := bit_clear (Nat.lt_of_lt_of_le hlt h.covered)
    have hfree (j : ℕ) :
        j < pmm.totalFrames ∧ WordBits.bit (WordBits.clear pmm.bitmap i) j = false ↔
          pmm.Free j ∨ i = j ∧ j ≠ 0 ∧ j < pmm.totalFrames := by
      rw [hbits, Bool.and_eq_false_iff, Bool.not_eq_false', decide_eq_true_eq, Free, eq_comm]
      by_cases hj : i = j
      · simp [← hj, hlt, hnull]
      · simp [hj]
    have hcount := setCount_of_cleared hlt hset hbits
    have hcounted := h.counted
    refine ⟨⟨?_, h.bounded, ?_, fun hzero => ?_, ?_⟩, ⟨rfl, length_clear _ _, rfl⟩, hfree⟩
    · exact (length_clear pmm.bitmap i).symm ▸ h.covered
    · show pmm.usedFrames - 1 = setCount (clear pmm.bitmap i) pmm.totalFrames
      omega
    · rcases (hfree 0).mp hzero with hold | hnew
      · exact h.nullUsed hold
      · exact hnew.2.1 rfl
    · exact (length_clear pmm.bitmap i).symm ▸ h.cursor
  · rw [not_not, and_mask_eq_zero] at hset
    refine ⟨h, .refl pmm, fun j => (or_iff_left_of_imp ?_).symm⟩
    rintro ⟨rfl, -, hlt⟩
    exact ⟨hlt, hset⟩

end OneFrame

section Lists

theorem foldl_frees_spec {α : Type} {op : BitmapPmm → α → BitmapPmm} {mem : α → ℕ → Prop}
    (hop : ∀ {pmm : BitmapPmm}, pmm.Sound → ∀ a, Keeps pmm (op pmm a) fun j =>
      pmm.Free j ∨ mem a j ∧ j ≠ 0 ∧ j < pmm.totalFrames)
    (items : List α) (h : pmm.Sound) : Keeps pmm (items.foldl op pmm) fun j =>
      pmm.Free j ∨ (∃ a ∈ items, mem a j) ∧ j ≠ 0 ∧ j < pmm.totalFrames := by
  induction items generalizing pmm with
  | nil => exact ⟨h, .refl pmm, fun j => by simp⟩
  | cons a items ih =>
    obtain ⟨hone, hshape, hfree⟩ := hop h a
    obtain ⟨hsound, hshape', hfree'⟩ := ih hone
    refine ⟨hsound, hshape.trans hshape', fun j => ?_⟩
    rw [foldl_cons, hfree', hfree, hshape.frames, exists_mem_cons_iff]
    tauto

variable (frames : List ℕ)

theorem foldl_markFrameUsed_spec (h : pmm.Sound) :
    Keeps pmm (frames.foldl markFrameUsed pmm) fun j => pmm.Free j ∧ j ∉ frames := by
  induction frames generalizing pmm with
  | nil => exact ⟨h, .refl pmm, fun j => by simp⟩
  | cons i frames ih =>
    obtain ⟨hmark, hshape, hfree⟩ := markFrameUsed_spec h i
    obtain ⟨hsound, hshape', hfree'⟩ := ih hmark
    refine ⟨hsound, hshape.trans hshape', fun j => ?_⟩
    rw [foldl_cons, hfree', hfree, mem_cons, not_or, and_assoc]

theorem foldl_freeFrameInternal_spec (h : pmm.Sound) :
    Keeps pmm (frames.foldl freeFrameInternal pmm) fun j =>
      pmm.Free j ∨ j ∈ frames ∧ j ≠ 0 ∧ j < pmm.totalFrames := by
  simpa using foldl_frees_spec (fun h i => freeFrameInternal_spec h i) frames h

end Lists

section Search

theorem mask_of_word (pmm : BitmapPmm) (k : ℕ) {b : ℕ} (hb : b < 64) :
    pmm.bitmap.getD k 0 &&& mask 64 b = 0 ↔ pmm.bit (k * 64 + b) = false := by
  have hdiv : (k * 64 + b) / 64 = k := by omega
  have hmask : mask 64 (k * 64 + b) = mask 64 b := by
    have hmod : (k * 64 + b) % 64 = b % 64 := by omega
    rw [mask, hmod, mask]
  rw [← and_mask_eq_zero, hdiv, hmask]

theorem free_of_searchWord {k : ℕ} (h : pmm.searchWord k = some i) : pmm.Free i := by
  unfold searchWord at h
  dsimp only at h
  split_ifs at h
  obtain ⟨b, hb, hfound⟩ := List.exists_of_findSome?_eq_some h
  have hlt := mem_range.mp hb
  split_ifs at hfound with hclear
  cases hfound
  exact ⟨hclear.2, (pmm.mask_of_word k hlt).mp hclear.1⟩

theorem not_free_of_searchWord (h : pmm.searchWord (i / 64) = none) : ¬ pmm.Free i := by
  rintro ⟨hlt, hclear⟩
  have hword := getD_ne_allOnes (by decide) hclear
  have hindex : i / 64 * 64 + i % 64 = i := by omega
  have hmod : i % 64 < 64 := Nat.mod_lt i (by decide)
  unfold searchWord at h
  rw [if_neg hword, List.findSome?_eq_none_iff] at h
  have hnone := h (i % 64) (mem_range.mpr hmod)
  have hmasked := (pmm.mask_of_word (i / 64) hmod).mpr (hindex.symm ▸ hclear)
  rw [hindex, if_pos ⟨hmasked, hlt⟩] at hnone
  cases hnone

variable {start stop : ℕ}

theorem free_of_search (h : pmm.search start stop = some i) : pmm.Free i := by
  obtain ⟨k, -, hfound⟩ := List.exists_of_findSome?_eq_some h
  exact free_of_searchWord hfound

theorem not_free_of_search (h : pmm.search start stop = none)
    (hi : start ≤ i / 64) (hi' : i / 64 < stop) : ¬ pmm.Free i := by
  unfold search at h
  rw [List.findSome?_eq_none_iff] at h
  exact not_free_of_searchWord (h (i / 64) (mem_range'_1.mpr (by omega)))

theorem findFrame_spec (h : pmm.Sound) :
    (∀ i, pmm.findFrame = some i → pmm.Free i) ∧
      (pmm.findFrame = none ↔ ∀ i, ¬ pmm.Free i) := by
  have hcovered := h.covered
  unfold findFrame
  cases hback : pmm.search pmm.lastIdx pmm.bitmap.length with
  | some f =>
    have hfree := free_of_search hback
    refine ⟨fun i hi => ?_, iff_of_false (fun hnone => nomatch hnone) fun hall => hall f hfree⟩
    exact some.inj hi ▸ hfree
  | none =>
    split_ifs with hstart
    · refine ⟨fun i hi => free_of_search hi, fun hfront i hfree => ?_, fun hall => ?_⟩
      · by_cases hi : i / 64 < pmm.lastIdx
        · exact not_free_of_search hfront (Nat.zero_le _) hi hfree
        · exact not_free_of_search hback (by omega) (by have := hfree.1; omega) hfree
      · cases hfront : pmm.search 0 pmm.lastIdx with
        | none => rfl
        | some f => exact absurd (free_of_search hfront) (hall f)
    · refine ⟨fun i hi => absurd hi (by simp), iff_of_true rfl fun i hfree => ?_⟩
      exact not_free_of_search hback (by omega) (by have := hfree.1; omega) hfree

end Search

section Runs

variable {idx pages : ℕ}

theorem firstBusy_eq_none {offset left : ℕ} (h : pmm.firstBusy idx offset left = none) {k : ℕ}
    (hk : offset ≤ k) (hk' : k < offset + left) : pmm.isFrameFree ((idx + k) % 2 ^ 64) = true := by
  fun_induction firstBusy pmm idx offset left with
  | case1 => omega
  | case2 offset left hfree ih =>
    by_cases hfirst : k = offset
    · exact hfirst ▸ hfree
    · exact ih h (by omega) (by omega)
  | case3 => cases h

theorem firstBusy_eq_some {offset left busy : ℕ} (h : pmm.firstBusy idx offset left = some busy) :
    busy < offset + left ∧ pmm.isFrameFree ((idx + busy) % 2 ^ 64) = false ∧
      ∀ k, offset ≤ k → k < busy → pmm.isFrameFree ((idx + k) % 2 ^ 64) = true := by
  fun_induction firstBusy pmm idx offset left with
  | case1 => cases h
  | case2 offset left hfree ih =>
    obtain ⟨hlt, hbusy, hbefore⟩ := ih h
    refine ⟨by omega, hbusy, fun k hk hk' => ?_⟩
    by_cases hfirst : k = offset
    · exact hfirst ▸ hfree
    · exact hbefore k (by omega) hk'
  | case3 offset left hfree =>
    cases h
    exact ⟨by omega, Bool.eq_false_iff.mpr hfree, fun k hk hk' => by omega⟩

theorem free_of_scan (h : pmm.Sound) (hidx : idx ≤ pmm.totalFrames + 1) {n : ℕ}
    (hscan : ∀ k, 0 ≤ k → k < n → pmm.isFrameFree ((idx + k) % 2 ^ 64) = true) :
    pmm.FreeRun idx n := by
  have hbounded := h.bounded
  intro k hk
  have hfree := hscan k (Nat.zero_le _) hk
  induction k with
  | zero => rwa [Nat.mod_eq_of_lt (by omega), isFrameFree_iff h] at hfree
  | succ k ih =>
    have hlast := (ih (by omega) (hscan k (Nat.zero_le _) (by omega))).1
    rwa [Nat.mod_eq_of_lt (by omega), isFrameFree_iff h] at hfree

/-- What the outer loop keeps: no run starts below the index. A length for which the sum of the
guard wraps stops the loop at once, except for the greatest one. -/
structure Searched (pmm : BitmapPmm) (pages idx : ℕ) : Prop where
  bound : idx ≤ pmm.totalFrames + 2
  entered : idx = 1 ∨ pages ≤ pmm.totalFrames ∨ pages = 2 ^ 64 - 1
  none_below : ∀ start < idx, ¬ pmm.FreeRun start pages

theorem Searched.guarded (h : pmm.Searched pages idx) (hsound : pmm.Sound)
    (hpages : pages < 2 ^ 64) (hguard : (idx + pages) % 2 ^ 64 ≤ pmm.totalFrames) :
    idx ≤ pmm.totalFrames + 1 ∧ (pages ≤ pmm.totalFrames ∨ pages = 2 ^ 64 - 1) := by
  have hbounded := hsound.bounded
  have hbound := h.bound
  have hentered := h.entered
  omega

theorem contiguousStep_round (h : pmm.Sound) (hpages : pages < 2 ^ 64)
    (hsearched : pmm.Searched pages idx) :
    ∃ next, pmm.contiguousStep pages idx = some next ∧ ∀ idx', next = .inl idx' →
      pmm.Searched pages idx' ∧ pmm.totalFrames + 2 - idx' < pmm.totalFrames + 2 - idx := by
  have hbounded := h.bounded
  unfold contiguousStep
  split_ifs with hguard
  · cases hbusy : pmm.firstBusy idx 0 pages with
    | none => exact ⟨_, rfl, fun idx' hnext => nomatch hnext⟩
    | some busy =>
      refine ⟨_, rfl, fun idx' hnext => ?_⟩
      cases hnext
      obtain ⟨hidx, hentered⟩ := hsearched.guarded h hpages hguard
      obtain ⟨hlt, hstop, hscan⟩ := firstBusy_eq_some hbusy
      have hrun := free_of_scan h hidx hscan
      have hle : idx + busy ≤ pmm.totalFrames + 1 := by
        cases busy with
        | zero => omega
        | succ busy =>
          have hlast := (hrun busy (Nat.lt_succ_self busy)).1
          omega
      rw [Nat.mod_eq_of_lt (by omega)] at hstop ⊢
      have hnot : ¬ pmm.Free (idx + busy) := by
        rw [← isFrameFree_iff h, hstop]
        exact Bool.false_ne_true
      refine ⟨⟨by omega, .inr hentered, fun start hstart hfree => ?_⟩, by omega⟩
      by_cases hbelow : start < idx
      · exact hsearched.none_below start hbelow hfree
      · have hin := hfree (idx + busy - start) (by omega)
        rw [Nat.add_sub_cancel' (by omega)] at hin
        exact hnot hin
  · exact ⟨_, rfl, fun idx' hnext => nomatch hnext⟩

theorem findContiguous_spec (h : pmm.Sound) (hpos : 0 < pages) (hpages : pages < 2 ^ 64) :
    ∃ result, pmm.findContiguous pages = some result ∧
      (∀ idx, result = some idx → IsLeast {start | pmm.FreeRun start pages} idx) ∧
      (result = none ↔ ¬ ∃ start, pmm.FreeRun start pages) := by
  have hstart : pmm.Searched pages 1 := by
    refine ⟨by omega, .inl rfl, fun start hlt hrun => h.nullUsed ?_⟩
    obtain rfl : start = 0 := by omega
    exact hrun 0 hpos
  obtain ⟨result, idx, hfind, hsearched, hlast⟩ :=
    Loop.run_total (fun idx hidx => contiguousStep_round h hpages hidx) hstart
      (show pmm.totalFrames + 2 - 1 < pmm.totalFrames + 3 by omega)
  unfold contiguousStep at hlast
  refine ⟨result, hfind, ?_⟩
  split_ifs at hlast with hguard
  · obtain ⟨hidx, -⟩ := hsearched.guarded h hpages hguard
    cases hbusy : pmm.firstBusy idx 0 pages with
    | some busy => simp [hbusy] at hlast
    | none =>
      rw [hbusy] at hlast
      obtain rfl := Sum.inr.inj (some.inj hlast)
      have hrun : pmm.FreeRun idx pages := free_of_scan h hidx fun k hk hk' =>
        firstBusy_eq_none hbusy hk (by omega)
      refine ⟨fun found hfound => ?_, iff_of_false (by simp) fun hno => hno ⟨idx, hrun⟩⟩
      cases hfound
      refine ⟨hrun, fun start hother => ?_⟩
      by_contra hlt
      exact hsearched.none_below start (by omega) hother
  · obtain rfl := Sum.inr.inj (some.inj hlast)
    refine ⟨fun found hfound => absurd hfound (by simp), iff_of_true rfl ?_⟩
    rintro ⟨start, hrun⟩
    have hend := (hrun (pages - 1) (by omega)).1
    by_cases hbelow : start < idx
    · exact hsearched.none_below start hbelow hrun
    · exact hguard (by rw [Nat.mod_eq_of_lt (by omega)]; omega)

end Runs

section Init

variable {map : List MemoryDescriptor} {bitmapStart : UInt64}

/-- The allocator before `init` walks over the map: every frame is in use. -/
def filled (map : List MemoryDescriptor) : BitmapPmm :=
  { empty with
    bitmap := List.replicate (bitmapSizeU64 map) (BitVec.allOnes 64)
    totalFrames := framesOf map
    usedFrames := framesOf map }

theorem framesOf_le (map : List MemoryDescriptor) : framesOf map ≤ 2 ^ 52 := by
  have hlt := (maxPhysAddr map).toNat_lt
  have hdiv : framesOf map = (maxPhysAddr map).toNat / 4096 := UInt64.toNat_div _ _
  omega

theorem bit_filled (h : i < framesOf map) : (filled map).bit i = true := by
  refine bit_replicate_allOnes ?_
  unfold bitmapSizeU64
  omega

theorem filled_sound (map : List MemoryDescriptor) : (filled map).Sound := by
  have hlength : (filled map).bitmap.length = bitmapSizeU64 map := length_replicate
  refine ⟨?_, framesOf_le map, ?_, ?_, Nat.zero_le _⟩
  · show framesOf map ≤ _
    rw [hlength, bitmapSizeU64]
    omega
  · exact (setCount_eq fun i hi => bit_filled hi).symm
  · exact fun hfree => absurd ((bit_filled hfree.1).symm.trans hfree.2) (by decide)

theorem freeDescriptor_spec (h : pmm.Sound) (desc : MemoryDescriptor) :
    Keeps pmm (pmm.freeDescriptor desc) fun j => pmm.Free j ∨
      (desc.ty = .conventional ∧ j ∈ desc.frames) ∧ j ≠ 0 ∧ j < pmm.totalFrames := by
  unfold freeDescriptor
  split_ifs with hty
  · simp only [hty, true_and]
    exact foldl_freeFrameInternal_spec desc.frames h
  · exact ⟨h, .refl pmm, fun j => by simp [hty]⟩

/-- `init` frees the frames of the conventional regions but frame zero and those of the bitmap. -/
theorem init_spec (hstart : bitmapPhysStart map = some bitmapStart) :
    ∃ pmm, empty.init map = some pmm ∧ pmm.Sound ∧ pmm.totalFrames = framesOf map ∧
      pmm.bitmap.length = bitmapSizeU64 map ∧
      ∀ j, pmm.Free j ↔ (∃ desc ∈ map, desc.ty = .conventional ∧ j ∈ desc.frames) ∧ j ≠ 0 ∧
        j < framesOf map ∧ j ∉ bitmapFrames map bitmapStart := by
  obtain ⟨hsound, hshape, hfree⟩ := foldl_frees_spec freeDescriptor_spec map (filled_sound map)
  obtain ⟨hsound', hshape', hfree'⟩ :=
    foldl_markFrameUsed_spec (bitmapFrames map bitmapStart) hsound
  have hinit : empty.init map = some ((bitmapFrames map bitmapStart).foldl markFrameUsed
      (map.foldl freeDescriptor (filled map))) := by
    unfold init
    rw [hstart]
    rfl
  refine ⟨_, hinit, hsound', hshape'.frames.trans hshape.frames, ?_, fun j => ?_⟩
  · exact (hshape'.words.trans hshape.words).trans length_replicate
  · have hfull : ¬ (filled map).Free j := fun hj =>
      absurd ((bit_filled hj.1).symm.trans hj.2) (by decide)
    rw [hfree', hfree, or_iff_right hfull, and_assoc, and_assoc]
    rfl

end Init

section Steps

theorem allocateFrame_cases [PhysAddr] (h : pmm.Sound) :
    (pmm.allocateFrame = some (none, pmm) ∧ ∀ i, ¬ pmm.Free i) ∨
    (pmm.allocateFrame = none ∧ ∃ i, pmm.Free i ∧ 2 ^ 40 ≤ i) ∨
    ∃ (frame : PhysFrame) (pmm' : BitmapPmm), pmm.allocateFrame = some (some frame, pmm') ∧
      pmm.Free frame ∧ pmm'.Sound ∧ pmm'.totalFrames = pmm.totalFrames ∧
      pmm'.usedFrames = pmm.usedFrames + 1 ∧ ∀ j, pmm'.Free j ↔ pmm.Free j ∧ j ≠ frame := by
  obtain ⟨hfound, hnone⟩ := findFrame_spec h
  unfold allocateFrame
  cases hfind : pmm.findFrame with
  | none => exact .inl ⟨rfl, hnone.mp hfind⟩
  | some i =>
    have hi := hfound i hfind
    right
    dsimp only
    by_cases hlt : i < 2 ^ 40
    · obtain ⟨hsound, hshape, hfree⟩ := markFrameUsed_spec h i
      have hcursor : i / 64 ≤ (pmm.markFrameUsed i).bitmap.length := by
        have hin := hi.1
        have hcovered := h.covered
        rw [hshape.words]
        omega
      have hused : (pmm.markFrameUsed i).usedFrames = pmm.usedFrames + 1 := by
        rw [markFrameUsed, if_neg (Nat.not_le.mpr hi.1), if_pos (and_mask_eq_zero.mpr hi.2)]
      rw [containingAddress_of_lt hlt]
      refine .inr ⟨⟨i, hlt⟩, _, rfl, hi, ?_, hshape.frames, hused, hfree⟩
      exact ⟨hsound.covered, hsound.bounded, hsound.counted, hsound.nullUsed, hcursor⟩
    · rw [containingAddress_of_le (Nat.not_lt.mp hlt)]
      exact .inl ⟨rfl, i, hi, Nat.not_lt.mp hlt⟩

theorem allocateContiguous_cases [PhysAddr] (h : pmm.Sound) {pages : UInt64} (hpages : pages ≠ 0) :
    (pmm.allocateContiguous pages = some (none, pmm) ∧
      ¬ ∃ start, pmm.FreeRun start pages.toNat) ∨
    (pmm.allocateContiguous pages = none ∧ ∃ i, pmm.Free i ∧ 2 ^ 40 ≤ i) ∨
    ∃ (frame : PhysFrame) (pmm' : BitmapPmm),
      pmm.allocateContiguous pages = some (some frame, pmm') ∧
      IsLeast {start | pmm.FreeRun start pages.toNat} frame ∧ pmm'.Sound ∧
      pmm'.totalFrames = pmm.totalFrames := by
  have hpos : 0 < pages.toNat := Nat.pos_of_ne_zero fun hzero =>
    hpages (UInt64.toNat_inj.mp hzero)
  obtain ⟨result, hfind, hleast, hnone⟩ := findContiguous_spec h hpos pages.toNat_lt
  unfold allocateContiguous
  rw [if_neg hpages, hfind]
  cases result with
  | none => exact .inl ⟨rfl, hnone.mp rfl⟩
  | some i =>
    have hi := hleast i rfl
    right
    dsimp only
    by_cases hlt : i < 2 ^ 40
    · obtain ⟨hsound, hshape, -⟩ := foldl_markFrameUsed_spec (range' i pages.toNat) h
      rw [containingAddress_of_lt hlt]
      exact .inr ⟨⟨i, hlt⟩, _, rfl, hi, hsound, hshape.frames⟩
    · rw [containingAddress_of_le (Nat.not_lt.mp hlt)]
      exact .inl ⟨rfl, i, hi.1 0 hpos, Nat.not_lt.mp hlt⟩

theorem step_cases [PhysAddr] (h : pmm.Sound) (op : PmmOp) :
    (pmm.step op = none ∧ ∃ i, pmm.Free i ∧ 2 ^ 40 ≤ i) ∨
      ∃ result pmm', pmm.step op = some (result, pmm') ∧ pmm'.Sound ∧
        pmm'.totalFrames = pmm.totalFrames := by
  cases op with
  | allocateFrame =>
    rcases allocateFrame_cases h with ⟨hnone, -⟩ | hpanic | ⟨frame, next, hsome, -, hnext⟩
    · exact .inr ⟨_, _, hnone, h, rfl⟩
    · exact .inl hpanic
    · exact .inr ⟨_, _, hsome, hnext.1, hnext.2.1⟩
  | allocateContiguous pages =>
    by_cases hpages : pages = 0
    · exact .inr ⟨_, _, if_pos hpages, h, rfl⟩
    rcases allocateContiguous_cases h hpages with
      ⟨hnone, -⟩ | hpanic | ⟨frame, next, hsome, -, hnext⟩
    · exact .inr ⟨_, _, hnone, h, rfl⟩
    · exact .inl hpanic
    · exact .inr ⟨_, _, hsome, hnext⟩
  | deallocateContiguous start pages =>
    obtain ⟨hsound, hshape, -⟩ := foldl_freeFrameInternal_spec
      ((range pages.toNat).map fun i => (start.val + i) % 2 ^ 64) h
    exact .inr ⟨_, _, rfl, hsound, hshape.frames⟩

theorem low_of_le (hle : pmm.totalFrames ≤ 2 ^ 40) : ¬ ∃ i, pmm.Free i ∧ 2 ^ 40 ≤ i := by
  rintro ⟨i, hfree, hi⟩
  exact absurd hfree.1 (by omega)

end Steps

section Histories

theorem exec_cons [PhysAddr] (pmm : BitmapPmm) (op : PmmOp) (ops : List PmmOp) :
    pmm.exec (op :: ops) = (pmm.step op).bind fun served => served.2.exec ops := by
  unfold exec
  rw [foldlM_cons]
  cases pmm.step op <;> rfl

theorem exec_sound [PhysAddr] (h : pmm.Sound) (hle : pmm.totalFrames ≤ 2 ^ 40) (ops : List PmmOp) :
    ∃ pmm', pmm.exec ops = some pmm' ∧ pmm'.Sound ∧ pmm'.totalFrames = pmm.totalFrames := by
  induction ops generalizing pmm with
  | nil => exact ⟨pmm, rfl, h, rfl⟩
  | cons op ops ih =>
    rcases step_cases h op with ⟨-, hhigh⟩ | ⟨result, next, hstep, hnext, hframes⟩
    · exact absurd hhigh (low_of_le hle)
    · rw [exec_cons, hstep, ← hframes]
      exact ih hnext (hframes.symm ▸ hle)

/-- Frame after frame is handed out, until one with too high an address is due. -/
theorem exec_panics [PhysAddr] (h : pmm.Sound) (hi : pmm.Free i) (hhigh : 2 ^ 40 ≤ i) :
    ∃ n, pmm.exec (replicate n .allocateFrame) = none := by
  -- induction on the number of free frames
  generalize hleft : pmm.totalFrames - pmm.usedFrames = left
  induction left using Nat.strong_induction_on generalizing pmm with
  | _ left ih =>
    rcases allocateFrame_cases h with
      ⟨-, hnone⟩ | ⟨hpanic, -⟩ | ⟨frame, next, hsome, hframe, hnext, hframes, hused, hfree⟩
    · exact absurd hi (hnone i)
    · refine ⟨1, ?_⟩
      rw [replicate_one, exec_cons, step, hpanic]
      rfl
    · have hne : i ≠ frame.val := by omega
      have hless : next.totalFrames - next.usedFrames < left := by
        have hcount := setCount_lt hframe.1 hframe.2
        have hcounted := h.counted
        omega
      obtain ⟨n, hn⟩ := ih _ hless hnext ((hfree i).mpr ⟨hi, hne⟩) rfl
      refine ⟨n + 1, ?_⟩
      rw [replicate_succ, exec_cons, step, hsome]
      exact hn

structure Serves [PhysAddr] (pmm : BitmapPmm) : Prop where
  counted : pmm.usedFrames = setCount pmm.bitmap pmm.totalFrames
  nullSet : pmm.bit 0 = true
  frame : ∃ result pmm', pmm.allocateFrame = some (result, pmm') ∧
    (∀ frame : PhysFrame, result = some frame → pmm.Free frame ∧ frame.val ≠ 0) ∧
    (result = none ↔ ∀ i, ¬ pmm.Free i)
  contiguous : ∀ pages : UInt64, pages ≠ 0 → ∃ result pmm',
    pmm.allocateContiguous pages = some (result, pmm') ∧
    (∀ frame : PhysFrame, result = some frame →
      IsLeast {start | pmm.FreeRun start pages.toNat} frame) ∧
    (result = none ↔ ¬ ∃ start, pmm.FreeRun start pages.toNat)

theorem serves_of_sound [PhysAddr] (h : pmm.Sound) (hpos : 0 < pmm.totalFrames)
    (hle : pmm.totalFrames ≤ 2 ^ 40) : pmm.Serves := by
  refine ⟨h.counted, ?_, ?_, fun pages hpages => ?_⟩
  · by_contra hclear
    exact h.nullUsed ⟨hpos, Bool.eq_false_iff.mpr hclear⟩
  · rcases allocateFrame_cases h with ⟨hnone, hall⟩ | ⟨-, hhigh⟩ | ⟨frame, next, hsome, hframe, -⟩
    · exact ⟨_, _, hnone, (fun _ hsome => nomatch hsome), iff_of_true rfl hall⟩
    · exact absurd hhigh (low_of_le hle)
    · refine ⟨_, _, hsome, fun found hfound => ?_,
        iff_of_false (fun hnone => nomatch hnone) fun hall => hall frame hframe⟩
      cases hfound
      exact ⟨hframe, fun hzero => h.nullUsed (hzero ▸ hframe)⟩
  · rcases allocateContiguous_cases h hpages with
      ⟨hnone, hall⟩ | ⟨-, hhigh⟩ | ⟨frame, next, hsome, hleast, -⟩
    · exact ⟨_, _, hnone, (fun _ hsome => nomatch hsome), iff_of_true rfl hall⟩
    · exact absurd hhigh (low_of_le hle)
    · refine ⟨_, _, hsome, fun found hfound => ?_,
        iff_of_false (fun hnone => nomatch hnone) fun hall => hall ⟨frame, hleast.1⟩⟩
      exact some.inj hfound ▸ hleast

/-- A bitmap of frames above the 52-bit addresses: one of them is freed, and in the end found. -/
theorem exec_panics_of_lt [PhysAddr] (h : pmm.Sound) (hlt : 2 ^ 40 < pmm.totalFrames) :
    ∃ ops, pmm.exec ops = none := by
  obtain ⟨hsound, hshape, hfree⟩ := foldl_freeFrameInternal_spec
    ((range (2 : UInt64).toNat).map fun i => (2 ^ 40 - 1 + i) % 2 ^ 64) h
  have hmem : 2 ^ 40 ∈ (range (2 : UInt64).toNat).map fun i => (2 ^ 40 - 1 + i) % 2 ^ 64 :=
    mem_map.mpr ⟨1, by decide, by decide⟩
  obtain ⟨n, hn⟩ := exec_panics hsound ((hfree _).mpr (.inr ⟨hmem, by decide, hlt⟩)) le_rfl
  refine ⟨.deallocateContiguous ⟨2 ^ 40 - 1, by decide⟩ 2 :: replicate n .allocateFrame, ?_⟩
  exact hn

end Histories

/-- The allocator serves every history of calls exactly when the map ends neither below its
second page nor above the 52-bit addresses. -/
theorem serves_every_history_iff [PhysAddr] (map : List MemoryDescriptor) (pmm : BitmapPmm)
    (hinit : empty.init map = some pmm) :
    (∀ ops, ∃ pmm', pmm.exec ops = some pmm' ∧ pmm'.Serves) ↔
      0 < framesOf map ∧ framesOf map ≤ 2 ^ 40 := by
  obtain ⟨bitmapStart, hstart, -⟩ := bind_eq_some_iff.mp hinit
  obtain ⟨pmm₀, hinit₀, hsound, hframes, hwords, -⟩ := init_spec hstart
  obtain rfl := some.inj (hinit₀.symm.trans hinit)
  rw [← hframes]
  refine ⟨fun hserves => ⟨?_, ?_⟩, fun ⟨hpos, hle⟩ ops => ?_⟩
  · by_contra hzero
    obtain ⟨pmm', hexec, hserved⟩ := hserves []
    cases hexec
    have hnil : pmm₀.bitmap = [] := by
      rw [← length_eq_zero_iff, hwords, bitmapSizeU64]
      omega
    have hset := hserved.nullSet
    rw [bit, hnil] at hset
    exact absurd hset (by decide)
  · by_contra hlt
    obtain ⟨ops, hpanics⟩ := exec_panics_of_lt hsound (Nat.not_le.mp hlt)
    obtain ⟨pmm', hexec, -⟩ := hserves ops
    exact nomatch hpanics.symm.trans hexec
  · obtain ⟨pmm', hexec, hsound', hframes'⟩ := exec_sound hsound hle ops
    exact ⟨pmm', hexec, serves_of_sound hsound' (hframes'.symm ▸ hpos) (hframes'.symm ▸ hle)⟩

/-- Three pages behind the null page, the first of which holds the bitmap. -/
theorem serves_every_history_three_pages :
    ∃ pmm, empty.init [⟨.conventional, 4096, 3⟩] = some pmm ∧
      ∀ ops, ∃ pmm', pmm.exec ops = some pmm' ∧ pmm'.Serves := by
  have hstart : bitmapPhysStart [⟨.conventional, 4096, 3⟩] = some 4096 := by decide
  obtain ⟨pmm, hinit, -⟩ := init_spec hstart
  exact ⟨pmm, hinit, (serves_every_history_iff _ pmm hinit).mpr (by decide)⟩

/-- The bitmap takes the low region, so the one free frame is that at `2 ^ 52`. -/
theorem allocateFrame_panics_above_52_bits :
    ∃ pmm, empty.init [⟨.conventional, 4096, 2 ^ 25 + 1⟩, ⟨.conventional, 2 ^ 52, 1⟩] = some pmm ∧
      pmm.Free (2 ^ 40) ∧ pmm.allocateFrame = none := by
  have hstart : bitmapPhysStart [⟨.conventional, 4096, 2 ^ 25 + 1⟩, ⟨.conventional, 2 ^ 52, 1⟩] =
      some 4096 := by decide
  obtain ⟨pmm, hinit, hsound, -, -, hfree⟩ := init_spec hstart
  have hhigh : pmm.Free (2 ^ 40) := by
    refine (hfree _).mpr ⟨⟨_, .tail _ (.head _), rfl, ?_⟩, by decide, by decide, ?_⟩
    · exact mem_range'_1.mpr (by decide)
    · exact fun hmem => absurd (mem_range'_1.mp hmem) (by decide)
  refine ⟨pmm, hinit, hhigh, ?_⟩
  rcases allocateFrame_cases hsound with ⟨-, hnone⟩ | ⟨hpanic, -⟩ | ⟨frame, -, -, hframe, -⟩
  · exact absurd hhigh (hnone _)
  · exact hpanic
  · -- a frame of the low region belongs to the bitmap
    obtain ⟨⟨desc, hdesc, -, hmem⟩, -, -, hbitmap⟩ := (hfree frame).mp hframe
    have hlt := frame.isLt
    have hrange := mem_range'_1.mp hmem
    rcases mem_cons.mp hdesc with rfl | hdesc
    · exact absurd (mem_range'_1.mpr hrange) hbitmap
    · rw [mem_singleton.mp hdesc] at hrange
      exact absurd hrange.1 (Nat.not_le.mpr hlt)

end BitmapPmm

end EchOS.Memory
