import EchOS.Fs.Fat
import EchOS.Lib.LinkedList
import Mathlib.Data.Finset.Card

/-! Chains of clusters in a file allocation table, and what each operation does to the chain it is
called on. -/

namespace EchOS.Fs.Fat

open Bytes LinkedList List Option Loop

section Entries

variable {fatData : FatData} {c d v : ℕ}

@[simp] theorem length_writeFatEntry : (writeFatEntry fatData c v).length = fatData.length := by
  rw [writeFatEntry]
  split_ifs with hin
  · exact Disk.length_patch rfl (by rw [length_toLe]; exact hin)
  · rfl

theorem reserved_lt (v : ℕ) : (v &&& 0x0FFFFFFF) ||| 0xF0000000 < 2 ^ 32 :=
  Nat.or_lt_two_pow (Nat.lt_of_le_of_lt Nat.and_le_right (by decide)) (by decide)

theorem read_write_self (hin : c * 4 + 4 ≤ fatData.length) :
    readFatEntry (writeFatEntry fatData c v) c = v &&& 0x0FFFFFFF := by
  have hlong : ¬ (writeFatEntry fatData c v).length < c * 4 + 4 := by
    rw [length_writeFatEntry]
    omega
  have hpatch : writeFatEntry fatData c v =
      Disk.patch fatData (c * 4) (toLe 4 ((v &&& 0x0FFFFFFF) ||| 0xF0000000)) := if_pos hin
  have hslice : slice (writeFatEntry fatData c v) (c * 4) (c * 4 + 4) =
      toLe 4 ((v &&& 0x0FFFFFFF) ||| 0xF0000000) := by
    rw [hpatch]
    exact slice_patch_self (by rw [length_toLe]; exact hin) (by rw [length_toLe])
  rw [readFatEntry, if_neg hlong, hslice, ofLe_toLe (reserved_lt v),
    Nat.and_or_distrib_right, Nat.and_assoc]
  exact Nat.or_zero _

theorem read_write_of_ne (h : d ≠ c) :
    readFatEntry (writeFatEntry fatData c v) d = readFatEntry fatData d := by
  by_cases hin : c * 4 + 4 ≤ fatData.length
  · have hpatch : writeFatEntry fatData c v =
        Disk.patch fatData (c * 4) (toLe 4 ((v &&& 0x0FFFFFFF) ||| 0xF0000000)) := if_pos hin
    have hslice : slice (writeFatEntry fatData c v) (d * 4) (d * 4 + 4) =
        slice fatData (d * 4) (d * 4 + 4) := by
      rw [hpatch]
      refine slice_patch_of_disjoint (by rw [length_toLe]; exact hin) ?_
      rw [length_toLe]
      omega
    simp only [readFatEntry, length_writeFatEntry, hslice]
  · rw [writeFatEntry, if_neg hin]

theorem read_write_of_lt (hin : c * 4 + 4 ≤ fatData.length) (hv : v < 2 ^ 28) :
    readFatEntry (writeFatEntry fatData c v) c = v := by
  rw [read_write_self hin]
  exact (Nat.and_two_pow_sub_one_eq_mod v 28).trans (Nat.mod_eq_of_lt hv)

end Entries

def ptr (v : ℕ) : Option ℕ := if isEof v then none else some v

def link (fatData : FatData) (c : ℕ) : Option ℕ := ptr (readFatEntry fatData c)

theorem ptr_of_lt {v : ℕ} (h : v < fat32Eof) : ptr v = some v := if_neg (Nat.not_le_of_lt h)

variable {fatData' fatData : FatData} {c : ℕ}

theorem link_congr
    (h : readFatEntry fatData' c = readFatEntry fatData c) : link fatData' c = link fatData c :=
  congrArg ptr h

/-- Clusters that every value names as they are, with their entries in the table. -/
def Inside (fatData : FatData) (c : ℕ) : Prop :=
  2 ≤ c ∧ c < fat32Eof ∧ c * 4 + 4 ≤ fatData.length

theorem Inside.congr (h : Inside fatData c)
    (hlength : fatData'.length = fatData.length) : Inside fatData' c := by
  rw [Inside, hlength]
  exact h

theorem not_isFree_of_two_le (h : 2 ≤ c) : ¬ isFree c := by
  rw [isFree, fat32Free]
  omega

/-- A table in which one chain has become another: the clusters that are left over are free. -/
structure Rewired (fatData fatData' : FatData) (old new : List ℕ) : Prop where
  length : fatData'.length = fatData.length
  seg : Seg (link fatData') new.head? new none
  taken : ∀ c ∈ new, readFatEntry fatData' c ≠ fat32Free
  freed : ∀ c ∈ old, c ∉ new → readFatEntry fatData' c = fat32Free
  same : ∀ c, c ∉ old → c ∉ new → readFatEntry fatData' c = readFatEntry fatData c

section Freeing

variable {fatData : FatData} {current c : ℕ} {l : List ℕ}

theorem rewired_nil (fatData : FatData) : Rewired fatData fatData [] [] :=
  ⟨rfl, rfl, fun _ hc => absurd hc not_mem_nil, fun _ hc => absurd hc not_mem_nil, fun _ _ _ => rfl⟩

theorem Rewired.cons_freed {fatData' : FatData} (hc : c * 4 + 4 ≤ fatData.length) (hnew : c ∉ l)
    (h : Rewired (writeFatEntry fatData c fat32Free) fatData' l []) :
    Rewired fatData fatData' (c :: l) [] where
  length := h.length.trans length_writeFatEntry
  seg := rfl
  taken := h.taken
  freed := by
    intro d hd hnil
    rcases mem_cons.mp hd with rfl | hd
    · rw [h.same d hnew hnil, read_write_of_lt hc (by decide)]
    · exact h.freed d hd hnil
  same := by
    intro d hd hnil
    rw [h.same d (not_mem_of_not_mem_cons hd) hnil,
      read_write_of_ne (ne_of_not_mem_cons hd)]

theorem seg_ptr_cons {q : Option ℕ} (h : Seg (link fatData) (ptr current) (c :: l) q) :
    current = c ∧ ¬ isEof current ∧ Seg (link fatData) (ptr (readFatEntry fatData c)) l q := by
  obtain ⟨hptr, hrest⟩ := h
  by_cases heof : isEof current
  · rw [ptr, if_pos heof] at hptr
    cases hptr
  · rw [ptr, if_neg heof] at hptr
    exact ⟨some.inj hptr, heof, hrest⟩

theorem isEof_of_seg_nil (h : Seg (link fatData) (ptr current) [] none) : isEof current := by
  by_contra heof
  rw [ptr, if_neg heof] at h
  cases h

theorem seg_write {p q : Option ℕ} {v : ℕ} (h : Seg (link fatData) p l q) (hnew : c ∉ l) :
    Seg (link (writeFatEntry fatData c v)) p l q :=
  h.congr fun _ hd => link_congr (read_write_of_ne fun heq => hnew (heq ▸ hd))

theorem freeStep_of_isEof (fatData : FatData) {cluster : ℕ} (h : isEof cluster) :
    freeStep (fatData, cluster) = some (.inr fatData) :=
  if_neg fun hgoes => hgoes.1 h

theorem freeLoop_spec (hseg : Seg (link fatData) (ptr current) l none) (hnodup : l.Nodup)
    (hinside : ∀ c ∈ l, Inside fatData c) {n : ℕ} (hn : l.length < n) :
    ∃ fatData', run freeStep n (fatData, current) = some fatData' ∧
      Rewired fatData fatData' l [] := by
  induction l generalizing fatData current n with
  | nil =>
    have hdone := freeStep_of_isEof fatData (isEof_of_seg_nil hseg)
    exact ⟨fatData, run_done hdone (Nat.zero_lt_of_lt hn), rewired_nil fatData⟩
  | cons c l ih =>
    obtain ⟨rfl, heof, hrest⟩ := seg_ptr_cons hseg
    obtain ⟨hnew, hnodup⟩ := nodup_cons.mp hnodup
    obtain ⟨hc, hl⟩ := forall_mem_cons.mp hinside
    have hstep : freeStep (fatData, current) = some (.inl
        (writeFatEntry fatData current fat32Free, readFatEntry fatData current)) :=
      if_pos ⟨heof, not_isFree_of_two_le hc.1⟩
    obtain ⟨n, rfl⟩ : ∃ m, n = m + 1 := ⟨n - 1, by rw [length_cons] at hn; omega⟩
    obtain ⟨fatData', hrun, hfreed⟩ := ih (seg_write hrest hnew) hnodup
      (fun d hd => (hl d hd).congr length_writeFatEntry) (Nat.lt_of_succ_lt_succ hn)
    exact ⟨fatData', (run_next hstep n).trans hrun, hfreed.cons_freed hc.2.2 hnew⟩

end Freeing

section Truncating

variable {fatData fatData' : FatData} {current c : ℕ} {l : List ℕ} {newCount n idx : ℕ}

theorem Rewired.cons_kept {fatData₁ : FatData} {old new : List ℕ}
    (h : Rewired fatData₁ fatData' old new) (hlength : fatData₁.length = fatData.length)
    (hsame : ∀ d, d ≠ c → readFatEntry fatData₁ d = readFatEntry fatData d) (hold : c ∉ old)
    (hnew : c ∉ new) (hlink : link fatData₁ c = new.head?)
    (htaken : readFatEntry fatData₁ c ≠ fat32Free) :
    Rewired fatData fatData' (c :: old) (c :: new) where
  length := h.length.trans hlength
  seg := by
    refine ⟨rfl, ?_⟩
    rw [link_congr (h.same c hold hnew), hlink]
    exact h.seg
  taken := by
    intro d hd
    rcases mem_cons.mp hd with rfl | hd
    · rw [h.same d hold hnew]
      exact htaken
    · exact h.taken d hd
  freed := by
    intro d hd hout
    have hne := ne_of_not_mem_cons hout
    exact h.freed d ((mem_cons.mp hd).resolve_left hne) (not_mem_of_not_mem_cons hout)
  same := by
    intro d hd hout
    rw [h.same d (not_mem_of_not_mem_cons hd) (not_mem_of_not_mem_cons hout),
      hsame d (ne_of_not_mem_cons hd)]

theorem truncateLoop_free (hseg : Seg (link fatData) (ptr current) (c :: l) none)
    (hnodup : (c :: l).Nodup) (hinside : ∀ d ∈ c :: l, Inside fatData d)
    (hn : l.length + 1 < n) (hrounds : l.length < rounds fatData) :
    ∃ fatData', run (truncateStep newCount) n (fatData, current, newCount) = some fatData' ∧
      Rewired fatData fatData' (c :: l) [] := by
  obtain ⟨rfl, heof, hrest⟩ := seg_ptr_cons hseg
  obtain ⟨hnew, hnodup⟩ := nodup_cons.mp hnodup
  obtain ⟨hc, hl⟩ := forall_mem_cons.mp hinside
  have hgoes : ¬ isEof current ∧ ¬ isFree current ∧ 2 ≤ current :=
    ⟨heof, not_isFree_of_two_le hc.1, hc.1⟩
  let fatData₁ := writeFatEntry fatData current fat32Free
  have hl' : ∀ d ∈ l, Inside fatData₁ d := fun d hd => (hl d hd).congr length_writeFatEntry
  have hrounds' : l.length < rounds fatData₁ := by
    rw [rounds, length_writeFatEntry]
    exact hrounds
  obtain ⟨fatData', hrun, hfreed⟩ := freeLoop_spec (seg_write hrest hnew) hnodup hl' hrounds'
  have hpast : newCount < newCount + 1 := Nat.lt_succ_self _
  by_cases hnext : isEof (readFatEntry fatData current)
  · have hstep : truncateStep newCount (fatData, current, newCount) =
        some (.inl (fatData₁, readFatEntry fatData current, newCount + 1)) := by
      simp only [truncateStep, if_pos hgoes, if_pos hpast]
      exact if_neg fun h => h.2 hnext
    have hdone : truncateStep newCount (fatData₁, readFatEntry fatData current, newCount + 1) =
        some (.inr fatData₁) := if_neg fun h => h.1 hnext
    obtain rfl : l = [] := by
      cases l with
      | nil => rfl
      | cons d l => exact absurd hnext (seg_ptr_cons hrest).2.1
    obtain ⟨n, rfl⟩ : ∃ m, n = m + 1 := ⟨n - 1, by omega⟩
    refine ⟨fatData₁, ?_, (rewired_nil fatData₁).cons_freed hc.2.2 hnew⟩
    rw [run_next hstep]
    exact run_done hdone (Nat.lt_of_succ_lt_succ hn)
  · have hstep : truncateStep newCount (fatData, current, newCount) = some (.inr fatData') := by
      simp only [truncateStep, if_pos hgoes, if_pos hpast]
      rw [if_pos ⟨hpast, hnext⟩, freeClusters, hrun, map_some]
    exact ⟨fatData', run_done hstep (by omega), hfreed.cons_freed hc.2.2 hnew⟩

variable (fatData) in
theorem truncateStep_kept (heof : ¬ isEof c) (hc : 2 ≤ c) (hidx : idx + 1 ≤ newCount) :
    truncateStep newCount (fatData, c, idx) =
      some (.inl (if idx + 1 = newCount then writeFatEntry fatData c fat32Eof else fatData,
        readFatEntry fatData c, idx + 1)) := by
  have hgoes : ¬ isEof c ∧ ¬ isFree c ∧ 2 ≤ c := ⟨heof, not_isFree_of_two_le hc, hc⟩
  have hwithin : ¬ newCount < idx + 1 := Nat.not_lt.mpr hidx
  simp only [truncateStep, if_pos hgoes, if_neg hwithin]
  exact if_neg fun h => hwithin h.1

theorem truncateLoop_spec (hseg : Seg (link fatData) (ptr current) l none)
    (hnodup : l.Nodup) (hinside : ∀ c ∈ l, Inside fatData c)
    (htaken : ∀ c ∈ l, readFatEntry fatData c ≠ fat32Free) (hidx : idx ≤ newCount)
    (hn : l.length < n) (hrounds : l.length < rounds fatData) :
    ∃ fatData', run (truncateStep newCount) n (fatData, current, idx) = some fatData' ∧
      Rewired fatData fatData' l (l.take (newCount - idx)) := by
  induction l generalizing fatData current idx n with
  | nil =>
    have hdone : truncateStep newCount (fatData, current, idx) = some (.inr fatData) :=
      if_neg fun h => h.1 (isEof_of_seg_nil hseg)
    rw [take_nil]
    exact ⟨fatData, run_done hdone (Nat.zero_lt_of_lt hn), rewired_nil fatData⟩
  | cons c l ih =>
    by_cases hlast : idx = newCount
    · subst hlast
      rw [Nat.sub_self]
      exact truncateLoop_free hseg hnodup hinside hn (Nat.lt_of_succ_lt hrounds)
    · obtain ⟨rfl, heof, hrest⟩ := seg_ptr_cons hseg
      obtain ⟨hnew, hnodup⟩ := nodup_cons.mp hnodup
      obtain ⟨hc, hl⟩ := forall_mem_cons.mp hinside
      obtain ⟨hcTaken, hlTaken⟩ := forall_mem_cons.mp htaken
      have hnext : idx + 1 ≤ newCount := by omega
      obtain ⟨fatData₁, hfat₁⟩ : ∃ x, x = if idx + 1 = newCount then
        writeFatEntry fatData current fat32Eof else fatData := ⟨_, rfl⟩
      have hlength : fatData₁.length = fatData.length := by
        rw [hfat₁]
        split_ifs
        · exact length_writeFatEntry
        · rfl
      have hsame : ∀ d, d ≠ current → readFatEntry fatData₁ d = readFatEntry fatData d := by
        intro d hd
        rw [hfat₁]
        split_ifs
        · exact read_write_of_ne hd
        · rfl
      have hcurrent : link fatData₁ current = (l.take (newCount - (idx + 1))).head? ∧
          readFatEntry fatData₁ current ≠ fat32Free := by
        rw [hfat₁]
        split_ifs with hend
        · rw [hend, Nat.sub_self, link, read_write_of_lt hc.2.2 (by decide)]
          exact ⟨rfl, by decide⟩
        · have hhead : link fatData current = l.head? := by
            rw [link, hrest.head_eq, or_none]
          have hsome : newCount - (idx + 1) ≠ 0 := by omega
          rw [hhead, List.head?_take, if_neg hsome]
          exact ⟨rfl, hcTaken⟩
      have hother : ∀ d ∈ l, d ≠ current := fun d hd heq => hnew (heq ▸ hd)
      obtain ⟨n, rfl⟩ : ∃ m, n = m + 1 := ⟨n - 1, by omega⟩
      have hrest₁ := hrest.congr fun d hd => link_congr (hsame d (hother d hd))
      have hinside₁ : ∀ d ∈ l, Inside fatData₁ d := fun d hd => (hl d hd).congr hlength
      have htaken₁ : ∀ d ∈ l, readFatEntry fatData₁ d ≠ fat32Free := by
        intro d hd
        rw [hsame d (hother d hd)]
        exact hlTaken d hd
      have hrounds₁ : l.length < rounds fatData₁ := by
        rw [rounds, hlength]
        exact Nat.lt_of_succ_lt hrounds
      obtain ⟨fatData', hrun, hcut⟩ :=
        ih hrest₁ hnodup hinside₁ htaken₁ hnext (Nat.lt_of_succ_lt_succ hn) hrounds₁
      have hcount : newCount - idx = newCount - (idx + 1) + 1 := by omega
      rw [hcount]
      refine ⟨fatData', ?_, hcut.cons_kept hlength hsame hnew (fun h => hnew (mem_of_mem_take h))
        hcurrent.1 hcurrent.2⟩
      have hstep := truncateStep_kept fatData heof hc.1 hnext
      rw [run_next hstep, ← hfat₁]
      exact hrun

end Truncating

section Walking

variable {fatData : FatData} {c : ℕ} {l : List ℕ}

theorem lastLoop_spec (hseg : Seg (link fatData) (some c) (c :: l) none)
    (hinside : ∀ d ∈ c :: l, Inside fatData d) {n : ℕ} (hn : l.length < n) :
    run (lastStep fatData) n c = some (l.getLastD c) := by
  rw [← append_nil l] at hseg
  have hlast := isEof_of_seg_nil hseg.from_last.2
  refine hseg.run_walk (f := id) (fun d hd e he hnext => ?_)
    (by simp only [id, lastStep, if_pos hlast, ite_self]) hn
  have hin := hinside d hd
  have hgoes : ¬ isEof d ∧ ¬ isFree d :=
    ⟨Nat.not_le_of_lt hin.2.1, not_isFree_of_two_le hin.1⟩
  have hlink : Seg (link fatData) (ptr (readFatEntry fatData d)) [e] _ := ⟨hnext, rfl⟩
  obtain ⟨hread, heof, -⟩ := seg_ptr_cons hlink
  simp only [id, lastStep, if_pos hgoes, if_neg heof]
  rw [hread]

end Walking

section Linking

variable {fatData fatData' : FatData} {prev : ℕ} {l : List ℕ}

/-- A table in which free clusters have been linked behind one. -/
structure Grown (fatData fatData' : FatData) (prev : ℕ) (added : List ℕ) : Prop extends
    Rewired fatData fatData' [] (prev :: added) where
  free : ∀ c ∈ added, readFatEntry fatData c = fat32Free

theorem grown_nil (hprev : prev * 4 + 4 ≤ fatData.length) :
    Grown fatData (writeFatEntry fatData prev fat32Eof) prev [] where
  length := length_writeFatEntry
  seg := by
    refine ⟨rfl, ?_⟩
    rw [link, read_write_of_lt hprev (by decide)]
    exact rfl
  taken := by
    intro c hc
    rw [mem_singleton.mp hc, read_write_of_lt hprev (by decide)]
    decide
  freed := fun _ hc => absurd hc not_mem_nil
  same := fun c _ hc => read_write_of_ne (ne_of_not_mem_cons hc)
  free := fun _ hc => absurd hc not_mem_nil

theorem Grown.cons {cluster : ℕ} {added : List ℕ} (hprev : prev * 4 + 4 ≤ fatData.length)
    (hcluster : Inside fatData cluster) (hfree : readFatEntry fatData cluster = fat32Free)
    (hne : prev ≠ cluster) (h : Grown (writeFatEntry fatData prev cluster) fatData' cluster added) :
    Grown fatData fatData' prev (cluster :: added) := by
  have hlt : cluster < 2 ^ 28 := Nat.lt_trans hcluster.2.1 (by decide)
  have hlinked := read_write_of_lt hprev hlt
  have hnew : prev ∉ added := by
    intro hmem
    have hpos := hcluster.1
    have hzero := hlinked.symm.trans (h.free prev hmem)
    rw [fat32Free] at hzero
    omega
  have hread : readFatEntry fatData' prev = cluster := by
    rw [h.same prev not_mem_nil fun hmem => (mem_cons.mp hmem).elim hne hnew, hlinked]
  refine ⟨⟨h.length.trans length_writeFatEntry, ⟨rfl, ?_⟩, ?_,
    fun _ hc => absurd hc not_mem_nil, ?_⟩, ?_⟩
  · rw [link, hread, ptr_of_lt hcluster.2.1]
    exact h.seg
  · intro c hc
    rcases mem_cons.mp hc with rfl | hc
    · have hpos := hcluster.1
      rw [fat32Free]
      omega
    · exact h.taken c hc
  · intro c hnil hc
    rw [h.same c hnil (not_mem_of_not_mem_cons hc), read_write_of_ne (ne_of_not_mem_cons hc)]
  · intro c hc
    rcases mem_cons.mp hc with rfl | hc
    · exact hfree
    · have hother : c ≠ prev := fun heq => hnew (heq ▸ hc)
      rw [← h.free c hc, read_write_of_ne hother]

/-- The search links some free clusters behind the given one, or finds none. The search may pass the
given one if it is not free. -/
theorem linkFree_spec (additional added : ℕ) (hnodup : l.Nodup)
    (hnew : prev ∈ l → readFatEntry fatData prev ≠ fat32Free)
    (hprev : prev * 4 + 4 ≤ fatData.length) (hinside : ∀ c ∈ l, Inside fatData c) :
    (added = 0 ∧ linkFree additional l fatData prev added = fatData) ∨
      ∃ clusters, clusters.Sublist l ∧
        Grown fatData (linkFree additional l fatData prev added) prev clusters := by
  fun_induction linkFree additional l fatData prev added with
  | case1 fatData prev added hadded => exact .inr ⟨[], Sublist.slnil, grown_nil hprev⟩
  | case2 fatData prev added hadded => exact .inl ⟨by omega, rfl⟩
  | case3 cluster rest fatData prev added hfree linked hdone =>
    have hcluster := hinside cluster mem_cons_self
    have hne : prev ≠ cluster := fun heq => hnew (heq ▸ mem_cons_self) (heq ▸ hfree)
    refine .inr ⟨[cluster], singleton_sublist.mpr mem_cons_self, ?_⟩
    exact (grown_nil (hcluster.2.2.trans_eq length_writeFatEntry.symm)).cons
      hprev hcluster hfree hne
  | case4 cluster rest fatData prev added hfree linked hdone ih =>
    obtain ⟨hcluster, hrest⟩ := forall_mem_cons.mp hinside
    obtain ⟨hfresh, hnodup⟩ := nodup_cons.mp hnodup
    have hne : prev ≠ cluster := fun heq => hnew (heq ▸ mem_cons_self) (heq ▸ hfree)
    have hlinked : ∀ c ∈ rest, Inside linked c :=
      fun c hc => (hrest c hc).congr length_writeFatEntry
    rcases ih hnodup (absurd · hfresh) (hcluster.2.2.trans_eq length_writeFatEntry.symm)
      hlinked with ⟨hzero, -⟩ | ⟨clusters, hsub, hgrown⟩
    · exact absurd hzero (Nat.succ_ne_zero added)
    · exact .inr ⟨cluster :: clusters, hsub.cons_cons cluster,
        hgrown.cons hprev hcluster hfree hne⟩
  | case5 cluster rest fatData prev added hfree ih =>
    rcases ih (nodup_cons.mp hnodup).2 (fun hmem => hnew (mem_cons_of_mem cluster hmem)) hprev
      (forall_mem_cons.mp hinside).2 with hnone | ⟨clusters, hsub, hgrown⟩
    · exact .inl hnone
    · exact .inr ⟨clusters, hsub.cons cluster, hgrown⟩

theorem allocateFree_some (count first allocated : ℕ) :
    allocateFree count l fatData (some first) prev allocated =
      (some first, linkFree count l fatData prev allocated) := by
  induction l generalizing fatData prev allocated with
  | nil => rfl
  | cons cluster rest ih =>
    simp only [allocateFree, linkFree, isNone_some, Bool.false_eq_true, if_false,
      some_or, ih]
    split_ifs <;> rfl

theorem allocateFree_none (count : ℕ) (hnodup : l.Nodup) (hinside : ∀ c ∈ l, Inside fatData c) :
    allocateFree count l fatData none 0 0 = (none, fatData) ∨
      ∃ first clusters fatData', allocateFree count l fatData none 0 0 = (some first, fatData') ∧
        (first :: clusters).Sublist l ∧ readFatEntry fatData first = fat32Free ∧
        Grown fatData fatData' first clusters := by
  induction l with
  | nil => exact .inl rfl
  | cons cluster rest ih =>
    obtain ⟨hcluster, hrest⟩ := forall_mem_cons.mp hinside
    obtain ⟨hfresh, hnodup⟩ := nodup_cons.mp hnodup
    simp only [allocateFree, isNone_none, if_true, none_or]
    split_ifs with hfree hdone
    · exact .inr ⟨cluster, [], _, rfl, singleton_sublist.mpr mem_cons_self, hfree,
        grown_nil hcluster.2.2⟩
    · rw [allocateFree_some]
      rcases linkFree_spec count (0 + 1) hnodup (absurd · hfresh) hcluster.2.2 hrest with
        ⟨hzero, -⟩ | ⟨clusters, hsub, hgrown⟩
      · exact absurd hzero (Nat.succ_ne_zero 0)
      · exact .inr ⟨cluster, clusters, _, rfl, hsub.cons_cons cluster, hfree, hgrown⟩
    · rcases ih hnodup hrest with hnone | ⟨first, clusters, fatData', heq, hsub, hfirst, hgrown⟩
      · exact .inl hnone
      · exact .inr ⟨first, clusters, fatData', heq, hsub.cons cluster, hfirst, hgrown⟩

end Linking

section WholeChains

variable {fatData : FatData} {head : ℕ} {chain : List ℕ}

/-- The chain from a cluster: it has an end, no cycle, and all its entries in the table. -/
structure WellFormed (fatData : FatData) (head : ℕ) (chain : List ℕ) : Prop where
  seg : Seg (link fatData) (ptr head) chain none
  nodup : chain.Nodup
  inside : ∀ c ∈ chain, Inside fatData c

namespace WellFormed

variable (h : WellFormed fatData head chain)
include h

theorem length_lt : chain.length < rounds fatData := by
  have hsubset : chain ⊆ range (fatData.length / 4) := by
    intro c hc
    have hroom := (h.inside c hc).2.2
    exact mem_range.mpr (by omega)
  have hlength := (subperm_of_subset h.nodup hsubset).length_le
  rw [length_range] at hlength
  exact Nat.lt_succ_of_le (Nat.le_succ_of_le hlength)

theorem taken {c : ℕ} (hc : c ∈ chain) : readFatEntry fatData c ≠ fat32Free := by
  intro hfree
  obtain ⟨before, after, rfl⟩ := append_of_mem hc
  have hnext := h.seg.next_eq
  rw [link, hfree] at hnext
  have hzero := (h.inside fat32Free (mem_append_right before
    (mem_cons_of_mem c (mem_of_mem_head? hnext.symm)))).1
  exact absurd hzero (by decide)

theorem free :
    ∃ fatData', freeClusters fatData head = some fatData' ∧ Rewired fatData fatData' chain [] :=
  freeLoop_spec h.seg h.nodup h.inside h.length_lt

theorem truncate (newCount : ℕ) :
    ∃ fatData', truncateChain fatData head newCount = some fatData' ∧
      Rewired fatData fatData' chain (chain.take newCount) :=
  truncateLoop_spec h.seg h.nodup h.inside (fun _ => h.taken) (Nat.zero_le newCount) h.length_lt
    h.length_lt

end WellFormed

/-- The entries in use, of which a round of the freeing loop clears one. -/
def inUse (fatData : FatData) : Finset ℕ :=
  (Finset.range (fatData.length / 4)).filter fun c => readFatEntry fatData c ≠ fat32Free

theorem inUse_write_free {c : ℕ} (hc : c * 4 + 4 ≤ fatData.length) :
    inUse (writeFatEntry fatData c fat32Free) = (inUse fatData).erase c := by
  ext d
  by_cases hd : d = c
  · subst hd
    simp [inUse, read_write_of_lt hc (v := fat32Free) (by decide)]
  · simp [inUse, read_write_of_ne hd, hd]

def roundsLeft (s : FatData × ℕ) : ℕ :=
  if isEof s.2 ∨ isFree s.2 then 0 else (inUse s.1).card + 1

/-- A round that clears no entry comes to a free entry, or past the table, and is the last. -/
theorem freeStep_lowers (s : FatData × ℕ) : ∃ next, freeStep s = some next ∧
    ∀ s', next = .inl s' → roundsLeft s' < roundsLeft s := by
  obtain ⟨fatData, c⟩ := s
  rw [freeStep]
  split_ifs with hgoes
  · refine ⟨_, rfl, ?_⟩
    rintro s' ⟨⟩
    have hleft : roundsLeft (fatData, c) = (inUse fatData).card + 1 :=
      if_neg (not_or.mpr hgoes)
    rw [hleft, roundsLeft]
    split_ifs with hnext
    · exact Nat.succ_pos _
    · rw [not_or] at hnext
      have hc : c * 4 + 4 ≤ fatData.length := by
        by_contra hpast
        rw [readFatEntry, if_pos (Nat.lt_of_not_le hpast)] at hnext
        exact hnext.1 (Nat.le_refl _)
      have hmem : c ∈ inUse fatData :=
        Finset.mem_filter.mpr ⟨Finset.mem_range.mpr (by omega), hnext.2⟩
      rw [inUse_write_free hc]
      exact Nat.succ_lt_succ (Finset.card_erase_lt_of_mem hmem)
  · exact ⟨_, rfl, fun s' hs' => by cases hs'⟩

theorem exists_freeClusters (fatData : FatData) (startCluster : ℕ) :
    ∃ fatData', freeClusters fatData startCluster = some fatData' := by
  refine exists_run freeStep_lowers ?_
  have hcard : (inUse fatData).card ≤ fatData.length / 4 :=
    (Finset.card_filter_le _ _).trans_eq (Finset.card_range _)
  rw [roundsLeft]
  split_ifs
  · exact Nat.succ_pos _
  · exact Nat.succ_lt_succ (Nat.lt_succ_of_le hcard)

/-- `truncate_chain` keeps exactly the first clusters of every chain, frees the others and changes
no other entry; `free_clusters` returns on every table. -/
theorem truncateChain_takes (h : WellFormed fatData head chain) (newCount : ℕ)
    (anyTable : FatData) (startCluster : ℕ) :
    (∃ fatData', truncateChain fatData head newCount = some fatData' ∧
      Rewired fatData fatData' chain (chain.take newCount)) ∧
    ∃ fatData', freeClusters anyTable startCluster = some fatData' :=
  ⟨h.truncate newCount, exists_freeClusters anyTable startCluster⟩

/-- A chain of two clusters, and a table that links a cluster to itself. -/
theorem truncateChain_takes_pair :
    let fatData := [2, 3, 3, fat32Eof].flatMap (toLe 4)
    (∃ fatData', truncateChain fatData 2 1 = some fatData' ∧
      Rewired fatData fatData' [2, 3] [2]) ∧
    ∃ fatData', freeClusters ([0, 0, 2].flatMap (toLe 4)) 2 = some fatData' := by
  intro fatData
  have hchain : WellFormed fatData 2 [2, 3] :=
    ⟨by rw [Seg, Seg, Seg]; decide +kernel, by decide, by unfold Inside; decide +kernel⟩
  exact truncateChain_takes hchain 1 _ 2

end WholeChains

end EchOS.Fs.Fat
