import EchOS.Memory.RefCacheFrame

/-! What the operations of the reference cache do to the total count of a frame: its count
in the frame table plus the deltas all CPUs hold for it. -/

namespace EchOS.Memory

open Finset List

theorem RefCacheCpuState.mem_review_enqueueReview {st : RefCacheCpuState} {phys epoch : ℕ}
    {e : ReviewEntry} (h : e ∈ (st.enqueueReview phys epoch).review) :
    e ∈ st.review ∨ e.phys = phys := by
  unfold enqueueReview at h
  split_ifs at h
  · rcases mem_append.mp h with h | h
    · exact .inl h
    · rw [List.mem_singleton.mp h]
      exact .inr rfl
  · exact .inl h

namespace RefCache

variable {s s' s'' : RefCache} {c : Fin maxCpuSlots} {phys p : ℕ} {net d : ℤ} {globalEpoch : ℕ}

def cachedTotal (s : RefCache) (phys : ℕ) : ℤ := ∑ c, (s.cpus c).cachedDelta phys

/-- The references a frame has, flushed or still cached. -/
def total (s : RefCache) (phys : ℕ) : ℤ := s.table.refcount phys + s.cachedTotal phys

theorem SameCaches.cachedTotal (h : SameCaches s s') (p : ℕ) : s'.cachedTotal p = s.cachedTotal p :=
  sum_congr rfl fun c _ => h.cachedDelta c p

theorem Moves.total (h : Moves s s' p c d net) :
    s'.total p = s.total p + net + (max (s.table.refcount p + d) 0 - (s.table.refcount p + d)) := by
  have hsum : s'.cachedTotal p = s.cachedTotal p - d + net := by
    have hsplit (f : Fin maxCpuSlots → ℤ) := add_sum_erase univ f (mem_univ c)
    have hothers : ∑ c' ∈ univ.erase c, (s'.cpus c').cachedDelta p =
        ∑ c' ∈ univ.erase c, (s.cpus c').cachedDelta p :=
      sum_congr rfl fun c' hc' => h.others c' (ne_of_mem_erase hc')
    have hbefore := hsplit fun c' => (s.cpus c').cachedDelta p
    have hafter := hsplit fun c' => (s'.cpus c').cachedDelta p
    have hcached := h.cached
    unfold RefCache.cachedTotal
    omega
  rw [RefCache.total, RefCache.total, h.refcount]
  omega

theorem Moves.total_le (h : Moves s s' p c d net) : s.total p + net ≤ s'.total p := by
  have htotal := h.total
  omega

/-- Only frames of the reference cache are in the table, and frame 0 is never reviewed. -/
structure Sound (s : RefCache) : Prop where
  refcacheOnly : s.table.RefcacheOnly
  reviewed : ∀ c, ∀ e ∈ (s.cpus c).review, frameKey e.phys ≠ 0

theorem Sound.refcacheAt (h : s.Sound) (p : ℕ) : s.RefcacheAt p := h.refcacheOnly _

theorem Sound.setCpu (h : s.Sound) (c : Fin maxCpuSlots) (st : RefCacheCpuState)
    (hst : ∀ e ∈ st.review, frameKey e.phys ≠ 0) : (s.setCpu c st).Sound := by
  refine ⟨h.refcacheOnly, ?_⟩
  intro c' e he
  by_cases hc : c' = c
  · subst hc
    rw [cpus_setCpu_self] at he
    exact hst e he
  · rw [cpus_setCpu_of_ne _ _ hc] at he
    exact h.reviewed c' e he

def Keeps (s s' : RefCache) : Prop := s'.Sound ∧ s'.drainList = s.drainList

theorem keeps_evict (h : s.Sound) (c : Fin maxCpuSlots) (slot : Fin refcacheSize) :
    Keeps s (s.evict c slot) := by
  unfold evict
  dsimp only
  split_ifs with hold
  · obtain ⟨order, cnt, hadd⟩ := s.table.exists_refcacheGlobalAdd
      ((s.cpus c).cache slot).phys ((s.cpus c).cache slot).delta
    have hsound : Sound { s with
        table := (s.table.refcacheGlobalAdd ((s.cpus c).cache slot).phys
          ((s.cpus c).cache slot).delta).2 } :=
      ⟨hadd ▸ h.refcacheOnly.insert _ rfl, h.reviewed⟩
    unfold flushDelta
    dsimp only
    split_ifs
    · refine ⟨hsound.setCpu c _ fun r hr => ?_, rfl⟩
      rcases RefCacheCpuState.mem_review_enqueueReview hr with hr | hr
      · exact h.reviewed c r hr
      · rw [hr, ((s.cpus c).slotted slot hold.1).1]
        exact hold.1
    · exact ⟨hsound, rfl⟩
  · exact ⟨h, rfl⟩

theorem keeps_flush (h : s.Sound) (c : Fin maxCpuSlots) : Keeps s (s.flush c) := by
  unfold flush
  induction finRange refcacheSize generalizing s with
  | nil => exact ⟨h, rfl⟩
  | cons slot slots ih =>
    have hstep : Keeps s (s.flushSlot c slot) := by
      unfold flushSlot
      split_ifs
      · exact ⟨h, rfl⟩
      · obtain ⟨hs, hdrain⟩ := keeps_evict h c slot
        exact ⟨hs.setCpu c _ (hs.reviewed c), hdrain⟩
    obtain ⟨hs, hdrain⟩ := ih hstep.1
    exact ⟨hs, hdrain.trans hstep.2⟩

/-- Flushing the slot loses nothing to saturation of the frame's count. -/
def Fits (s : RefCache) (c : Fin maxCpuSlots) (slot : Fin refcacheSize) : Prop :=
  s.table.refcount ((s.cpus c).cache slot).phys + ((s.cpus c).cache slot).delta ≤ u32Max

theorem Fits.cachedDelta_le (h : s.Fits c (cacheSlot p)) (hne : (s.cpus c).cachedDelta p ≠ 0) :
    s.table.refcount p + (s.cpus c).cachedDelta p ≤ u32Max := by
  have hheld : ((s.cpus c).cache (cacheSlot p)).phys = frameKey p := by
    by_contra hother
    exact hne (if_neg hother)
  have hcount : s.table.refcount ((s.cpus c).cache (cacheSlot p)).phys = s.table.refcount p := by
    rw [hheld, FrameTable.refcount, FrameTable.refcount, frameKey_frameKey]
  rw [RefCacheCpuState.cachedDelta, if_pos hheld, ← hcount]
  exact h

section

variable (h : s.Sound) (hfit : s.Fits c (cacheSlot phys))
include h hfit

/-- The body of `inc` and `dec` changes the total of the frame by at least the first delta,
if that is the least change of a cached delta, and lowers no other total. -/
theorem adjust_spec {next : ℤ → ℤ} {first : ℤ}
    (hnext : ((s.cpus c).cache (cacheSlot phys)).delta + first ≤
      next ((s.cpus c).cache (cacheSlot phys)).delta) :
    (s.adjust c phys next first).Sound ∧
      (s.adjust c phys next first).drainList = s.drainList ∧
      ∀ p, frameKey p ≠ 0 →
        s.total p + (if frameKey phys = frameKey p then first else 0) ≤
          (s.adjust c phys next first).total p := by
  have hkeeps : Keeps s (s.adjust c phys next first) := by
    unfold adjust
    dsimp only
    split_ifs
    · exact ⟨h.setCpu c _ (h.reviewed c), rfl⟩
    · obtain ⟨hs, hdrain⟩ := keeps_evict h c (cacheSlot phys)
      exact ⟨hs.setCpu c _ (hs.reviewed c), hdrain⟩
  refine ⟨hkeeps.1, hkeeps.2, fun p hp => ?_⟩
  have hroom : s.displaced c phys p ≠ 0 → s.table.refcount p + s.displaced c phys p ≤ u32Max := by
    unfold displaced
    split_ifs with hsame
    · exact Fits.cachedDelta_le (hsame.1 ▸ hfit)
    · exact fun hne => absurd rfl hne
  refine le_trans (Int.add_le_add_left ?_ _)
    (adjust_moves next first hp (h.refcacheAt p) hroom).total_le
  split_ifs with hkey hheld
  · rw [← cacheSlot_frameKey phys, hkey, cacheSlot_frameKey] at hnext
    rw [RefCacheCpuState.cachedDelta, if_pos hheld]
    omega
  · exact le_rfl
  · exact le_rfl

theorem inc_spec (hd : ((s.cpus c).cache (cacheSlot phys)).delta < i32Max) :
    (s.inc c phys).Sound ∧ (s.inc c phys).drainList = s.drainList ∧
      ∀ p, frameKey p ≠ 0 →
        s.total p + (if frameKey phys = frameKey p then 1 else 0) ≤ (s.inc c phys).total p :=
  adjust_spec h hfit (le_min le_rfl hd)

theorem dec_spec :
    (s.dec c phys).Sound ∧ (s.dec c phys).drainList = s.drainList ∧
      ∀ p, frameKey p ≠ 0 →
        s.total p + (if frameKey phys = frameKey p then -1 else 0) ≤ (s.dec c phys).total p :=
  adjust_spec h hfit (le_max_left _ _)

end

theorem flush_spec (h : s.Sound) (hfit : ∀ slot, s.Fits c slot) :
    (s.flush c).Sound ∧ (s.flush c).drainList = s.drainList ∧
      ∀ p, frameKey p ≠ 0 → s.total p ≤ (s.flush c).total p := by
  obtain ⟨hs, hdrain⟩ := keeps_flush h c
  refine ⟨hs, hdrain, fun p hp => ?_⟩
  have hle := (flush_moves hp (h.refcacheAt p) (hfit (cacheSlot p)).cachedDelta_le).total_le
  rwa [add_zero] at hle

/-- The entry has waited two epochs for its review. -/
def Due (globalEpoch : ℕ) (e : ReviewEntry) : Prop := 2 ≤ epochsPassed globalEpoch e.addedEpoch

instance (globalEpoch : ℕ) (e : ReviewEntry) : Decidable (Due globalEpoch e) :=
  inferInstanceAs (Decidable (2 ≤ _))

variable {Q : ℕ → Prop}

theorem reviewRound_spec (h : s.Sound) (phys : ℕ) (drainList : List ℕ)
    (st : RefCacheCpuState) (hcache : st.cache = (s.cpus c).cache)
    (hreview : ∀ e ∈ st.review, e ∈ (s.cpus c).review ∨ (¬ Due globalEpoch e ∧ frameKey e.phys ≠ 0))
    (hQ : ∀ e ∈ (s.cpus c).review, Due globalEpoch e → s.table.refcount e.phys = 0 → Q e.phys) :
    let s' := ({ s with table := (s.table.refcacheTryRemove phys).2, drainList }).setCpu c st
    s'.Sound ∧ (∀ p, s'.total p = s.total p) ∧
      ∀ e ∈ (s'.cpus c).review, Due globalEpoch e → s'.table.refcount e.phys = 0 → Q e.phys := by
  intro s'
  have hcount : ∀ p, s'.table.refcount p = s.table.refcount p :=
    s.table.refcount_refcacheTryRemove phys
  have hsame : SameCaches s s' := sameCaches_setCpu s c st hcache
  have hsound : Sound { s with table := (s.table.refcacheTryRemove phys).2, drainList } :=
    ⟨h.refcacheOnly.refcacheTryRemove phys, h.reviewed⟩
  refine ⟨hsound.setCpu c st ?_, ?_, ?_⟩
  · intro e he
    rcases hreview e he with he | he
    · exact h.reviewed c e he
    · exact he.2
  · intro p
    rw [total, total, hcount, hsame.cachedTotal]
  · intro e he hdue hz
    rw [cpus_setCpu_self] at he
    rw [hcount] at hz
    rcases hreview e he with he | he
    · exact hQ e he hdue hz
    · exact absurd hdue he.1

/-- The review loop changes no count and no cache, and drains only frames that are due and
have count zero in the table. -/
theorem reviewFrom_spec (h : s.Sound) (rounds i : ℕ)
    (hQ : ∀ e ∈ (s.cpus c).review, Due globalEpoch e → s.table.refcount e.phys = 0 → Q e.phys) :
    let s' := s.reviewFrom c globalEpoch rounds i
    s'.Sound ∧ (∀ p, s'.total p = s.total p) ∧
      ∃ drained, s'.drainList = s.drainList ++ drained ∧ ∀ p ∈ drained, Q p := by
  induction rounds generalizing s i with
  | zero => exact ⟨h, fun _ => rfl, [], by simp [reviewFrom], by simp⟩
  | succ rounds ih =>
    rw [reviewFrom]
    cases he : (s.cpus c).review[i]? with
    | none => exact ⟨h, fun _ => rfl, [], by simp, by simp⟩
    | some e =>
      have hmem : e ∈ (s.cpus c).review := mem_of_getElem? he
      have hremove : ∀ r ∈ ((s.cpus c).removeReview i).review,
          r ∈ (s.cpus c).review ∨ (¬ Due globalEpoch r ∧ frameKey r.phys ≠ 0) :=
        fun r hr => .inl (SwapRemove.mem_of_mem_swapRemove hr)
      dsimp only
      split_ifs with hdue hfreed hdirty
      · exact ih h (i + 1) hQ
      · obtain ⟨hs, htotal, hQ'⟩ := reviewRound_spec h e.phys (s.drainList ++ [e.phys])
          ((s.cpus c).removeReview i) rfl hremove hQ
        obtain ⟨hs', htotal', drained, hdrain, hall⟩ := ih hs i hQ'
        have hz : s.table.refcount e.phys = 0 := by
          obtain hr | ⟨hz, -⟩ := s.table.refcacheTryRemove_cases e.phys
          · rw [hr] at hfreed
            simp at hfreed
          · exact hz
        refine ⟨hs', fun p => (htotal' p).trans (htotal p), e.phys :: drained, ?_, ?_⟩
        · exact hdrain.trans (append_assoc _ _ _)
        · exact forall_mem_cons.mpr ⟨hQ e hmem (Nat.le_of_not_lt hdue) hz, hall⟩
      · have hrenew : ∀ r ∈ ((s.cpus c).renewReview i e.phys globalEpoch).review,
            r ∈ (s.cpus c).review ∨ (¬ Due globalEpoch r ∧ frameKey r.phys ≠ 0) := by
          intro r hr
          rcases mem_or_eq_of_mem_set hr with hr | rfl
          · exact .inl hr
          · exact .inr ⟨by simp [Due, epochsPassed], h.reviewed c e hmem⟩
        obtain ⟨hs, htotal, hQ'⟩ := reviewRound_spec h e.phys s.drainList
          ((s.cpus c).renewReview i e.phys globalEpoch) rfl hrenew hQ
        obtain ⟨hs', htotal', hdrain⟩ := ih hs (i + 1) hQ'
        exact ⟨hs', fun p => (htotal' p).trans (htotal p), hdrain⟩
      · obtain ⟨hs, htotal, hQ'⟩ := reviewRound_spec h e.phys s.drainList
          ((s.cpus c).removeReview i) rfl hremove hQ
        obtain ⟨hs', htotal', hdrain⟩ := ih hs i hQ'
        exact ⟨hs', fun p => (htotal' p).trans (htotal p), hdrain⟩

theorem reviewTick_spec (h : s.Sound)
    (hQ : ∀ e ∈ (s.cpus c).review, Due s.globalEpoch e → s.table.refcount e.phys = 0 → Q e.phys) :
    (s.reviewTick c).Sound ∧ (∀ p, (s.reviewTick c).total p = s.total p) ∧
      ∃ drained, (s.reviewTick c).drainList = s.drainList ++ drained ∧ ∀ p ∈ drained, Q p := by
  have hs : (s.advanceEpoch c).Sound :=
    ⟨h.refcacheOnly, (h.setCpu c { s.cpus c with epoch := s.globalEpoch } (h.reviewed c)).reviewed⟩
  have hsame : SameCaches s (s.advanceEpoch c) :=
    sameCaches_setCpu s c { s.cpus c with epoch := s.globalEpoch } rfl
  have hreview : ((s.advanceEpoch c).cpus c).review = (s.cpus c).review := by
    simp [advanceEpoch]
  obtain ⟨hs', htotal, hdrain⟩ :=
    reviewFrom_spec hs ((s.advanceEpoch c).cpus c).review.length 0 (hreview ▸ hQ)
  refine ⟨hs', ?_, hdrain⟩
  intro p
  refine (htotal p).trans ?_
  rw [total, hsame.cachedTotal]
  rfl

/-- A tick lowers no total and drains only frames whose count is zero after its flush. -/
theorem tick_spec (h : s.Sound) (hfit : ∀ slot, s.Fits c slot)
    (hQ : ∀ e ∈ ((s.flush c).cpus c).review, Due (s.flush c).globalEpoch e →
      (s.flush c).table.refcount e.phys = 0 → Q e.phys) :
    (s.tick c).Sound ∧ (∀ p, frameKey p ≠ 0 → s.total p ≤ (s.tick c).total p) ∧
      ∃ drained, (s.tick c).drainList = s.drainList ++ drained ∧ ∀ p ∈ drained, Q p := by
  obtain ⟨hs, hdrain, htotal⟩ := flush_spec h hfit
  obtain ⟨hs', htotal', drained, hdrained, hall⟩ := reviewTick_spec hs hQ
  refine ⟨hs', ?_, drained, ?_, hall⟩
  · intro p hp
    exact (htotal p hp).trans_eq (htotal' p).symm
  · rw [← hdrain]
    exact hdrained

end RefCache

end EchOS.Memory
