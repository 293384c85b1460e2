import EchOS.Memory.RefCache

/-! What the operations of the reference cache do to one frame: to its count in the frame table
and to the deltas that the CPUs hold for it. Other frames may have any entries. -/

namespace EchOS.Memory

open RefCacheCpuState FrameTable List

namespace RefCacheCpuState

@[simp] theorem cachedDelta_new (p : ℕ) : new.cachedDelta p = 0 := by
  exact ite_self 0

variable {slot : Fin refcacheSize} {p : ℕ}

theorem cachedDelta_of_phys {st : RefCacheCpuState}
    (hp : frameKey p ≠ 0) (h : (st.cache slot).phys = frameKey p) :
    slot = cacheSlot p ∧ st.cachedDelta p = (st.cache slot).delta := by
  have hslot : cacheSlot (st.cache slot).phys = slot := (st.slotted slot (h ▸ hp)).2
  rw [h, cacheSlot_frameKey] at hslot
  subst hslot
  exact ⟨rfl, by simp [cachedDelta, h]⟩

variable (st : RefCacheCpuState)

theorem cachedDelta_setDelta (slot : Fin refcacheSize) (delta : ℤ) (hp : frameKey p ≠ 0) :
    (st.setDelta slot delta).cachedDelta p =
      if (st.cache slot).phys = frameKey p then delta else st.cachedDelta p := by
  split_ifs with h
  · obtain ⟨rfl, -⟩ := cachedDelta_of_phys hp h
    simp [cachedDelta, setDelta, h]
  · by_cases hs : cacheSlot p = slot
    · subst hs
      simp [cachedDelta, setDelta, h]
    · simp [cachedDelta, setDelta, hs]

def heldAt (slot : Fin refcacheSize) (p : ℕ) : ℤ :=
  if (st.cache slot).phys = frameKey p then (st.cache slot).delta else 0

theorem heldAt_cacheSlot (p : ℕ) : st.heldAt (cacheSlot p) p = st.cachedDelta p := rfl

theorem heldAt_of_ne {st : RefCacheCpuState}
    (hp : frameKey p ≠ 0) (h : slot ≠ cacheSlot p) : st.heldAt slot p = 0 :=
  if_neg fun heq => h (cachedDelta_of_phys hp heq).1

theorem cachedDelta_sub_heldAt (slot : Fin refcacheSize) (hp : frameKey p ≠ 0) :
    st.cachedDelta p - st.heldAt slot p = if cacheSlot p = slot then 0 else st.cachedDelta p := by
  split_ifs with hsame
  · rw [← hsame, heldAt_cacheSlot, sub_self]
  · rw [heldAt_of_ne hp (Ne.symm hsame), sub_zero]

theorem cachedDelta_setDelta_zero (slot : Fin refcacheSize) (hp : frameKey p ≠ 0) :
    (st.setDelta slot 0).cachedDelta p = st.cachedDelta p - st.heldAt slot p := by
  rw [cachedDelta_setDelta _ _ _ hp, heldAt]
  split_ifs with h
  · rw [(cachedDelta_of_phys hp h).2, sub_self]
  · rw [sub_zero]

theorem cachedDelta_claim (phys p : ℕ) (delta : ℤ) : (st.claim phys delta).cachedDelta p =
      if cacheSlot p = cacheSlot phys then if frameKey phys = frameKey p then delta else 0
      else st.cachedDelta p := by
  by_cases hs : cacheSlot p = cacheSlot phys <;> simp [cachedDelta, claim, hs]

@[simp] theorem cache_enqueueReview (phys epoch : ℕ) :
    (st.enqueueReview phys epoch).cache = st.cache := by
  unfold enqueueReview
  split_ifs <;> rfl

theorem cachedDelta_congr {st st' : RefCacheCpuState} (h : st.cache = st'.cache) (p : ℕ) :
    st.cachedDelta p = st'.cachedDelta p := by
  unfold cachedDelta
  rw [h]

end RefCacheCpuState

namespace RefCache

variable (s : RefCache)

@[simp] theorem table_setCpu (c : Fin maxCpuSlots) (st : RefCacheCpuState) :
    (s.setCpu c st).table = s.table := rfl

@[simp] theorem cpus_setCpu_self (c : Fin maxCpuSlots) (st : RefCacheCpuState) :
    (s.setCpu c st).cpus c = st := if_pos rfl

theorem cpus_setCpu_of_ne {c c' : Fin maxCpuSlots} (st : RefCacheCpuState)
    (h : c' ≠ c) : (s.setCpu c st).cpus c' = s.cpus c' := if_neg h

def SameCaches (s s' : RefCache) : Prop := ∀ c, (s'.cpus c).cache = (s.cpus c).cache

theorem SameCaches.cachedDelta {s s' : RefCache} (h : SameCaches s s') (c : Fin maxCpuSlots)
    (p : ℕ) : (s'.cpus c).cachedDelta p = (s.cpus c).cachedDelta p :=
  cachedDelta_congr (h c) p

theorem sameCaches_setCpu (c : Fin maxCpuSlots) (st : RefCacheCpuState)
    (h : st.cache = (s.cpus c).cache) : SameCaches s (s.setCpu c st) := by
  intro c'
  by_cases hc : c' = c
  · subst hc
    rw [cpus_setCpu_self, h]
  · rw [cpus_setCpu_of_ne _ _ hc]

section Frame

variable {s s' s'' : RefCache} {c : Fin maxCpuSlots} {slot : Fin refcacheSize} {phys p : ℕ}
  {d net : ℤ}

def RefcacheAt (s : RefCache) (p : ℕ) : Prop :=
  ∀ e, s.table.entries (frameKey p) = some e → e.flags = .refcache

/-- One operation, seen from a frame: the CPU moves a cached delta to the count, which stops
at zero, and adds to what it caches. -/
structure Moves (s s' : RefCache) (p : ℕ) (c : Fin maxCpuSlots) (moved net : ℤ) : Prop where
  refcacheAt : s'.RefcacheAt p
  refcount : (s'.table.refcount p : ℤ) = max (s.table.refcount p + moved) 0
  cached : (s'.cpus c).cachedDelta p = (s.cpus c).cachedDelta p - moved + net
  others : ∀ c' ≠ c, (s'.cpus c').cachedDelta p = (s.cpus c').cachedDelta p

theorem Moves.refl (hat : s.RefcacheAt p) (c : Fin maxCpuSlots) : Moves s s p c 0 0 :=
  ⟨hat, by omega, by omega, fun _ _ => rfl⟩

theorem Moves.after_idle (h : Moves s' s'' p c d net) (hidle : Moves s s' p c 0 0) :
    Moves s s'' p c d net := by
  have hcount := hidle.refcount
  have hcached := hidle.cached
  refine ⟨h.refcacheAt, ?_, ?_, fun c' hc' => (h.others c' hc').trans (hidle.others c' hc')⟩
  · rw [h.refcount]
    omega
  · rw [h.cached]
    omega

theorem Moves.then_idle (h : Moves s s' p c d net) (hidle : Moves s' s'' p c 0 0) :
    Moves s s'' p c d net := by
  have hcount := hidle.refcount
  have hcached := hidle.cached
  refine ⟨hidle.refcacheAt, ?_, ?_, fun c' hc' => (hidle.others c' hc').trans (h.others c' hc')⟩
  · rw [← h.refcount]
    omega
  · rw [← h.cached]
    omega

theorem table_flushDelta (s : RefCache) (c : Fin maxCpuSlots) (old : DeltaEntry) :
    (s.flushDelta c old).table = (s.table.refcacheGlobalAdd old.phys old.delta).2 := by
  unfold flushDelta
  dsimp only
  split_ifs
  · rfl
  · rfl

theorem sameCaches_evict (s : RefCache) (c : Fin maxCpuSlots) (slot : Fin refcacheSize) :
    SameCaches s (s.evict c slot) := by
  unfold evict flushDelta
  dsimp only
  split_ifs
  · exact sameCaches_setCpu s c _ (cache_enqueueReview _ _ _)
  · exact fun _ => rfl
  · exact fun _ => rfl

theorem entries_evict_of_ne (h : ((s.cpus c).cache slot).phys ≠ frameKey p) :
    (s.evict c slot).table.entries (frameKey p) = s.table.entries (frameKey p) := by
  unfold evict
  dsimp only
  split_ifs with hold
  · have hkey := ((s.cpus c).slotted slot hold.1).1
    obtain ⟨order, cnt, hadd⟩ := s.table.exists_refcacheGlobalAdd
      ((s.cpus c).cache slot).phys ((s.cpus c).cache slot).delta
    rw [table_flushDelta, hadd, hkey]
    exact entries_insert_of_ne _ _ (Ne.symm h)
  · rfl

theorem refcount_congr {t t' : FrameTable} (h : t'.entries (frameKey p) = t.entries (frameKey p)) :
    t'.refcount p = t.refcount p := by
  rw [refcount, refcount, h]

section

variable (hp : frameKey p ≠ 0) (hat : s.RefcacheAt p)
  (hfit : (s.cpus c).heldAt slot p ≠ 0 → s.table.refcount p + (s.cpus c).heldAt slot p ≤ u32Max)
include hp hat hfit

theorem refcount_evict :
    (s.evict c slot).RefcacheAt p ∧ ((s.evict c slot).table.refcount p : ℤ) =
      max (s.table.refcount p + (s.cpus c).heldAt slot p) 0 := by
  by_cases hheld : (s.cpus c).heldAt slot p = 0
  · -- the slot holds another frame, or nothing of this one
    have hentries : (s.evict c slot).table.entries (frameKey p) =
        s.table.entries (frameKey p) := by
      by_cases h : ((s.cpus c).cache slot).phys = frameKey p
      · unfold evict
        rw [if_neg fun hold => hold.2 ((if_pos h).symm.trans hheld)]
      · exact entries_evict_of_ne h
    unfold RefcacheAt
    rw [refcount_congr hentries, hentries]
    exact ⟨hat, by omega⟩
  · have h : ((s.cpus c).cache slot).phys = frameKey p := by
      by_contra hne
      exact hheld (if_neg hne)
    have hdelta : (s.cpus c).heldAt slot p = ((s.cpus c).cache slot).delta := if_pos h
    have hfits := hfit hheld
    rw [hdelta] at hheld hfits ⊢
    have hcount : s.table.refcount ((s.cpus c).cache slot).phys = s.table.refcount p := by
      rw [h, refcount, refcount, frameKey_frameKey]
    have hat' : ∀ e, s.table.entries (frameKey ((s.cpus c).cache slot).phys) = some e →
        e.flags = .refcache := by
      rw [h, frameKey_frameKey]
      exact hat
    obtain ⟨e, hflags, hrefs, hadd⟩ := s.table.refcacheGlobalAdd_eq hat' (hcount.symm ▸ hfits)
    have hentry : (s.evict c slot).table.entries (frameKey p) = some e := by
      unfold evict
      rw [if_pos ⟨h ▸ hp, hheld⟩, table_flushDelta, hadd, h, frameKey_frameKey,
        entries_insert_self]
    refine ⟨fun e' he' => ?_, ?_⟩
    · obtain rfl := Option.some.inj (hentry.symm.trans he')
      exact hflags
    · rw [refcount, hentry, ← hcount]
      exact hrefs

theorem evict_setCpu_moves {st : RefCacheCpuState}
    (hst : st.cachedDelta p = (s.cpus c).cachedDelta p - (s.cpus c).heldAt slot p + net) :
    Moves s ((s.evict c slot).setCpu c st) p c ((s.cpus c).heldAt slot p) net := by
  obtain ⟨hat', hcount⟩ := refcount_evict hp hat hfit
  refine ⟨hat', hcount, by rw [cpus_setCpu_self, hst], fun c' hc' => ?_⟩
  rw [cpus_setCpu_of_ne _ _ hc']
  exact (sameCaches_evict s c slot).cachedDelta c' p

theorem flushSlot_moves : Moves s (s.flushSlot c slot) p c ((s.cpus c).heldAt slot p) 0 := by
  unfold flushSlot
  split_ifs with hz
  · have hnone : (s.cpus c).heldAt slot p = 0 := if_neg fun h => hp (h.symm.trans hz)
    rw [hnone]
    exact .refl hat c
  · refine evict_setCpu_moves hp hat hfit ?_
    have hsame := sameCaches_evict s c slot c
    rw [cachedDelta_setDelta_zero _ _ hp, heldAt, hsame,
      cachedDelta_congr hsame, add_zero]
    rfl

end

theorem foldl_flushSlot_moves (hp : frameKey p ≠ 0) {slots : List (Fin refcacheSize)}
    (hnodup : slots.Nodup) (hat : s.RefcacheAt p) (hfit : (s.cpus c).cachedDelta p ≠ 0 →
      s.table.refcount p + (s.cpus c).cachedDelta p ≤ u32Max) :
    Moves s (slots.foldl (fun s slot => s.flushSlot c slot) s) p c
      (if cacheSlot p ∈ slots then (s.cpus c).cachedDelta p else 0) 0 := by
  induction slots generalizing s with
  | nil => exact .refl hat c
  | cons slot slots ih =>
    obtain ⟨hslot, hrest⟩ := nodup_cons.mp hnodup
    by_cases heq : slot = cacheSlot p
    · -- the frame's own slot: the slots behind it hold nothing of the frame
      subst heq
      have hmoves := flushSlot_moves hp hat hfit
      have hcached := hmoves.cached
      rw [heldAt_cacheSlot] at hmoves hcached
      have hidle := ih hrest hmoves.refcacheAt fun hne => absurd hcached (by omega)
      rw [if_neg hslot] at hidle
      rw [if_pos mem_cons_self]
      exact hmoves.then_idle hidle
    · have hnone : (s.cpus c).heldAt slot p = 0 := heldAt_of_ne hp heq
      have hidle := flushSlot_moves (c := c) hp hat fun hne => absurd hnone hne
      rw [hnone] at hidle
      have hcount := hidle.refcount
      have hcached : ((s.flushSlot c slot).cpus c).cachedDelta p = (s.cpus c).cachedDelta p := by
        have := hidle.cached
        omega
      have hmoves := ih hrest hidle.refcacheAt fun hne => by
        omega
      rw [hcached] at hmoves
      have hmem : cacheSlot p ∈ slot :: slots ↔ cacheSlot p ∈ slots := by
        rw [mem_cons, or_iff_right (Ne.symm heq)]
      simp only [hmem]
      exact hmoves.after_idle hidle

theorem flush_moves (hp : frameKey p ≠ 0) (hat : s.RefcacheAt p)
    (hfit : (s.cpus c).cachedDelta p ≠ 0 →
      s.table.refcount p + (s.cpus c).cachedDelta p ≤ u32Max) :
    Moves s (s.flush c) p c ((s.cpus c).cachedDelta p) 0 := by
  have hmoves := foldl_flushSlot_moves hp (nodup_finRange refcacheSize) hat hfit
  rwa [if_pos (mem_finRange _)] at hmoves

def displaced (s : RefCache) (c : Fin maxCpuSlots) (phys p : ℕ) : ℤ :=
  if cacheSlot phys = cacheSlot p ∧ frameKey phys ≠ frameKey p then (s.cpus c).cachedDelta p else 0

theorem displaced_self (h : frameKey phys = frameKey p) : s.displaced c phys p = 0 :=
  if_neg fun hne => hne.2 h

theorem heldAt_eq_displaced (hp : frameKey p ≠ 0)
    (hmiss : ((s.cpus c).cache (cacheSlot phys)).phys ≠ frameKey phys) :
    (s.cpus c).heldAt (cacheSlot phys) p = s.displaced c phys p := by
  unfold displaced
  by_cases hsame : cacheSlot phys = cacheSlot p
  · rw [hsame] at hmiss ⊢
    split_ifs with hother
    · rfl
    · exact if_neg fun heq => hother ⟨rfl, fun hkey => hmiss (heq.trans hkey.symm)⟩
  · rw [if_neg fun h => hsame h.1, heldAt_of_ne hp hsame]

theorem adjust_moves (next : ℤ → ℤ) (first : ℤ) (hp : frameKey p ≠ 0) (hat : s.RefcacheAt p)
    (hfit : s.displaced c phys p ≠ 0 → s.table.refcount p + s.displaced c phys p ≤ u32Max) :
    Moves s (s.adjust c phys next first) p c (s.displaced c phys p)
      (if frameKey phys = frameKey p then
        if ((s.cpus c).cache (cacheSlot p)).phys = frameKey p then
          next ((s.cpus c).cachedDelta p) - (s.cpus c).cachedDelta p
        else first
      else 0) := by
  have hslot (hkey : frameKey phys = frameKey p) : cacheSlot phys = cacheSlot p := by
    rw [← cacheSlot_frameKey phys, hkey, cacheSlot_frameKey]
  unfold adjust
  dsimp only
  split_ifs with hhit hkey hheld hkey hheld
  · have hdelta : (s.cpus c).cachedDelta p = ((s.cpus c).cache (cacheSlot p)).delta :=
      if_pos hheld
    rw [displaced_self hkey, hslot hkey, ← hdelta]
    refine ⟨hat, by rw [table_setCpu]; omega, ?_, fun c' hc' => by rw [cpus_setCpu_of_ne _ _ hc']⟩
    rw [cpus_setCpu_self, cachedDelta_setDelta _ _ _ hp]
    omega
  · exact absurd (hslot hkey ▸ hhit.trans hkey) hheld
  · -- the slot holds the other frame, so this one is not cached in it
    have hnot : ((s.cpus c).cache (cacheSlot phys)).phys ≠ frameKey p :=
      fun heq => hkey (hhit.symm.trans heq)
    have hnone : s.displaced c phys p = 0 := by
      unfold displaced
      split_ifs with hsame
      · exact if_neg (hsame.1 ▸ hnot)
      · rfl
    refine ⟨hat, by rw [table_setCpu]; omega, ?_, fun c' hc' => by rw [cpus_setCpu_of_ne _ _ hc']⟩
    rw [cpus_setCpu_self, cachedDelta_setDelta _ _ _ hp]
    omega
  · exact absurd (hheld.trans hkey.symm) (hslot hkey ▸ hhit)
  · rw [← heldAt_eq_displaced hp hhit] at hfit ⊢
    refine evict_setCpu_moves hp hat hfit ?_
    rw [cachedDelta_sub_heldAt _ _ hp, cachedDelta_claim,
      if_pos (hslot hkey).symm, if_pos hkey, if_pos (hslot hkey).symm, zero_add]
  · rw [← heldAt_eq_displaced hp hhit] at hfit ⊢
    refine evict_setCpu_moves hp hat hfit ?_
    rw [cachedDelta_sub_heldAt _ _ hp, cachedDelta_claim,
      (sameCaches_evict s c _).cachedDelta, if_neg hkey, add_zero]

end Frame

end RefCache

end EchOS.Memory
