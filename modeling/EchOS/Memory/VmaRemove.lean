import EchOS.Memory.VmaInsert

/-! Removal of a range from a VMA map, against what unmapping the range should leave. The map
is any that insertions build from the empty one. -/

namespace EchOS.Memory

open List Option

theorem Around.dropLast_iff {start stop : ℕ} {before meeting behind : List Vma}
    (h : Around start stop before meeting behind) (hlt : start < stop) :
    (∀ addr, (vmaAt (before ++ (meeting.dropLast ++ behind)) addr).map (·.mappingAt addr) =
        if start ≤ addr ∧ addr < stop then none
        else (vmaAt (before ++ (meeting ++ behind)) addr).map (·.mappingAt addr)) ↔
      meeting.length ≤ 1 ∧ ∀ v ∈ meeting, start ≤ v.start ∧ v.stop ≤ stop := by
  have hsub : (before ++ (meeting.dropLast ++ behind)).Sublist (before ++ (meeting ++ behind)) :=
    ((dropLast_sublist meeting).append_right behind).append_left before
  constructor
  · intro hexact
    have hnone : meeting.dropLast = [] := by
      -- a VMA of the range that stays is still found
      refine eq_nil_iff_forall_not_mem.mpr fun v hv => ?_
      have hmeets := h.meeting v ((dropLast_sublist _).subset hv)
      have hne := h.tidy.nonempty v (hsub.subset (by simp [hv]))
      have hcovers : v.covers (max start v.start) := (Vma.covers_iff _ _).mpr (by omega)
      have hfound := hexact (max start v.start)
      rw [(h.tidy.sublist hsub).vmaAt_eq (by simp [hv]) hcovers, if_pos (by omega)] at hfound
      cases hfound
    have hlen := congrArg List.length hnone
    rw [length_dropLast, length_nil] at hlen
    refine ⟨by omega, fun v hv => ?_⟩
    -- the part of the VMA that is outside of the range is lost
    have hmeets := h.meeting v hv
    have hne := h.tidy.nonempty v (by simp [hv])
    have hlost : ∀ addr, v.covers addr → start ≤ addr ∧ addr < stop := by
      intro addr hcovers
      by_contra hout
      have hat := h.tidy.vmaAt_eq (by simp [hv]) hcovers
      have hfound := hexact addr
      rw [hnone, nil_append, if_neg hout, hat, vmaAt_eq_none fun w hw hw' => ?_] at hfound
      · cases hfound
      · have hw := mem_append.mp hw
        rw [h.tidy.vmaAt_eq (by rcases hw with hw | hw <;> simp [hw]) hw'] at hat
        obtain rfl := some.inj hat
        have := hw.imp (h.before w) (h.behind w)
        omega
    simp only [Vma.covers_iff] at hlost
    refine ⟨(hlost v.start ⟨Nat.le_refl _, hne⟩).1, ?_⟩
    by_contra hstop
    exact Nat.lt_irrefl stop (hlost stop ⟨by omega, by omega⟩).2
  · rintro ⟨hlen, hinside⟩ addr
    have hnone : meeting.dropLast = [] :=
      eq_nil_of_length_eq_zero (by rw [length_dropLast]; omega)
    rw [hnone, nil_append]
    split_ifs with haddr
    · rw [vmaAt_eq_none fun v hv hcovers => ?_, map_none]
      rw [Vma.covers_iff] at hcovers
      have := (mem_append.mp hv).imp (h.before v) (h.behind v)
      omega
    · have hmeeting : vmaAt meeting addr = none := vmaAt_eq_none fun v hv hcovers => by
        have hin := hinside v hv
        rw [Vma.covers_iff] at hcovers
        omega
      rw [vmaAt_append, vmaAt_append, vmaAt_append, hmeeting, none_or]

namespace VmaMap

def insertAll (m : VmaMap) : List (BitVec 64 × Vma) → Option VmaMap
  | [] => some m
  | (seed, vma) :: inserts => do
    let (_, m) ← m.insert seed vma
    m.insertAll inserts

def mapping (m : VmaMap) (addr : ℕ) : Option (Option Mapping) :=
  (m.find addr).map fun found => found.map fun vma => vma.mappingAt addr

/-- The range is gone and every other address is as it was. -/
def Removes (m m' : VmaMap) (start stop : ℕ) : Prop :=
  ∀ addr, m'.mapping addr =
    if start ≤ addr ∧ addr < stop then some none else m.mapping addr

/-- At most one VMA meets the range, and that one lies inside it. -/
def Whole (vmas : List Vma) (start stop : ℕ) : Prop :=
  (vmas.filter (·.meets start stop)).length ≤ 1 ∧
    ∀ vma ∈ vmas.filter (·.meets start stop), start ≤ vma.start ∧ vma.stop ≤ stop

instance (vmas : List Vma) (start stop : ℕ) : Decidable (Whole vmas start stop) :=
  inferInstanceAs (Decidable (_ ∧ _))

/-- Insertions can be carried out one after the other, link nothing above level 0 and keep what
each of them keeps. -/
theorem insertAll_invariant {P : List Vma → Prop} {inserts : List (BitVec 64 × Vma)}
    (hP : ∀ insert ∈ inserts, ∀ {vmas taken vmas'}, P vmas →
      Inserts insert.2 vmas taken vmas' → P vmas')
    {m : VmaMap} {levels : ℕ → List NodeId} (h : Settled m levels) (hflat : levels 1 = [])
    (hm : P (m.vmas (levels 0))) :
    ∃ m' levels', m.insertAll inserts = some m' ∧ Settled m' levels' ∧ levels' 1 = [] ∧
      P (m'.vmas (levels' 0)) := by
  induction inserts generalizing m levels with
  | nil => exact ⟨m, levels, rfl, h, hflat, hm⟩
  | cons insert inserts ih =>
    obtain ⟨taken, m₁, levels₁, hinsert, h₁, hthinner, hinserts⟩ :=
      h.insert (fun _ _ => mergesCleanly_of_flat hflat insert.2) insert.1
    have hflat₁ : levels₁ 1 = [] := sublist_nil.mp (hflat ▸ hthinner 1 Nat.one_pos)
    have hm₁ := hP insert mem_cons_self hm hinserts
    obtain ⟨m', levels', hall, h'⟩ :=
      ih (fun insert hin => hP insert (mem_cons_of_mem _ hin)) h₁ hflat₁ hm₁
    refine ⟨m', levels', ?_, h'⟩
    unfold insertAll
    rw [hinsert]
    exact hall

theorem insertAll_spec (inserts : List (BitVec 64 × Vma)) :
    ∃ m levels, new.insertAll inserts = some m ∧ Settled m levels := by
  obtain ⟨m, levels, hall, h, -⟩ := insertAll_invariant (P := fun _ => True)
    (fun insert (_ : insert ∈ inserts) _ _ _ _ _ => trivial) settled_new rfl trivial
  exact ⟨m, levels, hall, h⟩

section

variable {m : VmaMap} {start stop : ℕ} {before meeting behind : List NodeId}
  {levels : ℕ → List NodeId}

theorem Settled.remove (h : Settled m levels) (hzero : levels 0 = before ++ (meeting ++ behind))
    (hr : Range m start stop before meeting behind) (hlt : start < stop) :
    ∃ m' levels', m.remove start stop = some m' ∧ Frame m m' ∧ Settled m' levels' ∧
      levels' 0 = before ++ (meeting.dropLast ++ behind) := by
  obtain ⟨m₁, hlock, hwrites, -, hsound₁⟩ := h.sound.lockInterval hzero h.ordered hr hlt
  have hordered₁ := h.ordered.frame hwrites.frame
  unfold VmaMap.remove
  rw [if_neg (Nat.not_le.mpr hlt), hlock]
  obtain rfl | ⟨meeting, x, rfl⟩ := eq_nil_or_concat' meeting
  · obtain ⟨hframe, hsound⟩ := hsound₁.unlockList
    exact ⟨_, levels, rfl, hwrites.frame.trans hframe, ⟨hsound, hordered₁.frame hframe⟩,
      hzero⟩
  · obtain ⟨m', hswap, hframe, hsound⟩ := hsound₁.swapInterval hzero nodup_nil (by simp)
    refine ⟨m', _, ?_, hwrites.frame.trans hframe, ⟨hsound, ?_⟩, rfl⟩
    · rw [← hswap, List.getLast?_concat]
      rfl
    · rw [hzero] at hordered₁
      refine (hordered₁.frame hframe).sublist (Sublist.append_left ?_ before)
      exact (dropLast_sublist _).append_right behind

theorem Range.around (hr : Range m start stop before meeting behind)
    (ho : Ordered m (before ++ (meeting ++ behind))) :
    Around start stop (m.vmas before) (m.vmas meeting) (m.vmas behind) := by
  refine ⟨?_, forall_mem_map.mpr fun x hx => ?_, forall_mem_map.mpr fun x hx => ?_,
    forall_mem_map.mpr fun x hx => ?_⟩
  · rw [← vmas_append, ← vmas_append]
    exact ho.tidy
  · rw [← ho.stop_eq x (by simp [hx])]
    exact hr.before x hx
  · rw [← ho.start_eq x (by simp [hx]), ← ho.stop_eq x (by simp [hx])]
    exact (hr.meeting x hx).symm
  · rw [← ho.start_eq x (by simp [hx])]
    exact hr.behind x hx

theorem Settled.range (h : Settled m levels) (hzero : levels 0 = before ++ (meeting ++ behind))
    (hr : Range m start stop before meeting behind) :
    Ordered m (before ++ (meeting ++ behind)) ∧
      Around start stop (m.vmas before) (m.vmas meeting) (m.vmas behind) ∧
      (m.vmas (before ++ (meeting ++ behind))).filter (·.meets start stop) = m.vmas meeting := by
  have hordered := hzero ▸ h.ordered
  have haround := hr.around hordered
  rw [vmas_append, vmas_append]
  exact ⟨hordered, haround, haround.filter_meets⟩

theorem Settled.mapping_eq (h : Settled m levels) (addr : ℕ) :
    m.mapping addr = some ((vmaAt (m.vmas (levels 0)) addr).map fun vma => vma.mappingAt addr) := by
  rw [mapping, h.find_eq, h.ordered.lookup_eq]
  rfl

end

/-- Removal after any insertions ends, and it unmaps just the range when at most one VMA meets
the range and lies inside it, and in no other case. -/
theorem remove_unmaps_iff_whole (inserts : List (BitVec 64 × Vma)) {start stop : ℕ}
    (hlt : start < stop) :
    ∃ m m' vmas, new.insertAll inserts = some m ∧ m.collectAll = some vmas ∧
      m.remove start stop = some m' ∧
      (Removes m m' start stop ↔ Whole vmas start stop) := by
  obtain ⟨m, levels, hinserts, h⟩ := insertAll_spec inserts
  obtain ⟨before, meeting, behind, hzero, hr⟩ := h.ordered.split_range start stop
  obtain ⟨m', levels', hremove, hframe, h', hzero'⟩ := h.remove hzero hr hlt
  obtain ⟨-, haround, hmet⟩ := h.range hzero hr
  refine ⟨m, m', m.vmas (levels 0), hinserts, h.collectAll_eq, hremove, ?_⟩
  rw [Whole, hzero, hmet, ← haround.dropLast_iff hlt]
  refine forall_congr' fun addr => ?_
  have hlast : m.vmas meeting.dropLast = (m.vmas meeting).dropLast := map_dropLast
  rw [h'.mapping_eq, h.mapping_eq, hzero', hzero, hframe.vmas, vmas_append, vmas_append,
    vmas_append, vmas_append, hlast]
  split_ifs <;> exact some_inj

def page (start object : ℕ) : Vma :=
  ⟨start, start + 0x1000, 3, .anonymous object, false, false, false⟩

/-- The second of three VMAs is unmapped. -/
theorem remove_unmaps_iff_whole_second :
    ∃ m m', new.insertAll [(7, page 0x1000 1), (9, page 0x3000 2), (5, page 0x5000 3)] = some m ∧
      m.remove 0x3000 0x4000 = some m' ∧ Removes m m' 0x3000 0x4000 := by
  obtain ⟨m, m', vmas, hinserts, hvmas, hremove, hiff⟩ := remove_unmaps_iff_whole
    [(7, page 0x1000 1), (9, page 0x3000 2), (5, page 0x5000 3)] (show 0x3000 < 0x4000 by decide)
  have hall : (new.insertAll [(7, page 0x1000 1), (9, page 0x3000 2), (5, page 0x5000 3)]).bind
      collectAll = some [page 0x1000 1, page 0x3000 2, page 0x5000 3] := by decide +kernel
  rw [hinserts] at hall
  obtain rfl := some.inj (hvmas.symm.trans hall)
  exact ⟨m, m', hinserts, hremove, hiff.mpr (by decide)⟩

/-- Unmapping the middle page of three takes the first with it, and unmapping a range with
two VMAs leaves the first of them. -/
theorem remove_drops_first_page_and_keeps_first_vma :
    (do
      let m ← new.insertAll [(7, ⟨0x1000, 0x4000, 3, .anonymous 1, false, false, false⟩)]
      let m' ← m.remove 0x2000 0x3000
      return (m.mapping 0x1000, m'.mapping 0x1000)) =
      some (some (some ⟨3, .anonymous 1, false, false, false⟩), some none) ∧
    (do
      let m ← new.insertAll [(7, ⟨0x1000, 0x2000, 3, .anonymous 1, false, false, false⟩),
        (9, ⟨0x3000, 0x4000, 3, .anonymous 2, false, false, false⟩)]
      let m' ← m.remove 0x1000 0x4000
      return m'.mapping 0x1000) =
      some (some (some ⟨3, .anonymous 1, false, false, false⟩)) := by
  decide +kernel

end VmaMap

end EchOS.Memory
