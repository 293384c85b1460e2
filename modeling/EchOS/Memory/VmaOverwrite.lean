import EchOS.Memory.VmaReplace

/-! `insert_or_update` puts a VMA in the place of a range. The pieces it leaves of an old VMA are
linked before the new one, the piece behind the range included. -/

namespace EchOS.Memory

open List Option

def partsBefore (start : ℕ) (vmas : List Vma) : List Vma :=
  vmas.flatMap fun v => if v.start < start then [{ v with stop := start }] else []

theorem mem_partsBefore {start : ℕ} {vmas : List Vma} {p : Vma} :
    p ∈ partsBefore start vmas ↔ ∃ v ∈ vmas, v.start < start ∧ p = { v with stop := start } := by
  unfold partsBefore
  rw [mem_flatMap]
  refine exists_congr fun v => and_congr_right fun _ => ?_
  split_ifs with h <;> simp [h]

section

variable {start stop : ℕ} {before met behind : List Vma} {mid : Vma}

theorem Around.tidy_overwrite (h : Around start stop before met behind) (hlen : met.length ≤ 1)
    (hstart : mid.start = start) (hstop : mid.stop = stop) (hlt : start < stop) :
    Tidy (before ++ (partsBefore start met ++ (mid :: behind))) := by
  have hparts : Tidy (partsBefore start met) := by
    match met, hlen with
    | [], _ => exact tidy_nil
    | [w], _ =>
      unfold partsBefore
      simp only [flatMap_cons, flatMap_nil, append_nil]
      split_ifs with hw
      · exact tidy_cons.mpr ⟨hw, by simp, tidy_nil⟩
      · exact tidy_nil
  obtain ⟨hbefore, hrest, hcross⟩ := tidy_append.mp h.tidy
  obtain ⟨-, hbehind, -⟩ := tidy_append.mp hrest
  rw [tidy_append, tidy_append, tidy_cons, hstart, hstop]
  refine ⟨hbefore, ⟨hparts, ⟨hlt, h.behind, hbehind⟩, fun p hp v hv => ?_⟩, fun b hb v hv => ?_⟩
  · obtain ⟨w, hw, -, rfl⟩ := mem_partsBefore.mp hp
    rcases mem_cons.mp hv with rfl | hv
    · exact Nat.le_of_eq hstart.symm
    · exact Nat.le_trans (Nat.le_of_lt hlt) (h.behind v hv)
  · rcases mem_append.mp hv with hv | hv
    · obtain ⟨w, hw, -, rfl⟩ := mem_partsBefore.mp hv
      exact hcross b hb w (mem_append_left _ hw)
    · rcases mem_cons.mp hv with rfl | hv
      · rw [hstart]
        exact h.before b hb
      · exact hcross b hb v (mem_append_right _ hv)

theorem Around.mapping_overwrite (h : Around start stop before met behind) (hlen : met.length ≤ 1)
    (hmet : ∀ v ∈ met, v.stop ≤ stop) (hstart : mid.start = start) (hstop : mid.stop = stop)
    (addr : ℕ) :
    (vmaAt (before ++ (partsBefore start met ++ (mid :: behind))) addr).map (·.mappingAt addr) =
      if start ≤ addr ∧ addr < stop then some (mid.mappingAt addr)
      else (vmaAt (before ++ (met ++ behind)) addr).map (·.mappingAt addr) := by
  have hmid : mid.covers addr ↔ start ≤ addr ∧ addr < stop := by
    rw [Vma.covers_iff, hstart, hstop]
  rw [vmaAt_append, vmaAt_append, vmaAt_cons]
  by_cases haddr : start ≤ addr ∧ addr < stop
  · have hbefore : vmaAt before addr = none := vmaAt_eq_none fun v hv hcovers => by
      have hle := h.before v hv
      rw [Vma.covers_iff] at hcovers
      omega
    have hparts : vmaAt (partsBefore start met) addr = none := vmaAt_eq_none fun v hv hcovers => by
      obtain ⟨w, -, -, rfl⟩ := mem_partsBefore.mp hv
      exact Nat.not_lt.mpr haddr.1 ((Vma.covers_iff _ _).mp hcovers).2
    rw [if_pos haddr, if_pos (hmid.mpr haddr), hbefore, hparts]
    rfl
  · have hparts : (vmaAt (partsBefore start met) addr).map (·.mappingAt addr) =
        (vmaAt met addr).map (·.mappingAt addr) := by
      match met, hlen with
      | [], _ => rfl
      | [w], _ =>
        -- what the VMA has outside of the range lies before it
        have hmeets := h.meeting w mem_cons_self
        have hle := hmet w mem_cons_self
        simp only [partsBefore, flatMap_cons, flatMap_nil, append_nil, vmaAt_cons, Vma.covers_iff]
        split_ifs <;> simp [vmaAt, Vma.covers, Vma.mappingAt] <;> omega
    rw [if_neg haddr, if_neg (mt hmid.mp haddr), vmaAt_append, vmaAt_append, map_or,
      map_or, map_or, map_or, hparts]

end

namespace VmaMap

/-- What `insert_or_update` is for, as far as the addresses go. -/
def Overwrites (m m' : VmaMap) (start stop : ℕ) (vma : Vma) : Prop :=
  ∀ addr, m'.mapping addr =
    if start ≤ addr ∧ addr < stop then
      some (some (({ vma with start := start, stop := stop } : Vma).mappingAt addr))
    else m.mapping addr

/-- At most one VMA meets the range, and it ends with the range or before. -/
def EndsInside (vmas : List Vma) (start stop : ℕ) : Prop :=
  (vmas.filter (·.meets start stop)).length ≤ 1 ∧
    ∀ vma ∈ vmas.filter (·.meets start stop), vma.stop ≤ stop

instance (vmas : List Vma) (start stop : ℕ) : Decidable (EndsInside vmas start stop) :=
  inferInstanceAs (Decidable (_ ∧ _))

section

variable {start stop : ℕ} {before kept behind : List Vma} {mid : Vma} {n : Node}

theorem outerPieces_eq (hstart : n.start = n.vma.start) (hstop : n.stop = n.vma.stop) :
    leftPiece n start ++ rightPiece n stop = partsBefore start [n.vma] ++
      (if stop < n.vma.stop then [{ n.vma with start := stop }] else []) := by
  unfold leftPiece rightPiece partsBefore
  rw [hstart, hstop]
  simp

theorem endsInside_of_tidy (h : Around start stop before (kept ++ [n.vma]) behind)
    (hstart : n.start = n.vma.start) (hstop : n.stop = n.vma.stop) (hmid : mid.start = start)
    (htidy : Tidy (before ++ (kept ++
      ((leftPiece n start ++ rightPiece n stop ++ [mid]) ++ behind)))) :
    kept = [] ∧ n.vma.stop ≤ stop := by
  have hmeets := h.meeting n.vma (by simp)
  obtain ⟨-, hrest, -⟩ := tidy_append.mp htidy
  obtain ⟨-, hrest, hkept⟩ := tidy_append.mp hrest
  obtain ⟨hpieces, -, -⟩ := tidy_append.mp hrest
  obtain ⟨-, -, hbefore⟩ := tidy_append.mp hpieces
  constructor
  · refine eq_nil_iff_forall_not_mem.mpr fun v hv => ?_
    have hle := hkept v hv mid (by simp)
    have hv' := h.meeting v (by simp [hv])
    omega
  · by_contra hlt
    have hright :
      ({ n.vma with start := stop } : Vma) ∈ leftPiece n start ++ rightPiece n stop := by
      rw [outerPieces_eq hstart hstop, if_pos (by omega)]
      simp
    have hle : n.vma.stop ≤ mid.start := hbefore _ hright mid (mem_singleton.mpr rfl)
    omega

end

variable {levels : ℕ → List NodeId} {start stop : ℕ} {m : VmaMap}

theorem Settled.insertOrUpdate_vmas {before meeting behind : List NodeId} (h : Settled m levels)
    (hzero : levels 0 = before ++ (meeting ++ behind))
    (hr : Range m start stop before meeting behind) (hlt : start < stop) (seed : BitVec 64)
    (vma : Vma) :
    ∃ m' levels', m.insertOrUpdate seed start stop vma = some (true, m') ∧ Sound m' levels' [] ∧
      Labelled m' (levels' 0) ∧
      (Tidy (m'.vmas (levels' 0)) → EndsInside (m.vmas (levels 0)) start stop) ∧
      (EndsInside (m.vmas (levels 0)) start stop → m'.vmas (levels' 0) = m.vmas before ++
        (partsBefore start (m.vmas meeting) ++
          ({ vma with start := start, stop := stop } :: m.vmas behind))) := by
  obtain ⟨locked, m', levels', hframe, hreplace, hsound, hlabelled, hvmas⟩ :=
    h.replaceInterval hzero hr hlt seed fun old =>
      (old.flatMap fun n => leftPiece n start ++ rightPiece n stop) ++
        [{ vma with start := start, stop := stop }]
  obtain ⟨hordered, haround, hmet⟩ := h.range hzero hr
  refine ⟨m', levels', ?_, hsound, hlabelled, ?_⟩
  · rw [VmaMap.insertOrUpdate, if_neg (Nat.not_le.mpr hlt), hreplace]
    rfl
  unfold EndsInside
  rw [hzero, hmet, hvmas]
  obtain rfl | ⟨kept, x, rfl⟩ := eq_nil_or_concat' meeting
  · exact ⟨fun _ => ⟨Nat.zero_le 1, by simp [VmaMap.vmas]⟩, fun _ => rfl⟩
  · obtain ⟨hstart, hstop, hlast⟩ := hordered.last_of_frame hframe
    rw [hlast] at haround ⊢
    rw [dropLast_concat, List.getLast?_concat]
    simp only [toList_some, map_cons, map_nil, flatMap_cons,
      flatMap_nil, append_nil]
    constructor
    · intro htidy
      obtain ⟨hkept, hle⟩ := endsInside_of_tidy haround hstart hstop rfl htidy
      simp [hkept, hle]
    · rintro ⟨hlen, hle⟩
      have hkept : m.vmas kept = [] := by
        simpa using hlen
      have hnone : ¬ stop < (locked.nodes x).vma.stop :=
        Nat.not_lt.mpr (hle _ (by simp))
      rw [outerPieces_eq hstart hstop, if_neg hnone, hkept]
      simp

theorem Settled.insertOrUpdate (h : Settled m levels)
    (hlt : start < stop) (seed : BitVec 64) (vma : Vma) :
    ∃ m' levels', m.insertOrUpdate seed start stop vma = some (true, m') ∧ Sound m' levels' [] ∧
      (Tidy (m'.vmas (levels' 0)) → EndsInside (m.vmas (levels 0)) start stop) ∧
      (EndsInside (m.vmas (levels 0)) start stop →
        Settled m' levels' ∧ Overwrites m m' start stop vma) := by
  obtain ⟨before, meeting, behind, hzero, hr⟩ := h.ordered.split_range start stop
  obtain ⟨m', levels', hupdate, hsound, hlabelled, hnecessary, hvmas⟩ :=
    h.insertOrUpdate_vmas hzero hr hlt seed vma
  obtain ⟨hordered, haround, hmet⟩ := h.range hzero hr
  refine ⟨m', levels', hupdate, hsound, hnecessary, fun hends => ?_⟩
  have hvmas := hvmas hends
  rw [EndsInside, hzero, hmet] at hends
  have htidy := haround.tidy_overwrite hends.1
    (rfl : ({ vma with start := start, stop := stop } : Vma).start = start) rfl hlt
  have hsettled : Settled m' levels' := ⟨hsound, hlabelled.ordered (by rw [hvmas]; exact htidy)⟩
  refine ⟨hsettled, fun addr => ?_⟩
  rw [hsettled.mapping_eq, h.mapping_eq, hvmas,
    haround.mapping_overwrite hends.1 hends.2 rfl rfl, hzero, vmas_append, vmas_append]
  split_ifs <;> rfl

/-- `insert_or_update` after any insertions ends. The chain is then in order and the range has the
VMA, with all else as it was, when at most one VMA meets the range and ends with it or before,
and in no other case. -/
theorem insertOrUpdate_exact_iff (inserts : List (BitVec 64 × Vma)) {start stop : ℕ}
    (hlt : start < stop) (seed : BitVec 64) (v : Vma) :
    ∃ m m' vmas vmas', new.insertAll inserts = some m ∧ m.collectAll = some vmas ∧
      m.insertOrUpdate seed start stop v = some (true, m') ∧ m'.collectAll = some vmas' ∧
      (Tidy vmas' ∧ Overwrites m m' start stop v ↔ EndsInside vmas start stop) := by
  obtain ⟨m, levels, hinserts, h⟩ := insertAll_spec inserts
  obtain ⟨m', levels', hupdate, hsound, hnecessary, hsufficient⟩ := h.insertOrUpdate hlt seed v
  refine ⟨m, m', _, _, hinserts, h.collectAll_eq, hupdate, collectAll_eq hsound.leveled.threaded,
    fun hexact => hnecessary hexact.1, fun hends => ?_⟩
  obtain ⟨hsettled, hoverwrites⟩ := hsufficient hends
  exact ⟨hsettled.ordered.tidy, hoverwrites⟩

theorem insertOrUpdate_exact_iff_last_page :
    0x3000 < 0x4000 ∧ ∃ m m' vmas vmas',
      new.insertAll [(7, ⟨0x1000, 0x4000, 3, .anonymous 1, false, false, false⟩)] = some m ∧
      m.collectAll = some vmas ∧
      m.insertOrUpdate 9 0x3000 0x4000 ⟨0, 0, 1, .file 5 0 0x1000, false, false, false⟩ =
        some (true, m') ∧
      m'.collectAll = some vmas' ∧
      (Tidy vmas' ∧
        Overwrites m m' 0x3000 0x4000 ⟨0, 0, 1, .file 5 0 0x1000, false, false, false⟩ ↔
        EndsInside vmas 0x3000 0x4000) :=
  ⟨by decide, insertOrUpdate_exact_iff _ (by decide) 9 _⟩

/-- A VMA put over the middle page of three is linked behind the last page and is not found. -/
theorem insertOrUpdate_hides_middle_page :
    (do
      let m ← new.insertAll [(7, ⟨0x1000, 0x4000, 3, .anonymous 1, false, false, false⟩)]
      let (_, m') ← m.insertOrUpdate 9 0x2000 0x3000 ⟨0, 0, 1, .anonymous 2, false, false, false⟩
      let vmas' ← m'.collectAll
      return (vmas'.map Vma.start, m'.mapping 0x2000)) =
      some ([0x1000, 0x3000, 0x2000], some none) := by
  decide +kernel

end VmaMap

end EchOS.Memory
