import EchOS.Lib.Run
import EchOS.Memory.FrameTable

/-! When `dec_frame_ref` tells its caller to free a frame, against a ledger of the references
that were taken and given back. -/

namespace EchOS.Memory

open FrameTable Option FrameFlags

inductive FrameOp
  | initUnique (phys : ℕ)
  | share (phys : ℕ)
  | unshare (phys : ℕ)
  | tryUpgradeUnique (phys : ℕ)
  | folioMarkHead (phys order : ℕ)
  | folioMarkTail (phys : ℕ)
  | refcacheInit (phys : ℕ)
  | refcacheGlobalAdd (phys : ℕ) (delta : ℤ)

def FrameOp.phys : FrameOp → ℕ
  | .initUnique phys => phys
  | .share phys => phys
  | .unshare phys => phys
  | .tryUpgradeUnique phys => phys
  | .folioMarkHead phys _ => phys
  | .folioMarkTail phys => phys
  | .refcacheInit phys => phys
  | .refcacheGlobalAdd phys _ => phys

/-- The frame table, and for every frame the references outstanding. -/
structure FrameLedger where
  table : FrameTable
  refs : ℕ → ℕ

namespace FrameLedger

def new : FrameLedger := ⟨.new, fun _ => 0⟩

def apply (t : FrameTable) : FrameOp → FrameTable
  | .initUnique phys => t.initUnique phys
  | .share phys => (t.share phys).2
  | .unshare phys => (t.unshare phys).2
  | .tryUpgradeUnique phys => (t.tryUpgradeUnique phys).2
  | .folioMarkHead phys order => t.folioMarkHead phys order
  | .folioMarkTail phys => t.folioMarkTail phys
  | .refcacheInit phys => t.refcacheInit phys
  | .refcacheGlobalAdd phys delta => (t.refcacheGlobalAdd phys delta).2

/-- The references of a frame after an operation on it: a frame that is entered as unique has
its owner, the owner's reference becomes the first shared one, and every other sharing and
every delta counts. -/
def account (entry : Option FrameEntry) (refs : ℕ) : FrameOp → ℕ
  | .initUnique _ => if entry.isNone then refs + 1 else refs
  | .share _ => if entry.map FrameEntry.flags = some .unique then refs else refs + 1
  | .unshare _ => refs - 1
  | .refcacheGlobalAdd _ delta => (refs + delta).toNat
  | _ => refs

def step (s : FrameLedger) (op : FrameOp) : FrameLedger where
  table := apply s.table op
  refs k :=
    if k = frameKey op.phys then account (s.table.entries k) (s.refs k) op else s.refs k

theorem entries_apply_of_ne (t : FrameTable) (op : FrameOp) {k : ℕ} (h : k ≠ frameKey op.phys) :
    (apply t op).entries k = t.entries k := by
  have hinsert := fun e => t.entries_insert_of_ne e h
  have hremove := t.entries_remove_of_ne h
  cases op with
  | initUnique phys =>
    simp only [apply, initUnique]
    split
    · rfl
    · exact hinsert _
  | share phys =>
    simp only [apply, share]
    split
    · split_ifs
      · exact hinsert _
      · exact hinsert _
      · exact hinsert _
      · rfl
    · exact hinsert _
  | unshare phys =>
    simp only [apply, unshare]
    split
    · split_ifs
      · exact hremove
      · exact hremove
      · exact hinsert _
      · exact hremove
      · rfl
    · rfl
  | tryUpgradeUnique phys =>
    simp only [apply, tryUpgradeUnique]
    split
    · split_ifs
      · exact hinsert _
      · exact hremove
      · rfl
    · rfl
  | folioMarkHead phys order =>
    simp only [apply, folioMarkHead]
    split
    · exact hinsert _
    · rfl
  | folioMarkTail phys =>
    simp only [apply, folioMarkTail]
    split
    · exact hinsert _
    · rfl
  | refcacheInit phys =>
    simp only [apply, refcacheInit]
    split
    · rfl
    · exact hinsert _
  | refcacheGlobalAdd phys delta =>
    obtain ⟨order, cnt, hadd⟩ := t.exists_refcacheGlobalAdd phys delta
    rw [apply, hadd]
    exact hinsert _

/-- The ledger agrees with an entry whose flags are those of a unique or a shared frame, and
with no entry. -/
def Tracked (refs : ℕ) : Option FrameEntry → Prop
  | none => refs = 0
  | some e => e.flags &&& .zombie = 0 ∧ (e.flags = .unique → refs = 1) ∧
      (e.flags = .shared → refs = e.refcount ∧ 1 ≤ e.refcount)

variable {phys refs : ℕ} {e : FrameEntry} {t : FrameTable} {s : FrameLedger} {op : FrameOp}

theorem tracked_of_other (hzombie : e.flags &&& .zombie = 0) (hunique : e.flags ≠ .unique)
    (hshared : e.flags ≠ .shared) : Tracked refs (some e) :=
  ⟨hzombie, fun h => absurd h hunique, fun h => absurd h hshared⟩

theorem tracked_refcache (refs order cnt : ℕ) : Tracked refs (some ⟨.refcache, order, cnt⟩) := by
  have hzombie : refcache &&& zombie = 0 := by decide
  have hunique : refcache ≠ .unique := by decide
  have hshared : refcache ≠ .shared := by decide
  exact tracked_of_other hzombie hunique hshared

theorem tracked_folio {bit : FrameFlags} (order cnt : ℕ)
    (hbit : bit = .folioHead ∨ bit = .folioTail) (hzombie : e.flags &&& .zombie = 0) :
    Tracked refs (some ⟨e.flags ||| bit, order, cnt⟩) := by
  have hmarked : ∀ f : BitVec 8, f &&& zombie = 0 → ∀ b : BitVec 8,
      b = folioHead ∨ b = folioTail →
      (f ||| b) &&& zombie = 0 ∧ f ||| b ≠ unique ∧
        f ||| b ≠ shared := by
    rintro f hf b (rfl | rfl)
    · revert f
      decide +kernel
    · revert f
      decide +kernel
  obtain ⟨hz, hu, hs⟩ := hmarked e.flags hzombie bit hbit
  exact tracked_of_other hz hu hs

/-- A sharing of the frame does not find its count at the end of the machine word. -/
def Room (phys : ℕ) (s : FrameLedger) : FrameOp → Prop
  | .share q => frameKey q = frameKey phys → s.table.refcount phys < u32Max
  | _ => True

theorem tracked_shared (order : ℕ) (hpos : 1 ≤ refs) :
    Tracked refs (some ⟨.shared, order, refs⟩) := by
  have hzombie : shared &&& zombie = 0 := by decide
  have hunique : shared ≠ .unique := by decide
  exact ⟨hzombie, fun h => absurd h hunique, fun _ => ⟨rfl, hpos⟩⟩

theorem tracked_unique (order cnt : ℕ) : Tracked 1 (some ⟨.unique, order, cnt⟩) := by
  have hzombie : unique &&& zombie = 0 := by decide
  have hshared : unique ≠ .shared := by decide
  exact ⟨hzombie, fun _ => rfl, fun h => absurd h hshared⟩

theorem Tracked.ne_zombie (h : Tracked refs (some e)) : e.flags ≠ .zombie := by
  intro hz
  have hzero := h.1
  rw [hz] at hzero
  exact absurd hzero (by decide)

section

variable (h : Tracked refs (t.entries (frameKey phys)))
include h

theorem Tracked.share (hroom : t.refcount phys < u32Max) :
    Tracked (account (t.entries (frameKey phys)) refs (.share phys))
      ((t.share phys).2.entries (frameKey phys)) := by
  cases hk : t.entries (frameKey phys) with
  | none =>
    rw [hk] at h
    obtain rfl : refs = 0 := h
    simpa [share, hk, account, FrameEntry.newShared] using
      tracked_shared 0 (Nat.le_refl 1)
  | some e =>
    rw [hk] at h
    have hcount : t.refcount phys = e.refcount := by simp [refcount, hk]
    by_cases hu : e.flags = .unique
    · have hafter : (t.share phys).2.entries (frameKey phys) = some e.promote := by
        simp [FrameTable.share, hk, hu]
      rw [hafter, account, map_some, if_pos (congrArg some hu), h.2.1 hu]
      exact tracked_shared e.order (Nat.le_refl 1)
    rw [account, map_some, if_neg (fun hsome => hu (some.inj hsome))]
    by_cases hs : e.flags = .shared
    · obtain ⟨hrefs, -⟩ := h.2.2 hs
      have hmod : (e.refcount + 1) % 2 ^ 32 = e.refcount + 1 := by
        unfold u32Max at hroom
        omega
      have hafter : (t.share phys).2.entries (frameKey phys) =
          some { e with refcount := e.refcount + 1 } := by
        simp only [FrameTable.share, hk, if_neg hu, if_pos hs, hmod,
          entries_insert_self]
      rw [hafter]
      exact ⟨h.1, fun hunique => absurd hunique hu,
        fun _ => ⟨congrArg (· + 1) hrefs, Nat.le_add_left 1 _⟩⟩
    · have hafter : (t.share phys).2.entries (frameKey phys) = some e := by
        simp only [FrameTable.share, hk, if_neg hu, if_neg hs, if_neg h.ne_zombie]
      rw [hafter]
      exact tracked_of_other h.1 hu hs

theorem Tracked.unshare : Tracked (refs - 1) ((t.unshare phys).2.entries (frameKey phys)) := by
  cases hk : t.entries (frameKey phys) with
  | none =>
    rw [hk] at h
    obtain rfl : refs = 0 := h
    simp [unshare, hk, Tracked]
  | some e =>
    rw [hk] at h
    by_cases hu : e.flags = .unique
    · simp [FrameTable.unshare, hk, hu, Tracked, h.2.1 hu]
    by_cases hs : e.flags = .shared
    · obtain ⟨hrefs, hpos⟩ := h.2.2 hs
      by_cases hlast : e.refcount ≤ 1
      · simp only [FrameTable.unshare, hk, if_neg hu, if_pos hs, if_pos hlast,
          entries_remove_self, Tracked]
        omega
      · simp only [FrameTable.unshare, hk, if_neg hu, if_pos hs, if_neg hlast,
          entries_insert_self]
        exact ⟨h.1, fun hunique => absurd hunique hu,
          fun _ => ⟨congrArg (· - 1) hrefs, Nat.le_sub_of_add_le (Nat.lt_of_not_le hlast)⟩⟩
    · simp only [FrameTable.unshare, hk, if_neg hu, if_neg hs, if_neg h.ne_zombie]
      exact tracked_of_other h.1 hu hs

theorem Tracked.tryUpgradeUnique :
    Tracked refs ((t.tryUpgradeUnique phys).2.entries (frameKey phys)) := by
  cases hk : t.entries (frameKey phys) with
  | none =>
    simpa only [FrameTable.tryUpgradeUnique, hk] using h
  | some e =>
    rw [hk] at h
    by_cases hone : e.flags = .shared ∧ e.refcount = 1
    · simp only [FrameTable.tryUpgradeUnique, hk, if_pos hone, entries_insert_self]
      obtain rfl : refs = 1 := (h.2.2 hone.1).1.trans hone.2
      exact tracked_unique e.order 0
    · -- a shared entry counts at least one reference
      have hzero : ¬(e.flags = .shared ∧ e.refcount = 0) := by
        rintro ⟨hs, hz⟩
        have hpos := (h.2.2 hs).2
        omega
      simpa only [FrameTable.tryUpgradeUnique, hk, if_neg hone, if_neg hzero] using h

end

theorem Tracked.apply (h : Tracked refs (t.entries (frameKey op.phys)))
    (hroom : ∀ q, op = .share q → t.refcount q < u32Max) :
    Tracked (account (t.entries (frameKey op.phys)) refs op)
      ((FrameLedger.apply t op).entries (frameKey op.phys)) := by
  cases op with
  | initUnique phys =>
    cases hk : t.entries (frameKey phys) with
    | none =>
      rw [FrameOp.phys, hk] at h
      obtain rfl : refs = 0 := h
      simpa [FrameLedger.apply, FrameOp.phys, initUnique, hk, account,
        FrameEntry.newUnique] using tracked_unique 0 0
    | some e =>
      simpa [FrameLedger.apply, FrameOp.phys, initUnique, hk, account] using h
  | share phys => exact h.share (hroom phys rfl)
  | unshare phys => exact h.unshare
  | tryUpgradeUnique phys => exact h.tryUpgradeUnique
  | folioMarkHead phys order =>
    cases hk : t.entries (frameKey phys) with
    | none => simpa [FrameLedger.apply, FrameOp.phys, folioMarkHead, hk, account] using h
    | some e =>
      rw [FrameOp.phys, hk] at h
      simpa [FrameLedger.apply, FrameOp.phys, folioMarkHead, hk, account] using
        tracked_folio order e.refcount (.inl rfl) h.1
  | folioMarkTail phys =>
    cases hk : t.entries (frameKey phys) with
    | none => simpa [FrameLedger.apply, FrameOp.phys, folioMarkTail, hk, account] using h
    | some e =>
      rw [FrameOp.phys, hk] at h
      simpa [FrameLedger.apply, FrameOp.phys, folioMarkTail, hk, account] using
        tracked_folio e.order e.refcount (.inr rfl) h.1
  | refcacheInit phys =>
    cases hk : t.entries (frameKey phys) with
    | none =>
      simpa [FrameLedger.apply, FrameOp.phys, refcacheInit, hk, account] using
        tracked_refcache refs 0 0
    | some e => simpa [FrameLedger.apply, FrameOp.phys, refcacheInit, hk, account] using h
  | refcacheGlobalAdd phys delta =>
    obtain ⟨order, cnt, hadd⟩ := t.exists_refcacheGlobalAdd phys delta
    have hafter : (FrameLedger.apply t (.refcacheGlobalAdd phys delta)).entries (frameKey phys) =
        some ⟨.refcache, order, cnt⟩ := by
      rw [FrameLedger.apply, hadd, entries_insert_self]
    rw [FrameOp.phys, hafter]
    exact tracked_refcache _ order cnt

theorem Tracked.step (h : Tracked (s.refs (frameKey phys)) (s.table.entries (frameKey phys)))
    (hroom : Room phys s op) :
    Tracked ((s.step op).refs (frameKey phys)) ((s.step op).table.entries (frameKey phys)) := by
  by_cases hkey : frameKey phys = frameKey op.phys
  · have hshare : ∀ q, op = .share q → s.table.refcount q < u32Max := by
      rintro q rfl
      have hq : s.table.refcount q = s.table.refcount phys := by
        rw [refcount, refcount, hkey]
        rfl
      rw [hq]
      exact hroom hkey.symm
    have hrefs : (s.step op).refs (frameKey phys) =
        account (s.table.entries (frameKey phys)) (s.refs (frameKey phys)) op := if_pos hkey
    rw [hrefs]
    rw [hkey] at h ⊢
    exact h.apply hshare
  · have hrefs : (s.step op).refs (frameKey phys) = s.refs (frameKey phys) := if_neg hkey
    have hentry : (s.step op).table.entries (frameKey phys) =
        s.table.entries (frameKey phys) := entries_apply_of_ne s.table op hkey
    rwa [hrefs, hentry]

def ReleasesLast (s : FrameLedger) (phys : ℕ) : Prop :=
  s.refs (frameKey phys) = 1 ∧ (s.table.decFrameRef phys).2.entries (frameKey phys) = none

/-- The entry is one of the reference cache or marked as part of a folio. -/
def Marked (e : FrameEntry) : Prop :=
  e.flags &&& .refcache ≠ 0 ∨ e.flags &&& .folioHead ≠ 0 ∨ e.flags &&& .folioTail ≠ 0

/-- `dec_frame_ref` says 0 only for the last reference, and never for a marked frame with
more than one. -/
def FreesSafely (s : FrameLedger) (phys : ℕ) : Prop :=
  ((s.table.decFrameRef phys).1 = 0 → s.ReleasesLast phys) ∧
    ∀ e, s.table.entries (frameKey phys) = some e → Marked e → 1 < e.refcount →
      (s.table.decFrameRef phys).1 ≠ 0

/-- The flags are exactly those of a unique or of a shared frame. -/
def Recognised (s : FrameLedger) (phys : ℕ) : Prop :=
  ∃ e, s.table.entries (frameKey phys) = some e ∧ (e.flags = .unique ∨ e.flags = .shared)

theorem Recognised.freesSafely
    (htracked : Tracked (s.refs (frameKey phys)) (s.table.entries (frameKey phys)))
    (h : s.Recognised phys) : s.FreesSafely phys := by
  obtain ⟨e, hk, hflags⟩ := h
  rw [hk] at htracked
  constructor
  · intro hzero
    rcases hflags with hu | hs
    · refine ⟨htracked.2.1 hu, ?_⟩
      simp only [decFrameRef, unshare, hk, if_pos hu,
        entries_remove_self]
    · have hu : e.flags ≠ .unique := by
        rw [hs]
        decide
      obtain ⟨hrefs, hpos⟩ := htracked.2.2 hs
      have hlast : e.refcount ≤ 1 := by
        by_contra hmore
        simp only [decFrameRef, unshare, hk, if_neg hu, if_pos hs,
          if_neg hmore] at hzero
        omega
      refine ⟨by omega, ?_⟩
      simp only [decFrameRef, unshare, hk, if_neg hu, if_pos hs,
        if_pos hlast, entries_remove_self]
  · intro e' hk' hmarked
    obtain rfl := some.inj (hk.symm.trans hk')
    have hplain : ¬Marked e := by
      unfold Marked
      rcases hflags with hf | hf
      · rw [hf]
        decide
      · rw [hf]
        decide
    exact absurd hmarked hplain

theorem FreesSafely.recognised
    (htracked : Tracked (s.refs (frameKey phys)) (s.table.entries (frameKey phys)))
    (h : s.FreesSafely phys) : s.Recognised phys := by
  cases hk : s.table.entries (frameKey phys) with
  | none =>
    have hzero : (s.table.decFrameRef phys).1 = 0 := by
      simp only [decFrameRef, unshare, hk]
    rw [hk] at htracked
    have hnone : s.refs (frameKey phys) = 0 := htracked
    have hone := (h.1 hzero).1
    omega
  | some e =>
    rw [hk] at htracked
    by_contra hnot
    have hflags : ¬(e.flags = .unique ∨ e.flags = .shared) := fun hf => hnot ⟨e, hk, hf⟩
    obtain ⟨hu, hs⟩ := not_or.mp hflags
    have hsame : s.table.decFrameRef phys = (0, s.table) := by
      simp only [decFrameRef, unshare, hk, if_neg hu, if_neg hs,
        if_neg htracked.ne_zombie]
    have hgone := (h.1 (congrArg Prod.fst hsame)).2
    rw [hsame, hk] at hgone
    cases hgone

/-- In every reachable state in which no sharing has wrapped the frame's count, freeing on 0
is safe exactly for frames whose flags are those of a unique or a shared frame. -/
theorem freesSafely_iff (ops : List FrameOp) (phys : ℕ)
    (hroom : Run.Along step (Room phys) new ops) :
    (Run.exec step new ops).FreesSafely phys ↔ (Run.exec step new ops).Recognised phys := by
  have hnew : Tracked (new.refs (frameKey phys)) (new.table.entries (frameKey phys)) := rfl
  have htracked := Run.Along.invariant
    (I := fun s => Tracked (s.refs (frameKey phys)) (s.table.entries (frameKey phys)))
    (fun _ _ hs hr => Tracked.step hs hr) hnew hroom
  exact ⟨FreesSafely.recognised htracked, Recognised.freesSafely htracked⟩

theorem freesSafely_iff_two_sharers :
    (Run.exec step new [.initUnique 0x5000, .share 0x5000, .share 0x5000]).FreesSafely 0x5000 :=
  (freesSafely_iff [.initUnique 0x5000, .share 0x5000, .share 0x5000] 0x5000
    ⟨trivial, fun _ => by decide, fun _ => by decide, trivial⟩).mpr ⟨_, rfl, .inr rfl⟩

/-- Two references of the reference cache, and two of a folio head, are outstanding, and
`dec_frame_ref` says 0. -/
theorem decFrameRef_zero_with_two_references :
    let cached := Run.exec step new [.refcacheInit 0x5000, .refcacheGlobalAdd 0x5000 2]
    let head := Run.exec step new [.share 0x5000, .share 0x5000, .folioMarkHead 0x5000 9]
    (cached.table.decFrameRef 0x5000).1 = 0 ∧ cached.refs 0x5000 = 2 ∧
      cached.table.refcount 0x5000 = 2 ∧ ¬cached.FreesSafely 0x5000 ∧
    (head.table.decFrameRef 0x5000).1 = 0 ∧ head.refs 0x5000 = 2 ∧
      head.table.refcount 0x5000 = 2 ∧ ¬head.FreesSafely 0x5000 := by
  refine ⟨by decide, by decide, by decide, fun h => ?_, by decide, by decide, by decide,
    fun h => ?_⟩
  · exact absurd (h.1 (by decide)).1 (by decide)
  · exact absurd (h.1 (by decide)).1 (by decide)

end FrameLedger

end EchOS.Memory
