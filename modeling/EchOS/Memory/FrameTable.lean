import Mathlib.Algebra.GroupWithZero.Nat
import Mathlib.Tactic.Common
import Mathlib.Data.Int.Basic

/-! The frame table of `memory/frame_ownership/mod.rs`: reference counts of physical frames. -/

namespace EchOS.Memory

def frameKey (phys : ℕ) : ℕ := phys - phys % 4096

@[simp] theorem frameKey_frameKey (phys : ℕ) : frameKey (frameKey phys) = frameKey phys := by
  unfold frameKey
  omega

abbrev FrameFlags := BitVec 8

namespace FrameFlags

def unique : FrameFlags := 0b0001
def shared : FrameFlags := 0b0010
def zombie : FrameFlags := 0b0100
def refcache : FrameFlags := 0b1000
def folioHead : FrameFlags := 0b0001_0000
def folioTail : FrameFlags := 0b0010_0000

end FrameFlags

structure FrameEntry where
  flags : FrameFlags
  order : ℕ
  refcount : ℕ
  deriving DecidableEq

namespace FrameEntry

def newUnique : FrameEntry := ⟨.unique, 0, 0⟩
def newShared : FrameEntry := ⟨.shared, 0, 1⟩

def promote (e : FrameEntry) : FrameEntry := { e with flags := .shared, refcount := 1 }

end FrameEntry

def u32Max : ℕ := 2 ^ 32 - 1

/-- The ordered map of the source, read only through its keys. -/
structure FrameTable where
  entries : ℕ → Option FrameEntry

namespace FrameTable

def new : FrameTable := ⟨fun _ => none⟩

variable (t : FrameTable) {key k : ℕ} (phys : ℕ)

def insert (key : ℕ) (e : FrameEntry) : FrameTable :=
  ⟨fun k => if k = key then some e else t.entries k⟩

def remove (key : ℕ) : FrameTable :=
  ⟨fun k => if k = key then none else t.entries k⟩

def refcount (t : FrameTable) (phys : ℕ) : ℕ :=
  ((t.entries (frameKey phys)).map FrameEntry.refcount).getD 0

def saturatingCount (old : ℕ) (delta : ℤ) : ℕ :=
  if 0 < delta then min (old + delta.toNat) u32Max else old - (-delta).toNat

def refcacheGlobalAdd (phys : ℕ) (delta : ℤ) : ℕ × FrameTable :=
  let key := frameKey phys
  match t.entries key with
  | some e =>
    if e.flags = .unique then
      let cnt := if 0 < delta then 1 else 0
      (cnt, t.insert key { e with flags := .refcache, refcount := cnt })
    else if e.flags = .refcache ∨ e.flags = .shared then
      let cnt := saturatingCount e.refcount delta
      (cnt, t.insert key { e with flags := .refcache, refcount := cnt })
    else if e.flags = .zombie then
      let cnt := if 0 < delta then delta.toNat else 0
      (cnt, t.insert key { e with flags := .refcache, refcount := cnt })
    else
      let cnt := if 0 < delta then delta.toNat else 0
      (cnt, t.insert key ⟨.refcache, 0, cnt⟩)
  | none =>
    let cnt := if 0 < delta then delta.toNat else 0
    (cnt, t.insert key ⟨.refcache, 0, cnt⟩)

def initUnique (phys : ℕ) : FrameTable :=
  let key := frameKey phys
  match t.entries key with
  | some _ => t
  | none => t.insert key .newUnique

/-- The count that is returned and the table. `fetch_add` wraps; an entry with any other
flags is left as it is. -/
def share (phys : ℕ) : ℕ × FrameTable :=
  let key := frameKey phys
  match t.entries key with
  | some e =>
    if e.flags = .unique then (1, t.insert key e.promote)
    else if e.flags = .shared then
      let cnt := (e.refcount + 1) % 2 ^ 32
      (cnt, t.insert key { e with refcount := cnt })
    else if e.flags = .zombie then (2, t.insert key { e with flags := .shared, refcount := 2 })
    else (e.refcount, t)
  | none => (1, t.insert key .newShared)

/-- An entry with any other flags, like no entry, gives 0. -/
def unshare (phys : ℕ) : ℕ × FrameTable :=
  let key := frameKey phys
  match t.entries key with
  | some e =>
    if e.flags = .unique then (0, t.remove key)
    else if e.flags = .shared then
      if e.refcount ≤ 1 then (0, t.remove key)
      else (e.refcount - 1, t.insert key { e with refcount := e.refcount - 1 })
    else if e.flags = .zombie then (0, t.remove key)
    else (0, t)
  | none => (0, t)

def decFrameRef (phys : ℕ) : ℕ × FrameTable := t.unshare phys

def tryUpgradeUnique (phys : ℕ) : Bool × FrameTable :=
  let key := frameKey phys
  match t.entries key with
  | some e =>
    if e.flags = .shared ∧ e.refcount = 1 then
      (true, t.insert key { e with flags := .unique, refcount := 0 })
    else if e.flags = .shared ∧ e.refcount = 0 then (true, t.remove key)
    else (false, t)
  | none => (false, t)

def folioMarkHead (phys order : ℕ) : FrameTable :=
  let key := frameKey phys
  match t.entries key with
  | some e => t.insert key { e with flags := e.flags ||| .folioHead, order := order }
  | none => t

def folioMarkTail (phys : ℕ) : FrameTable :=
  let key := frameKey phys
  match t.entries key with
  | some e => t.insert key { e with flags := e.flags ||| .folioTail }
  | none => t

def refcacheInit (phys : ℕ) : FrameTable :=
  let key := frameKey phys
  match t.entries key with
  | some _ => t
  | none => t.insert key ⟨.refcache, 0, 0⟩

/-- Whether the frame's entry was removed, and the table left. -/
def refcacheTryRemove (phys : ℕ) : Bool × FrameTable :=
  let key := frameKey phys
  match t.entries key with
  | some e =>
    if e.flags = .refcache ∨ e.flags = .shared then
      if e.refcount = 0 then (true, t.remove key) else (false, t)
    else (false, t)
  | none => (false, t)

@[simp] theorem entries_insert_self (key : ℕ) (e : FrameEntry) :
    (t.insert key e).entries key = some e := if_pos rfl

theorem entries_insert_of_ne (e : FrameEntry) (h : k ≠ key) :
    (t.insert key e).entries k = t.entries k := if_neg h

@[simp] theorem entries_remove_self (key : ℕ) : (t.remove key).entries key = none := if_pos rfl

theorem entries_remove_of_ne (h : k ≠ key) :
    (t.remove key).entries k = t.entries k := if_neg h

def RefcacheOnly : Prop :=
  ∀ key e, t.entries key = some e → e.flags = .refcache

theorem exists_refcacheGlobalAdd (delta : ℤ) :
    ∃ order cnt, (t.refcacheGlobalAdd phys delta).2 =
      t.insert (frameKey phys) ⟨.refcache, order, cnt⟩ := by
  cases hk : t.entries (frameKey phys) with
  | none =>
    simp only [refcacheGlobalAdd, hk]
    exact ⟨_, _, rfl⟩
  | some e =>
    by_cases hunique : e.flags = .unique
    · simp only [refcacheGlobalAdd, hk, if_pos hunique]
      exact ⟨_, _, rfl⟩
    by_cases hcounted : e.flags = .refcache ∨ e.flags = .shared
    · simp only [refcacheGlobalAdd, hk, if_neg hunique, if_pos hcounted]
      exact ⟨_, _, rfl⟩
    by_cases hzombie : e.flags = .zombie
    · simp only [refcacheGlobalAdd, hk, if_neg hunique, if_neg hcounted, if_pos hzombie]
      exact ⟨_, _, rfl⟩
    · simp only [refcacheGlobalAdd, hk, if_neg hunique, if_neg hcounted, if_neg hzombie]
      exact ⟨_, _, rfl⟩

theorem RefcacheOnly.insert {t : FrameTable} (h : t.RefcacheOnly) (key : ℕ) {e : FrameEntry}
    (he : e.flags = .refcache) : (t.insert key e).RefcacheOnly := by
  intro k e' hk
  simp only [FrameTable.insert] at hk
  split_ifs at hk
  · exact Option.some.inj hk ▸ he
  · exact h k e' hk

theorem refcacheGlobalAdd_eq {t : FrameTable} {phys : ℕ}
    (h : ∀ e, t.entries (frameKey phys) = some e → e.flags = .refcache) {delta : ℤ}
    (hle : t.refcount phys + delta ≤ u32Max) :
    ∃ e : FrameEntry, e.flags = .refcache ∧ (e.refcount : ℤ) = max (t.refcount phys + delta) 0 ∧
      t.refcacheGlobalAdd phys delta = (e.refcount, t.insert (frameKey phys) e) := by
  cases hk : t.entries (frameKey phys) with
  | none =>
    have hz : t.refcount phys = 0 := by simp [refcount, hk]
    refine ⟨⟨.refcache, 0, if 0 < delta then delta.toNat else 0⟩, rfl, ?_, ?_⟩
    · change ((if 0 < delta then delta.toNat else 0 : ℕ) : ℤ) = _
      split_ifs <;> omega
    · simp only [refcacheGlobalAdd, hk]
  | some e =>
    have hf := h e hk
    have hc : t.refcount phys = e.refcount := by simp [refcount, hk]
    have hnu : ¬ FrameFlags.refcache = .unique := by decide
    refine ⟨{ e with flags := .refcache, refcount := saturatingCount e.refcount delta },
      rfl, ?_, ?_⟩
    · change ((saturatingCount e.refcount delta : ℕ) : ℤ) = _
      unfold saturatingCount
      split_ifs <;> omega
    · simp only [refcacheGlobalAdd, hk, if_neg hnu, hf, true_or, if_true]

theorem refcacheTryRemove_cases : t.refcacheTryRemove phys = (false, t) ∨
      t.refcount phys = 0 ∧ t.refcacheTryRemove phys = (true, t.remove (frameKey phys)) := by
  cases hk : t.entries (frameKey phys) with
  | none => simp only [refcacheTryRemove, hk, true_or]
  | some e =>
    simp only [refcacheTryRemove, hk]
    split_ifs with _ hz
    · exact .inr ⟨by simp [refcount, hk, hz], rfl⟩
    · exact .inl rfl
    · exact .inl rfl

theorem refcount_refcacheTryRemove (q : ℕ) :
    (t.refcacheTryRemove phys).2.refcount q = t.refcount q := by
  obtain h | ⟨hz, h⟩ := t.refcacheTryRemove_cases phys
  · rw [h]
  · rw [h]
    by_cases hq : frameKey q = frameKey phys
    · have hqz : t.refcount q = 0 := by rw [← hz, refcount, refcount, hq]
      rw [hqz]
      simp [refcount, remove, hq]
    · simp [refcount, remove, hq]

theorem RefcacheOnly.refcacheTryRemove {t : FrameTable} (h : t.RefcacheOnly) (phys : ℕ) :
    (t.refcacheTryRemove phys).2.RefcacheOnly := by
  obtain hr | ⟨-, hr⟩ := t.refcacheTryRemove_cases phys
  · rw [hr]
    exact h
  · rw [hr]
    intro k e hk
    simp only [remove, Option.ite_none_left_eq_some] at hk
    exact h k e hk.2

end FrameTable

end EchOS.Memory
