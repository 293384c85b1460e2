import EchOS.Fs.FileLockExclusion
import EchOS.Fs.FileLockWait

/-! What a granted request does to the locks of its owner, byte by byte. The manager neither
splits nor replaces locks: a new lock stands beside the old ones of its owner, and an unlock
drops every lock it touches as a whole. -/

namespace EchOS.Fs

open List FileLock Bool

namespace FileLock

def typesAt (locks : List FileLock) (owner : FileLock) (byte : UInt64) : Set LockType :=
  {t | ∃ held ∈ locks, held.SameOwner owner ∧ held.Covers byte ∧ held.lType = t}

/-- The request gives its type to every byte of its range and to no other, and leaves the locks of
other owners and of other inodes. -/
structure SetsRange (before after : UInt64 → List FileLock) (inode : UInt64) (lock : FileLock) :
    Prop where
  inside : ∀ byte, lock.Covers byte →
    typesAt (after inode) lock byte = {t | t = lock.lType ∧ t ≠ .unlck}
  outside : ∀ byte, ¬ lock.Covers byte →
    typesAt (after inode) lock byte = typesAt (before inode) lock byte
  others : ((after inode).filter fun held => ¬ held.SameOwner lock) =
    (before inode).filter fun held => ¬ held.SameOwner lock
  elsewhere : ∀ inode' ≠ inode, after inode' = before inode'

def Retypes (locks : List FileLock) (lock : FileLock) : Prop :=
  ∀ held ∈ locks, held.SameOwner lock →
    ∀ byte, held.Covers byte → lock.Covers byte → held.lType = lock.lType

/-- Every lock of the owner with a byte of the range passes the overlap test. What passes it and
has the number of the owner belongs to the owner, and lies in the range up to bytes that another
lock of the same type holds apart from the range. -/
structure Unlocks (locks : List FileLock) (lock : FileLock) : Prop where
  tested : ∀ held ∈ locks, held.SameOwner lock →
    ∀ byte, held.Covers byte → lock.Covers byte → held.overlaps lock = true
  owned : ∀ held ∈ locks, held.lPid = lock.lPid → held.overlaps lock = true →
    held.isOfd = lock.isOfd
  covered : ∀ held ∈ locks, held.SameOwner lock → held.overlaps lock = true →
    ∀ byte, held.Covers byte → ¬ lock.Covers byte →
      ∃ kept ∈ locks, kept.SameOwner lock ∧ kept.overlaps lock = false ∧
        kept.Covers byte ∧ kept.lType = held.lType

variable {locks : List FileLock} {lock : FileLock}

theorem SameOwner.refl (lock : FileLock) : lock.SameOwner lock := ⟨rfl, rfl⟩

theorem typesAt_append (locks : List FileLock) (lock : FileLock) (byte : UInt64) :
    typesAt (locks ++ [lock]) lock byte =
      typesAt locks lock byte ∪ {t | lock.Covers byte ∧ lock.lType = t} := by
  ext t
  constructor
  · rintro ⟨held, hheld, howner, hcovers, htype⟩
    rcases mem_append.mp hheld with hheld | hheld
    · exact .inl ⟨held, hheld, howner, hcovers, htype⟩
    · obtain rfl := mem_singleton.mp hheld
      exact .inr ⟨hcovers, htype⟩
  · rintro (⟨held, hheld, howner, hcovers, htype⟩ | ⟨hcovers, htype⟩)
    · exact ⟨held, mem_append_left _ hheld, howner, hcovers, htype⟩
    · exact ⟨lock, mem_append_right _ mem_cons_self, .refl lock, hcovers, htype⟩

section Set

theorem setsRange_append_iff {before after : UInt64 → List FileLock} {inode : UInt64}
    (htype : lock.lType ≠ .unlck) (hafter : after inode = before inode ++ [lock])
    (helse : ∀ inode' ≠ inode, after inode' = before inode') :
    SetsRange before after inode lock ↔ Retypes (before inode) lock := by
  have htypes (byte : UInt64) := typesAt_append (before inode) lock byte
  constructor
  · intro h held hheld howner byte hcovers hrange
    have hmem : held.lType ∈ typesAt (after inode) lock byte := by
      rw [hafter, htypes]
      exact .inl ⟨held, hheld, howner, hcovers, rfl⟩
    rw [h.inside byte hrange] at hmem
    exact hmem.1
  · intro h
    refine ⟨fun byte hrange => ?_, fun byte hrange => ?_, ?_, helse⟩
    · rw [hafter, htypes]
      ext t
      constructor
      · rintro (⟨held, hheld, howner, hcovers, rfl⟩ | ⟨-, rfl⟩)
        · have heq := h held hheld howner byte hcovers hrange
          exact ⟨heq, heq ▸ htype⟩
        · exact ⟨rfl, htype⟩
      · rintro ⟨rfl, -⟩
        exact .inr ⟨hrange, rfl⟩
    · rw [hafter, htypes]
      have hnone : {t | lock.Covers byte ∧ lock.lType = t} = ∅ := by
        ext t
        simp [hrange]
      rw [hnone, Set.union_empty]
    · rw [hafter, filter_append]
      have hself : [lock].filter (fun held => ¬ held.SameOwner lock) = [] := by
        simp [SameOwner.refl]
      rw [hself, append_nil]

end Set

section Unlock

theorem mem_unlocked {held : FileLock} :
    held ∈ locks.filter (fun l => l.lPid ≠ lock.lPid || !l.overlaps lock) ↔
      held ∈ locks ∧ ¬ (held.lPid = lock.lPid ∧ held.overlaps lock = true) := by
  by_cases hpid : held.lPid = lock.lPid <;> simp [hpid]

theorem typesAt_unlocked (locks : List FileLock) (lock : FileLock) (byte : UInt64) :
    typesAt (locks.filter fun l => l.lPid ≠ lock.lPid || !l.overlaps lock) lock byte =
      {t | ∃ kept ∈ locks, kept.SameOwner lock ∧ kept.overlaps lock = false ∧
        kept.Covers byte ∧ kept.lType = t} := by
  ext t
  constructor
  · rintro ⟨held, hheld, howner, hcovers, htype⟩
    obtain ⟨hmem, hkept⟩ := mem_unlocked.mp hheld
    have hapart : held.overlaps lock = false := by
      rw [← not_eq_true]
      exact fun hoverlap => hkept ⟨howner.2, hoverlap⟩
    exact ⟨held, hmem, howner, hapart, hcovers, htype⟩
  · rintro ⟨kept, hkept, howner, hapart, hcovers, htype⟩
    refine ⟨kept, mem_unlocked.mpr ⟨hkept, fun hdrop => ?_⟩, howner, hcovers, htype⟩
    exact absurd (hapart.symm.trans hdrop.2) false_ne_true

theorem setsRange_unlocked_iff {before after : UInt64 → List FileLock} {inode : UInt64}
    (htype : lock.lType = .unlck) (hafter : after inode =
      (before inode).filter fun l => l.lPid ≠ lock.lPid || !l.overlaps lock)
    (helse : ∀ inode' ≠ inode, after inode' = before inode') :
    SetsRange before after inode lock ↔ Unlocks (before inode) lock := by
  have htypes (byte : UInt64) := typesAt_unlocked (before inode) lock byte
  constructor
  · intro h
    refine ⟨fun held hheld howner byte hcovers hrange => ?_, fun held hheld hpid hoverlap => ?_,
      fun held hheld howner hoverlap byte hcovers hrange => ?_⟩
    · by_contra hapart
      have hmem : held.lType ∈ typesAt (after inode) lock byte := by
        rw [hafter, htypes]
        exact ⟨held, hheld, howner, eq_false_iff.mpr hapart, hcovers, rfl⟩
      rw [h.inside byte hrange, htype] at hmem
      exact hmem.2 hmem.1
    · by_contra hofd
      have hother : ¬ held.SameOwner lock := fun howner => hofd howner.1
      have hbefore : held ∈ (before inode).filter fun held => ¬ held.SameOwner lock :=
        mem_filter.mpr ⟨hheld, by simpa using hother⟩
      rw [← h.others, hafter] at hbefore
      exact (mem_unlocked.mp (mem_filter.mp hbefore).1).2 ⟨hpid, hoverlap⟩
    · have hmem : held.lType ∈ typesAt (before inode) lock byte :=
        ⟨held, hheld, howner, hcovers, rfl⟩
      rw [← h.outside byte hrange, hafter, htypes] at hmem
      exact hmem
  · intro h
    refine ⟨fun byte hrange => ?_, fun byte hrange => ?_, ?_, helse⟩
    · rw [hafter, htypes, htype]
      ext t
      constructor
      · rintro ⟨kept, hkept, howner, hapart, hcovers, -⟩
        rw [h.tested kept hkept howner byte hcovers hrange] at hapart
        exact absurd hapart.symm false_ne_true
      · rintro ⟨rfl, hne⟩
        exact absurd rfl hne
    · rw [hafter, htypes]
      ext t
      constructor
      · rintro ⟨kept, hkept, howner, -, hcovers, rfl⟩
        exact ⟨kept, hkept, howner, hcovers, rfl⟩
      · rintro ⟨held, hheld, howner, hcovers, rfl⟩
        by_cases hoverlap : held.overlaps lock = true
        · exact h.covered held hheld howner hoverlap byte hcovers hrange
        · exact ⟨held, hheld, howner, eq_false_iff.mpr hoverlap, hcovers, rfl⟩
    · rw [hafter, filter_filter]
      apply filter_congr
      intro held hheld
      by_cases hpid : held.lPid = lock.lPid
      · by_cases hoverlap : held.overlaps lock = true
        · have howner : held.SameOwner lock := ⟨h.owned held hheld hpid hoverlap, hpid⟩
          simp [howner]
        · simp [hoverlap]
      · simp [hpid]

end Unlock

end FileLock

namespace FileLockManager

variable {m m' : FileLockManager} {inode : UInt64} {lock : FileLock}

def ServesRange (m : FileLockManager) (inode : UInt64) (lock : FileLock) : Prop :=
  if lock.lType = .unlck then Unlocks (m.posixLocks inode) lock
  else Retypes (m.posixLocks inode) lock

theorem acquire_setsRange_iff (h : m.acquirePosixLock inode lock = (.ok (), m')) :
    SetsRange m.posixLocks m'.posixLocks inode lock ↔ m.ServesRange inode lock := by
  cases hfree : m.canAcquirePosixLock inode lock with
  | false =>
    rw [acquirePosixLock_of_conflict hfree] at h
    cases h
  | true =>
    obtain ⟨after, hacquire, -, hlocks⟩ := acquirePosixLock_of_free hfree
    obtain rfl : after = m' := congrArg Prod.snd (hacquire.symm.trans h)
    have hhere := (hlocks inode).trans (if_pos rfl)
    have helse : ∀ inode' ≠ inode, after.posixLocks inode' = m.posixLocks inode' :=
      fun inode' hne => (hlocks inode').trans (if_neg hne)
    unfold ServesRange
    rw [locksAfter] at hhere
    split_ifs at hhere ⊢ with htype
    · exact setsRange_unlocked_iff htype hhere helse
    · exact setsRange_append_iff htype hhere helse

end FileLockManager

namespace LockSystem

variable {s : LockSystem} {e : LockEvent} {inode : UInt64} {lock : FileLock}

/-- The set or unlock that an event carries out: `F_SETLK` at once, `F_SETLKW` at a retry. -/
def granted (s : LockSystem) : LockEvent → Option (UInt64 × FileLock)
  | .call pid inode fd cmd arg =>
    match s.waiting pid, lockOf pid fd cmd arg with
    | none, .ok lock =>
      if posixCommand cmd = fSetlk ∧ s.manager.canAcquirePosixLock inode lock then
        some (inode, lock)
      else none
    | _, _ => none
  | .retry pid =>
    match s.waiting pid with
    | some (inode, lock) =>
      if s.manager.canAcquirePosixLock inode lock then some (inode, lock) else none
    | none => none

theorem posixLocks_step_of_granted (h : s.granted e = some (inode, lock)) :
    ∃ m', s.manager.acquirePosixLock inode lock = (.ok (), m') ∧
      (s.step e).manager.posixLocks = m'.posixLocks := by
  cases e with
  | call pid inode' fd cmd arg =>
    unfold granted at h
    cases hwait : s.waiting pid with
    | some request => simp [hwait] at h
    | none =>
      cases hlock : lockOf pid fd cmd arg with
      | error errno => simp [hwait, hlock] at h
      | ok lock' =>
        simp only [hwait, hlock] at h
        split_ifs at h with hset
        obtain ⟨rfl, rfl⟩ := Prod.mk.inj (Option.some.inj h)
        obtain ⟨m', hacquire, -, -⟩ := FileLockManager.acquirePosixLock_of_free hset.2
        refine ⟨m', hacquire, ?_⟩
        have hne : posixCommand cmd ≠ fGetlk := by
          rw [hset.1]
          decide
        have hcall : sysFcntlLock s.manager pid inode' fd cmd arg =
            some (.returned 0 none, m') := by
          unfold sysFcntlLock
          rw [hlock]
          dsimp only
          rw [if_neg hne, if_pos hset.1, hacquire]
        simp only [step, hwait, hcall]
  | retry pid =>
    unfold granted at h
    cases hwait : s.waiting pid with
    | none => simp [hwait] at h
    | some request =>
      obtain ⟨inode', lock'⟩ := request
      simp only [hwait] at h
      split_ifs at h with hfree
      obtain ⟨rfl, rfl⟩ := Prod.mk.inj (Option.some.inj h)
      obtain ⟨m', hacquire, -, -⟩ := FileLockManager.acquirePosixLock_of_free hfree
      refine ⟨m', hacquire, ?_⟩
      have hretry : retryLock s.manager inode' lock' = (true, m'.removeWaitEdges lock'.lPid) := by
        unfold retryLock
        rw [hacquire]
      simp only [step, hwait, hretry]
      rfl

/-- A granted request has its effect byte by byte exactly when, before it, the owner's locks on
the range have the type that is set, or, for an unlock, the locks that the overlap test finds are
the owner's and end with the range. -/
theorem granted_setsRange_iff (s : LockSystem) (e : LockEvent) (inode : UInt64) (lock : FileLock)
    (h : s.granted e = some (inode, lock)) :
    SetsRange s.manager.posixLocks (s.step e).manager.posixLocks inode lock ↔
      s.manager.ServesRange inode lock := by
  obtain ⟨m', hacquire, hlocks⟩ := posixLocks_step_of_granted h
  rw [hlocks]
  exact FileLockManager.acquire_setsRange_iff hacquire

/-- A process read-locks ten bytes and write-locks everything behind them. -/
theorem granted_setsRange_behind :
    let s := Run.exec step init [.call 1 7 3 fSetlk ⟨0, 0, 10, 0⟩]
    let e := LockEvent.call 1 7 3 fSetlk ⟨1, 10, 0, 0⟩
    let lock : FileLock := ⟨.wrlck, 10, 0, 1, false⟩
    s.granted e = some (7, lock) ∧
      SetsRange s.manager.posixLocks (s.step e).manager.posixLocks 7 lock := by
  intro s e lock
  have hgranted : s.granted e = some (7, lock) := by decide
  refine ⟨hgranted, (granted_setsRange_iff s e 7 lock hgranted).mpr ?_⟩
  have hlocks : s.manager.posixLocks 7 = [⟨.rdlck, 0, 10, 1, false⟩] := by decide
  have hserves : Retypes (s.manager.posixLocks 7) lock := by
    intro held hheld _ byte hcovers hrange
    obtain rfl := mem_singleton.mp hheld
    have hbelow : byte.toNat < 10 := hcovers.2.resolve_left (by decide)
    have habove : 10 ≤ byte.toNat := UInt64.le_iff_toNat_le.mp hrange.1
    omega
  exact hserves

/-- A process write-locks a hundred bytes and unlocks ten in the middle: it loses all of them. -/
theorem unlock_in_the_middle_drops_all :
    let s := Run.exec step init [.call 1 7 3 fSetlk ⟨1, 0, 100, 0⟩]
    let e := LockEvent.call 1 7 3 fSetlk ⟨2, 10, 10, 0⟩
    let lock : FileLock := ⟨.unlck, 10, 10, 1, false⟩
    s.granted e = some (7, lock) ∧ ¬ lock.Covers 50 ∧
      .wrlck ∈ typesAt (s.manager.posixLocks 7) lock 50 ∧
      typesAt ((s.step e).manager.posixLocks 7) lock 50 = ∅ := by
  intro s e lock
  have hbefore : s.manager.posixLocks 7 = [⟨.wrlck, 0, 100, 1, false⟩] := by decide
  have hafter : (s.step e).manager.posixLocks 7 = [] := by decide
  refine ⟨by decide, by decide, ?_, ?_⟩
  · rw [hbefore]
    exact ⟨_, mem_cons_self, by decide, by decide, rfl⟩
  · rw [hafter]
    ext t
    simp [typesAt]

end LockSystem

end EchOS.Fs
