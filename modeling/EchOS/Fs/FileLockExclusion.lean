import EchOS.Fs.FileLock
import EchOS.Lib.Run

/-! Exclusion between record locks along every history of requests and releases, and what
`isLocked` answers there. Ranges end where their length says; the last offset of 64 bits is
where the source's ends differ from that. -/

namespace EchOS.Fs

open List Run

namespace FileLock

def SameOwner (lock other : FileLock) : Prop :=
  lock.isOfd = other.isOfd ∧ lock.lPid = other.lPid

instance (lock other : FileLock) : Decidable (lock.SameOwner other) :=
  inferInstanceAs (Decidable (_ ∧ _))

/-- The byte is in the range of the lock; a length of 0 reaches to the end. -/
def Covers (lock : FileLock) (byte : UInt64) : Prop :=
  lock.lStart ≤ byte ∧ (lock.lLen = 0 ∨ byte.toNat < lock.lStart.toNat + lock.lLen.toNat)

instance (lock : FileLock) (byte : UInt64) : Decidable (lock.Covers byte) :=
  inferInstanceAs (Decidable (_ ∧ _))

/-- A write lock forbids every access, a read lock that of writers. -/
def Forbids (lock : FileLock) (write : Bool) : Prop :=
  lock.lType = .wrlck ∨ lock.lType = .rdlck ∧ write = true

def lastByte : UInt64 := UInt64.ofNat (2 ^ 64 - 1)

theorem toNat_lastByte : lastByte.toNat = 2 ^ 64 - 1 := rfl

variable {byte : UInt64} {lock other : FileLock}

theorem toNat_lt_of_ne_lastByte (h : byte ≠ lastByte) : byte.toNat < 2 ^ 64 - 1 := by
  have hlt := byte.toNat_lt
  have hne : byte.toNat ≠ lastByte.toNat := fun heq => h (UInt64.toNat_inj.mp heq)
  rw [toNat_lastByte] at hne
  omega

theorem stop_le (lock : FileLock) : lock.stop ≤ 2 ^ 64 - 1 := by
  unfold stop
  split_ifs
  · exact Nat.le_refl _
  · exact Nat.min_le_right _ _

theorem covers_iff_lt_stop (lock : FileLock) (h : byte ≠ lastByte) :
    lock.Covers byte ↔ lock.lStart.toNat ≤ byte.toNat ∧ byte.toNat < lock.stop := by
  have hlt := toNat_lt_of_ne_lastByte h
  unfold Covers stop
  rw [UInt64.le_iff_toNat_le]
  split_ifs with hlen
  · simp only [hlen, true_or, and_true]
    omega
  · simp only [hlen, false_or]
    omega

theorem containsOffset_iff (lock : FileLock) (h : byte ≠ lastByte) :
    lock.containsOffset byte = true ↔ lock.Covers byte := by
  rw [covers_iff_lt_stop lock h, containsOffset, Bool.and_eq_true, decide_eq_true_eq,
    decide_eq_true_eq, UInt64.le_iff_toNat_le]

theorem containsOffset_lastByte (lock : FileLock) : lock.containsOffset lastByte = false := by
  have hstop := lock.stop_le
  rw [containsOffset, Bool.and_eq_false_iff]
  right
  rw [decide_eq_false_iff_not, toNat_lastByte]
  omega

theorem overlaps_of_covers (h : byte ≠ lastByte) (h₁ : lock.Covers byte) (h₂ : other.Covers byte) :
    lock.overlaps other = true := by
  rw [covers_iff_lt_stop _ h] at h₁ h₂
  rw [overlaps, Bool.and_eq_true, decide_eq_true_eq, decide_eq_true_eq]
  omega

def Clash (lock other : FileLock) (byte : UInt64) : Prop :=
  ¬ lock.SameOwner other ∧ (lock.lType = .wrlck ∨ other.lType = .wrlck) ∧
    lock.Covers byte ∧ other.Covers byte

theorem Clash.symm (h : lock.Clash other byte) : other.Clash lock byte := by
  obtain ⟨howner, htype, hlock, hother⟩ := h
  refine ⟨fun hsame => howner ⟨hsame.1.symm, hsame.2.symm⟩, htype.symm, hother, hlock⟩

theorem Clash.conflictsWith (h : lock.Clash other byte) (hbyte : byte ≠ lastByte)
    (hlock : lock.lType ≠ .unlck) (hother : other.lType ≠ .unlck) :
    lock.conflictsWith other = true := by
  obtain ⟨howner, htype, hcovers, hcovers'⟩ := h
  have hoverlap := overlaps_of_covers hbyte hcovers hcovers'
  have hread : ¬ (lock.lType = .rdlck ∧ other.lType = .rdlck) := by
    rintro ⟨hr, hr'⟩
    rw [hr, hr'] at htype
    simp at htype
  have hdiffer : ¬ (lock.isOfd = other.isOfd ∧ lock.lPid = other.lPid) := howner
  unfold FileLock.conflictsWith
  rw [if_neg hdiffer, if_neg (by simp [hlock, hother]), if_neg hread]
  exact hoverlap

end FileLock

inductive LockCall
  | acquire (inode : UInt64) (lock : FileLock)
  | releaseAll (pid : UInt64)
  | releaseOfd (fd : UInt64)

namespace FileLockManager

open FileLock

def apply (m : FileLockManager) : LockCall → FileLockManager
  | .acquire inode lock => (m.acquirePosixLock inode lock).2
  | .releaseAll pid => m.releaseAllLocks pid
  | .releaseOfd fd => m.releaseOfdLocks fd

def ExclusiveAt (m : FileLockManager) (byte : UInt64) : Prop :=
  ∀ inode, ∀ lock ∈ m.posixLocks inode, ∀ other ∈ m.posixLocks inode, ¬ lock.Clash other byte

def AnswersAt (m : FileLockManager) (byte : UInt64) : Prop :=
  ∀ inode write, m.isLocked inode byte write = true ↔
    ∃ lock ∈ m.posixLocks inode, lock.Covers byte ∧ lock.Forbids write

def Sound (m : FileLockManager) : Prop := ∀ byte, m.ExclusiveAt byte ∧ m.AnswersAt byte

def TakesLast (m : FileLockManager) : LockCall → Prop
  | .acquire inode lock =>
    lock.lType ≠ .unlck ∧ lock.Covers lastByte ∧ m.canAcquirePosixLock inode lock
  | _ => False

theorem posixLocks_apply (m : FileLockManager) (call : LockCall) (inode : UInt64) :
    ((m.apply call).posixLocks inode).Sublist (m.posixLocks inode) ∨
      ∃ lock, call = .acquire inode lock ∧ lock.lType ≠ .unlck ∧
        m.canAcquirePosixLock inode lock = true ∧
        (m.apply call).posixLocks inode = m.posixLocks inode ++ [lock] := by
  cases call with
  | releaseAll pid | releaseOfd fd => exact .inl filter_sublist
  | acquire inode' lock =>
    unfold apply
    dsimp only
    cases hfree : m.canAcquirePosixLock inode' lock with
    | false =>
      rw [acquirePosixLock_of_conflict hfree]
      exact .inl (Sublist.refl _)
    | true =>
      obtain ⟨m', hacquire, -, hlocks⟩ := acquirePosixLock_of_free hfree
      rw [hacquire, hlocks]
      split_ifs with hinode
      · subst hinode
        unfold locksAfter
        split_ifs with htype
        · exact .inl filter_sublist
        · exact .inr ⟨lock, rfl, htype, hfree, rfl⟩
      · exact .inl (Sublist.refl _)

/-- Held locks are read or write locks, and exclude each other below the last offset. -/
structure Exclusive (m : FileLockManager) : Prop where
  held : ∀ inode, ∀ lock ∈ m.posixLocks inode, lock.lType ≠ .unlck
  exclusive : ∀ byte, byte ≠ lastByte → m.ExclusiveAt byte

theorem exclusive_new : new.Exclusive := by
  constructor
  · intro inode lock hlock
    exact absurd hlock not_mem_nil
  · intro byte _ inode lock hlock
    exact absurd hlock not_mem_nil

variable {m : FileLockManager} {call : LockCall}

theorem Exclusive.apply (h : m.Exclusive) (call : LockCall) : (m.apply call).Exclusive := by
  constructor
  · intro inode lock hlock
    rcases posixLocks_apply m call inode with hsub | ⟨added, -, htype, -, hlocks⟩
    · exact h.held inode lock (hsub.subset hlock)
    · rw [hlocks, mem_append, mem_singleton] at hlock
      rcases hlock with hlock | rfl
      · exact h.held inode lock hlock
      · exact htype
  · intro byte hbyte inode lock hlock other hother hclash
    rcases posixLocks_apply m call inode with hsub | ⟨added, -, htype, hfree, hlocks⟩
    · exact h.exclusive byte hbyte inode lock (hsub.subset hlock) other (hsub.subset hother) hclash
    · -- the added lock would have conflicted with the one it clashes with
      have hadded : ∀ old ∈ m.posixLocks inode, ¬ added.Clash old byte := by
        intro old hold hclash
        have hconflict := hclash.conflictsWith hbyte htype (h.held inode old hold)
        unfold canAcquirePosixLock at hfree
        rw [Bool.not_eq_true', any_eq_false] at hfree
        exact hfree old hold hconflict
      rw [hlocks, mem_append, mem_singleton] at hlock hother
      rcases hlock with hlock | rfl
      · rcases hother with hother | rfl
        · exact h.exclusive byte hbyte inode lock hlock other hother hclash
        · exact hadded lock hlock hclash.symm
      · rcases hother with hother | rfl
        · exact hadded other hother hclash
        · exact hclash.1 ⟨rfl, rfl⟩

theorem exclusive_exec (calls : List LockCall) : (exec apply new calls).Exclusive :=
  exec_invariant (fun _ call h => h.apply call) exclusive_new calls

theorem answersAt (m : FileLockManager) {byte : UInt64} (h : byte ≠ lastByte) :
    m.AnswersAt byte := by
  intro inode write
  unfold isLocked
  rw [any_eq_true]
  apply exists_congr
  intro lock
  rw [Bool.and_eq_true, containsOffset_iff lock h]
  simp [Forbids]

theorem Exclusive.sound_iff (h : m.Exclusive) :
    m.Sound ↔ ∀ inode, ∀ lock ∈ m.posixLocks inode, ¬ lock.Covers lastByte := by
  have hunlocked : ∀ inode write, m.isLocked inode lastByte write = false := by
    intro inode write
    unfold isLocked
    rw [any_eq_false]
    intro lock _
    rw [containsOffset_lastByte]
    exact Bool.false_ne_true
  constructor
  · intro hsound inode lock hlock hcovers
    have hforbids : lock.Forbids true := by
      unfold Forbids
      have htype := h.held inode lock hlock
      cases hkind : lock.lType <;> simp_all
    have hlocked := ((hsound lastByte).2 inode true).mpr ⟨lock, hlock, hcovers, hforbids⟩
    rw [hunlocked] at hlocked
    cases hlocked
  · intro hlast byte
    by_cases hbyte : byte = lastByte
    · subst hbyte
      constructor
      · intro inode lock hlock other _ hclash
        exact hlast inode lock hlock hclash.2.2.1
      · intro inode write
        rw [hunlocked]
        constructor
        · intro hfalse
          cases hfalse
        · rintro ⟨lock, hlock, hcovers, -⟩
          exact absurd hcovers (hlast inode lock hlock)
    · exact ⟨h.exclusive byte hbyte, m.answersAt hbyte⟩

def ClearsLast (m : FileLockManager) : Prop :=
  ∀ inode, ∀ lock ∈ m.posixLocks inode, ¬ lock.Covers lastByte

theorem ClearsLast.apply (h : m.ClearsLast) (htakes : ¬ m.TakesLast call) :
    (m.apply call).ClearsLast := by
  intro inode lock hlock
  rcases posixLocks_apply m call inode with hsub | ⟨added, rfl, htype, hfree, hlocks⟩
  · exact h inode lock (hsub.subset hlock)
  · rw [hlocks, mem_append, mem_singleton] at hlock
    rcases hlock with hlock | rfl
    · exact h inode lock hlock
    · exact fun hcovers => htakes ⟨htype, hcovers, hfree⟩

theorem TakesLast.not_clearsLast (h : m.TakesLast call) : ¬ (m.apply call).ClearsLast := by
  cases call with
  | releaseAll pid | releaseOfd fd => exact h.elim
  | acquire inode lock =>
    obtain ⟨htype, hcovers, hfree⟩ := h
    intro hclears
    apply hclears inode lock _ hcovers
    obtain ⟨m', hacquire, -, hlocks⟩ := acquirePosixLock_of_free hfree
    rw [FileLockManager.apply, hacquire, hlocks, if_pos rfl, locksAfter, if_neg htype]
    exact mem_append_right _ mem_cons_self

/-- Below the last offset the lock table is sound after every history. At every offset it is
sound throughout a history exactly when no call of it takes a lock that reaches the last one. -/
theorem record_locks_sound (calls : List LockCall) :
    (∀ byte, byte ≠ lastByte → (Run.exec apply new calls).ExclusiveAt byte ∧
      (Run.exec apply new calls).AnswersAt byte) ∧
    ((∀ past, past <+: calls → (Run.exec apply new past).Sound) ↔
      Run.Along apply (fun m call => ¬ m.TakesLast call) new calls) := by
  constructor
  · intro byte hbyte
    exact ⟨(exclusive_exec calls).exclusive byte hbyte, answersAt _ hbyte⟩
  constructor
  · intro hsound
    rw [along_iff_split]
    rintro past call rest rfl htakes
    have hinit : past ++ [call] <+: past ++ call :: rest := ⟨rest, by simp⟩
    have hclears := ((exclusive_exec (past ++ [call])).sound_iff).mp (hsound _ hinit)
    rw [exec_concat] at hclears
    exact htakes.not_clearsLast hclears
  · rintro halong past ⟨rest, rfl⟩
    have hpast := ((along_append new past rest).mp halong).1
    have hnew : new.ClearsLast := fun inode lock hlock => absurd hlock not_mem_nil
    have hclears := hpast.invariant (fun m call hm htakes => hm.apply htakes) hnew
    exact (exclusive_exec past).sound_iff.mpr hclears

/-- Two processes write-lock the last offset, and nobody sees a lock there. -/
theorem last_byte_locked_twice :
    let lock (pid : UInt64) : FileLock := ⟨.wrlck, lastByte, 1, pid, false⟩
    let m := Run.exec apply new [.acquire 7 (lock 1), .acquire 7 (lock 2)]
    m.posixLocks 7 = [lock 1, lock 2] ∧ (lock 1).Covers lastByte ∧ (lock 2).Covers lastByte ∧
      m.isLocked 7 lastByte true = false := by
  decide

end FileLockManager

end EchOS.Fs
