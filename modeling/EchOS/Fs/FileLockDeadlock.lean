import EchOS.Fs.FileLockWait

/-! When the wait-for graph of the lock manager keeps processes from waiting in a circle. The
graph itself never has a cycle. What it may lack are edges: a lock that is granted over the
head of a waiter, and those that `remove_wait_edges` drops while their holder keeps a lock. -/

namespace EchOS.Fs

open List Option Prod Relation GraphSearch FileLockManager

section Lookup

variable {α β γ : Type*} [BEq α] [LawfulBEq α] [DecidableEq α] (l : List (α × β))

theorem lookup_filter_ne (k q : α) :
    (l.filter fun entry => entry.1 ≠ k).lookup q = if q = k then none else l.lookup q := by
  induction l with
  | nil => simp
  | cons entry l ih =>
    obtain ⟨key, value⟩ := entry
    by_cases hkey : key = k
    · subst hkey
      rw [filter_cons_of_neg (by simp), ih, lookup_cons]
      by_cases hq : q = key
      · simp [hq]
      · have hbeq : (q == key) = false := beq_eq_false_iff_ne.mpr hq
        simp [hq, hbeq]
    · rw [filter_cons_of_pos (by simpa using hkey), lookup_cons, lookup_cons, ih]
      by_cases hq : q = key
      · subst hq
        simp [hkey]
      · have hbeq : (q == key) = false := beq_eq_false_iff_ne.mpr hq
        simp [hbeq]

omit [LawfulBEq α] [DecidableEq α] in
theorem lookup_map_snd (f : β → γ) (q : α) :
    (l.map fun entry => (entry.1, f entry.2)).lookup q = (l.lookup q).map f := by
  induction l with
  | nil => rfl
  | cons entry l ih =>
    obtain ⟨key, value⟩ := entry
    rw [map_cons, lookup_cons, lookup_cons, ih]
    cases q == key <;> rfl

end Lookup

namespace FileLockManager

variable {m : FileLockManager} {inode : UInt64} {lock : FileLock}

theorem waitingFor_addWaitEdges (hofd : lock.isOfd = false) (waiter q : UInt64) :
    (m.addWaitEdges waiter inode lock).waitingFor q =
      if q = waiter then m.holders inode lock else m.waitingFor q := by
  unfold waitingFor addWaitEdges
  rw [if_neg (by simp [hofd]), lookup_cons, lookup_filter_ne]
  by_cases hq : q = waiter
  · simp [hq]
  · have hbeq : (q == waiter) = false := beq_eq_false_iff_ne.mpr hq
    simp [hq, hbeq]

theorem waitingFor_removeWaitEdges (m : FileLockManager) (pid q : UInt64) :
    (m.removeWaitEdges pid).waitingFor q =
      if q = pid then [] else (m.waitingFor q).filter (· ≠ pid) := by
  have hlookup := lookup_map_snd (m.waitForGraph.filter fun entry => entry.1 ≠ pid)
    (fun owners => owners.filter (· ≠ pid)) q
  unfold waitingFor removeWaitEdges
  rw [hlookup, lookup_filter_ne]
  by_cases hq : q = pid
  · simp [hq]
  · rw [if_neg hq, if_neg hq]
    cases m.waitForGraph.lookup q <;> simp

theorem waitingFor_eq_nil {q : UInt64} (h : q ∉ m.waitForGraph.map Prod.fst) :
    m.waitingFor q = [] := by
  have hnone : m.waitForGraph.lookup q = none := by
    rw [lookup_eq_none_iff]
    intro entry hentry
    apply bne_iff_ne.mpr
    intro heq
    exact h (mem_map.mpr ⟨entry, hentry, heq.symm⟩)
  unfold waitingFor
  rw [hnone]
  rfl

theorem search_spec (m : FileLockManager) (waiter : UInt64) (stack : List UInt64) :
    ∃ found, Loop.run (step m.waitingFor waiter) (m.detectRounds stack) ([], stack) =
        some found ∧
      (found = true ↔ ∃ holder ∈ stack, Reach m.waitingFor holder waiter) := by
  have hclosed : Closed m.waitingFor [] stack := by
    intro x hx
    exact absurd hx not_mem_nil
  have hwaiter : waiter ∉ ([] : List UInt64) := not_mem_nil
  exact run_step (fun q hq => waitingFor_eq_nil hq) hclosed hwaiter (Nat.lt_succ_self _)

theorem detectDeadlock_spec (m : FileLockManager) (inode : UInt64) (hofd : lock.isOfd = false)
    (waiter : UInt64) :
    ∃ found, m.detectDeadlock waiter inode lock = some found ∧
      (found = true ↔ ∃ holder ∈ m.holders inode lock,
        Reach m.waitingFor holder waiter) := by
  obtain ⟨found, hrun, hfound⟩ := m.search_spec waiter (m.holders inode lock).reverse
  refine ⟨found, ?_, by simpa using hfound⟩
  unfold detectDeadlock
  rw [if_neg (by simp [hofd])]
  exact hrun

theorem exists_holder_iff (m : FileLockManager) (inode : UInt64) (lock : FileLock)
    (P : UInt64 → Prop) :
    (∃ holder ∈ m.holders inode lock, P holder) ↔
      ∃ held ∈ m.posixLocks inode, lock.conflictsWith held = true ∧ P held.lPid := by
  constructor
  · rintro ⟨holder, hholder, hP⟩
    obtain ⟨held, hheld, rfl⟩ := mem_map.mp hholder
    obtain ⟨hmem, hconflict⟩ := mem_filter.mp hheld
    exact ⟨held, hmem, hconflict, hP⟩
  · rintro ⟨held, hmem, hconflict, hP⟩
    exact ⟨held.lPid, mem_map_of_mem (mem_filter.mpr ⟨hmem, hconflict⟩), hP⟩

/-- The detection ends, and reports a deadlock exactly when the process that asks can be reached
over recorded edges from the owner of a conflicting lock, in whatever order these owners are put on
the stack. -/
theorem detectDeadlock_finds_waiter (m : FileLockManager) (waiter inode : UInt64) (lock : FileLock)
    (hofd : lock.isOfd = false) :
    ∃ found, m.detectDeadlock waiter inode lock = some found ∧
      (found = true ↔ ∃ held ∈ m.posixLocks inode, lock.conflictsWith held = true ∧
        Relation.ReflTransGen (fun p q => q ∈ m.waitingFor p) held.lPid waiter) ∧
      ∀ stack : List UInt64, (∀ pid, pid ∈ stack ↔ pid ∈ m.holders inode lock) →
        Loop.run (step m.waitingFor waiter) (m.detectRounds stack) ([], stack) =
          some found := by
  obtain ⟨found, hdetect, hfound⟩ := m.detectDeadlock_spec inode hofd waiter
  refine ⟨found, hdetect, hfound.trans (m.exists_holder_iff inode lock _), fun stack hstack => ?_⟩
  obtain ⟨found', hrun, hfound'⟩ := m.search_spec waiter stack
  have hsame : found' = true ↔ found = true := by
    rw [hfound', hfound]
    simp only [hstack]
  rw [hrun, Bool.eq_iff_iff.mpr hsame]

/-- Process 1 asks for what 2 holds; 2 waits for itself and for 3, and 3 waits for 2 and for 1. -/
theorem detectDeadlock_finds_waiter_in_ring :
    let request : FileLock := ⟨.wrlck, 0, 8, 1, false⟩
    let held : FileLock := ⟨.rdlck, 4, 0, 2, false⟩
    let m : FileLockManager :=
      { new with
        posixLocks := fun inode => if inode = 7 then [held] else []
        waitForGraph := [(2, [2, 3]), (3, [1, 2])] }
    request.isOfd = false ∧
      ∃ lock ∈ m.posixLocks 7, request.conflictsWith lock = true ∧
        Relation.ReflTransGen (fun p q => q ∈ m.waitingFor p) lock.lPid 1 := by
  intro request held m
  refine ⟨rfl, ?_⟩
  obtain ⟨found, hdetect, hfound, -⟩ := detectDeadlock_finds_waiter m 1 7 request rfl
  have htrue : m.detectDeadlock 1 7 request = some true := by decide +kernel
  exact hfound.mp (some.inj (hdetect.symm.trans htrue))

def StaysHeld (m : FileLockManager) (inode : UInt64) (lock : FileLock) (inode' : UInt64)
    (held : FileLock) : Prop :=
  held ∈ m.posixLocks inode' ∧
      ¬ (inode' = inode ∧ lock.lType = .unlck ∧ held.lPid = lock.lPid ∧ held.overlaps lock) ∨
    inode' = inode ∧ lock.lType ≠ .unlck ∧ held = lock

theorem acquirePosixLock_kept {m' : FileLockManager}
    (hfree : m.canAcquirePosixLock inode lock = true)
    (hacquire : m.acquirePosixLock inode lock = (.ok (), m')) : m'.waitingFor = m.waitingFor ∧
      ∀ inode' held, held ∈ m'.posixLocks inode' → m.StaysHeld inode lock inode' held := by
  obtain ⟨after, hacquire', hgraph, hlocks⟩ := acquirePosixLock_of_free hfree
  obtain rfl : after = m' := congrArg Prod.snd (hacquire'.symm.trans hacquire)
  refine ⟨funext fun q => by rw [waitingFor, waitingFor, hgraph], fun inode' held hheld => ?_⟩
  rw [hlocks, locksAfter] at hheld
  split_ifs at hheld with hinode htype
  · subst hinode
    obtain ⟨hmem, hkept⟩ := mem_filter.mp hheld
    refine .inl ⟨hmem, fun hdropped => ?_⟩
    simp [hdropped] at hkept
  · subst hinode
    rcases mem_append.mp hheld with hmem | hmem
    · exact .inl ⟨hmem, fun hdropped => htype hdropped.2.1⟩
    · exact .inr ⟨rfl, htype, mem_singleton.mp hmem⟩
  · exact .inl ⟨hheld, fun hdropped => hinode hdropped.1⟩

end FileLockManager

variable {arg : LockArg} {cmd fd : ℤ}

theorem lockOf_owner {pid : UInt64} {lock : FileLock} (h : lockOf pid fd cmd arg = .ok lock) :
    lock.isOfd = isOfdCommand cmd ∧ (lock.isOfd = false → lock.lPid = pid) := by
  unfold lockOf at h
  by_cases hfd : fd < 0
  · simp [hfd] at h
  rw [if_neg hfd] at h
  cases htype : LockType.ofInt arg.lType with
  | none => simp [htype] at h
  | some lType =>
    rw [htype] at h
    dsimp only at h
    by_cases hpid : isOfdCommand cmd ∧ arg.lPid ≠ 0
    · simp [hpid] at h
    rw [if_neg hpid] at h
    have hlock := Except.ok.inj h
    subst hlock
    constructor
    · rfl
    · intro hofd
      have hplain : ¬ isOfdCommand cmd = true := by simpa using hofd
      exact if_neg hplain

/-- What a call does to the manager: it leaves the locks and the graph, takes or drops locks at
once, or records what it waits for. -/
theorem sysFcntlLock_cases {m m' : FileLockManager} {pid inode : UInt64} {outcome : FcntlOutcome}
    (h : sysFcntlLock m pid inode fd cmd arg = some (outcome, m')) :
    (∃ errno reported, outcome = .returned errno reported ∧ m'.posixLocks = m.posixLocks ∧
      m'.waitForGraph = m.waitForGraph) ∨
    (∃ lock, lockOf pid fd cmd arg = .ok lock ∧ posixCommand cmd = fSetlk ∧
      m.canAcquirePosixLock inode lock = true ∧ outcome = .returned 0 none ∧
      m.acquirePosixLock inode lock = (.ok (), m')) ∨
    (∃ lock, lockOf pid fd cmd arg = .ok lock ∧
      m.detectDeadlock lock.lPid inode lock = some false ∧ outcome = .waiting lock ∧
      m' = m.addWaitEdges lock.lPid inode lock) := by
  unfold sysFcntlLock at h
  cases hlock : lockOf pid fd cmd arg with
  | error errno =>
    rw [hlock] at h
    obtain ⟨rfl, rfl⟩ := mk.inj (some.inj h)
    exact .inl ⟨_, _, rfl, rfl, rfl⟩
  | ok lock =>
    rw [hlock] at h
    dsimp only at h
    split_ifs at h with hget hset hwait
    · left
      cases hheld : m.getConflictingLock inode lock with
      | none | some held =>
        rw [hheld] at h
        obtain ⟨rfl, rfl⟩ := mk.inj (some.inj h)
        exact ⟨_, _, rfl, rfl, rfl⟩
    · cases hfree : m.canAcquirePosixLock inode lock with
      | false =>
        rw [acquirePosixLock_of_conflict hfree] at h
        obtain ⟨rfl, rfl⟩ := mk.inj (some.inj h)
        exact .inl ⟨_, _, rfl, rfl, rfl⟩
      | true =>
        obtain ⟨m₁, hacquire, -, -⟩ := acquirePosixLock_of_free hfree
        rw [hacquire] at h
        obtain ⟨rfl, rfl⟩ := mk.inj (some.inj h)
        exact .inr (.inl ⟨lock, rfl, hset, hfree, rfl, hacquire⟩)
    · cases hdetect : m.detectDeadlock lock.lPid inode lock with
      | none => simp [hdetect] at h
      | some found =>
        rw [hdetect] at h
        cases found with
        | true =>
          obtain ⟨rfl, rfl⟩ := mk.inj (some.inj h)
          exact .inl ⟨_, _, rfl, rfl, rfl⟩
        | false =>
          obtain ⟨rfl, rfl⟩ := mk.inj (some.inj h)
          exact .inr (.inr ⟨lock, rfl, hdetect, rfl, rfl⟩)
    · obtain ⟨rfl, rfl⟩ := mk.inj (some.inj h)
      exact .inl ⟨_, _, rfl, rfl, rfl⟩

namespace LockSystem

def Pending (s : LockSystem) (q inode : UInt64) (request : FileLock) : Prop :=
  s.waiting q = some (inode, request) ∧ request.isOfd = false

/-- A lock that is taken with `F_SETLK` although a process waits for that range has its owner
among those the process is recorded to wait for. When a blocking request is granted, nobody
waits for a lock that its owner then holds. -/
def KeepsEdges (s : LockSystem) : LockEvent → Prop
  | .call pid inode fd cmd arg =>
    ∀ lock, s.waiting pid = none → lockOf pid fd cmd arg = .ok lock → cmd = fSetlk →
      lock.lType ≠ .unlck → s.manager.canAcquirePosixLock inode lock = true →
      ∀ q request, s.Pending q inode request → request.conflictsWith lock = true →
        pid ∈ s.manager.waitingFor q
  | .retry pid =>
    ∀ inode lock, s.waiting pid = some (inode, lock) →
      s.manager.canAcquirePosixLock inode lock = true →
      ∀ q inode' request, q ≠ pid → s.Pending q inode' request →
        q ≠ lock.lPid ∧ ∀ held, s.manager.StaysHeld inode lock inode' held →
          held.isOfd = false → held.lPid = lock.lPid → request.conflictsWith held = false

/-- The graph has no cycle, and a process that waits is recorded to wait for the owner of every
lock in its way. -/
structure WaitsRecorded (s : LockSystem) : Prop where
  acyclic : Acyclic (Edge s.manager.waitingFor)
  recorded : ∀ q inode request, s.Pending q inode request →
    ∀ held ∈ s.manager.posixLocks inode, held.isOfd = false →
      request.conflictsWith held = true → held.lPid ∈ s.manager.waitingFor q

theorem waitsRecorded_init : init.WaitsRecorded := by
  constructor
  · intro x hcycle
    obtain ⟨y, hedge, -⟩ := TransGen.head'_iff.mp hcycle
    exact absurd hedge not_mem_nil
  · intro q inode request hpending
    exact absurd hpending.1 (by simp [init])

variable {s : LockSystem} {pid : UInt64} {lock : FileLock} {inode : UInt64} {m : FileLockManager}
  {arg : LockArg} {cmd fd : ℤ}

theorem WaitsRecorded.not_deadlocked (h : s.WaitsRecorded) : ¬ s.Deadlocked := by
  rintro ⟨pid, hcycle⟩
  apply h.acyclic pid
  apply TransGen.mono _ pid pid hcycle
  rintro p q ⟨inode, request, hwaiting, hofd, held, hheld, hposix, rfl, hconflict⟩
  exact h.recorded p inode request ⟨hwaiting, hofd⟩ held hheld hposix hconflict

theorem WaitsRecorded.congr {s' : LockSystem} (h : s.WaitsRecorded)
    (hlocks : s'.manager.posixLocks = s.manager.posixLocks)
    (hgraph : s'.manager.waitForGraph = s.manager.waitForGraph)
    (hwaiting : s'.waiting = s.waiting) : s'.WaitsRecorded := by
  have hedges : s'.manager.waitingFor = s.manager.waitingFor := by
    funext q
    unfold waitingFor
    rw [hgraph]
  constructor
  · rw [hedges]
    exact h.acyclic
  · intro q inode request hpending held hheld
    rw [hedges]
    rw [hlocks] at hheld
    unfold Pending at hpending
    rw [hwaiting] at hpending
    exact h.recorded q inode request hpending held hheld

theorem WaitsRecorded.set (h : s.WaitsRecorded) (hguard : s.KeepsEdges (.call pid inode fd cmd arg))
    (hidle : s.waiting pid = none) (hlock : lockOf pid fd cmd arg = .ok lock)
    (hcmd : posixCommand cmd = fSetlk) (hfree : s.manager.canAcquirePosixLock inode lock = true)
    (hacquire : s.manager.acquirePosixLock inode lock = (.ok (), m)) :
    WaitsRecorded { s with manager := m } := by
  obtain ⟨hedges, hheld'⟩ := acquirePosixLock_kept hfree hacquire
  constructor
  · rw [hedges]
    exact h.acyclic
  · intro q inode' request hpending held hmem hposix hconflict
    rw [hedges]
    rcases hheld' inode' held hmem with ⟨hold, -⟩ | ⟨rfl, htype, rfl⟩
    · exact h.recorded q inode' request hpending held hold hposix hconflict
    · obtain ⟨hofd, howner⟩ := lockOf_owner hlock
      have hplain : isOfdCommand cmd = false := hofd.symm.trans hposix
      have hsetlk : cmd = fSetlk := by
        simp only [isOfdCommand, Bool.or_eq_false_iff, decide_eq_false_iff_not] at hplain
        simpa [posixCommand, hplain] using hcmd
      rw [howner hposix]
      exact hguard held hidle hlock hsetlk htype hfree q request hpending hconflict

theorem WaitsRecorded.wait (h : s.WaitsRecorded) (hlock : lockOf pid fd cmd arg = .ok lock)
    (hdetect : s.manager.detectDeadlock lock.lPid inode lock = some false) :
    WaitsRecorded ⟨s.manager.addWaitEdges lock.lPid inode lock,
      s.setWaiting pid (some (inode, lock))⟩ := by
  have howner := (lockOf_owner hlock).2
  cases hofd : lock.isOfd with
  | true =>
    have hsame : s.manager.addWaitEdges lock.lPid inode lock = s.manager := if_pos hofd
    rw [hsame]
    constructor
    · exact h.acyclic
    · intro q inode' request hpending
      obtain ⟨hwaiting, hposix⟩ := hpending
      unfold setWaiting at hwaiting
      dsimp only at hwaiting
      split_ifs at hwaiting with hq
      · obtain ⟨rfl, rfl⟩ := Prod.mk.inj (some.inj hwaiting)
        rw [hofd] at hposix
        simp at hposix
      · exact h.recorded q inode' request ⟨hwaiting, hposix⟩
  | false =>
    rw [howner hofd] at hdetect ⊢
    have hlocks : (s.manager.addWaitEdges pid inode lock).posixLocks = s.manager.posixLocks := by
      unfold addWaitEdges
      split_ifs <;> rfl
    constructor
    · obtain ⟨found, hfound, hreach⟩ := s.manager.detectDeadlock_spec inode hofd pid
      have hnone : found = false := some.inj (hfound.symm.trans hdetect)
      subst hnone
      have hedges : ∀ x y,
          Edge (s.manager.addWaitEdges pid inode lock).waitingFor x y →
          (x = pid ∧ y ∈ {z | z ∈ s.manager.holders inode lock}) ∨
            Edge s.manager.waitingFor x y := by
        intro x y hedge
        unfold Edge at hedge
        rw [waitingFor_addWaitEdges hofd] at hedge
        split_ifs at hedge with hx
        · exact .inl ⟨hx, hedge⟩
        · exact .inr hedge
      apply h.acyclic.update hedges
      intro holder hholder hpath
      exact absurd (hreach.mpr ⟨holder, hholder, hpath⟩) Bool.false_ne_true
    · intro q inode' request hpending held hheld hposix hconflict
      rw [hlocks] at hheld
      rw [waitingFor_addWaitEdges hofd]
      obtain ⟨hwaiting, hreq⟩ := hpending
      unfold setWaiting at hwaiting
      dsimp only at hwaiting
      split_ifs at hwaiting with hq
      · obtain ⟨rfl, rfl⟩ := Prod.mk.inj (some.inj hwaiting)
        rw [if_pos hq]
        exact mem_map.mpr ⟨held, mem_filter.mpr ⟨hheld, hconflict⟩, rfl⟩
      · rw [if_neg hq]
        exact h.recorded q inode' request ⟨hwaiting, hreq⟩ held hheld hposix hconflict

theorem WaitsRecorded.grant (h : s.WaitsRecorded) (hguard : s.KeepsEdges (.retry pid))
    (hwaiting : s.waiting pid = some (inode, lock))
    (hfree : s.manager.canAcquirePosixLock inode lock = true)
    (hacquire : s.manager.acquirePosixLock inode lock = (.ok (), m)) :
    WaitsRecorded ⟨m.removeWaitEdges lock.lPid, s.setWaiting pid none⟩ := by
  obtain ⟨hedges, hheld'⟩ := acquirePosixLock_kept hfree hacquire
  constructor
  · apply h.acyclic.mono
    intro x y hedge
    unfold Edge at hedge
    rw [waitingFor_removeWaitEdges, hedges] at hedge
    split_ifs at hedge
    · exact absurd hedge not_mem_nil
    · exact (mem_filter.mp hedge).1
  · intro q inode' request hpending held hmem hposix hconflict
    obtain ⟨hrequest, hreq⟩ := hpending
    unfold setWaiting at hrequest
    dsimp only at hrequest
    split_ifs at hrequest with hq
    have hstays := hheld' inode' held hmem
    obtain ⟨hself, hclear⟩ := hguard inode lock hwaiting hfree q inode' request hq ⟨hrequest, hreq⟩
    have hother : held.lPid ≠ lock.lPid := by
      intro howner
      rw [hclear held hstays hposix howner] at hconflict
      cases hconflict
    have hold : held ∈ s.manager.posixLocks inode' := by
      rcases hstays with ⟨hold, -⟩ | ⟨-, -, rfl⟩
      · exact hold
      · exact absurd rfl hother
    rw [waitingFor_removeWaitEdges, if_neg hself, hedges]
    apply mem_filter.mpr
    constructor
    · exact h.recorded q inode' request ⟨hrequest, hreq⟩ held hold hposix hconflict
    · simpa using hother

theorem WaitsRecorded.step (h : s.WaitsRecorded) {e : LockEvent} (hguard : s.KeepsEdges e) :
    (s.step e).WaitsRecorded := by
  cases e with
  | call pid inode fd cmd arg =>
    unfold LockSystem.step
    dsimp only
    cases hidle : s.waiting pid with
    | some request => exact h
    | none =>
      cases hcall : sysFcntlLock s.manager pid inode fd cmd arg with
      | none => exact h
      | some result =>
        obtain ⟨outcome, m⟩ := result
        rcases sysFcntlLock_cases hcall with ⟨errno, reported, rfl, hlocks, hgraph⟩ |
          ⟨lock, hlock, hcmd, hfree, rfl, hacquire⟩ | ⟨lock, hlock, hdetect, rfl, rfl⟩
        · exact h.congr hlocks hgraph rfl
        · exact h.set hguard hidle hlock hcmd hfree hacquire
        · exact h.wait hlock hdetect
  | retry pid =>
    unfold LockSystem.step
    dsimp only
    cases hwaiting : s.waiting pid with
    | none => exact h
    | some request =>
      obtain ⟨inode, lock⟩ := request
      dsimp only
      unfold retryLock
      cases hfree : s.manager.canAcquirePosixLock inode lock with
      | false =>
        rw [acquirePosixLock_of_conflict hfree]
        exact h.congr rfl rfl rfl
      | true =>
        obtain ⟨m, hacquire, -, -⟩ := acquirePosixLock_of_free hfree
        rw [hacquire]
        exact h.grant hguard hwaiting hfree hacquire

/-- A run whose grants keep the recorded edges complete never reaches a deadlock. -/
theorem no_deadlock {events : List LockEvent} (h : Run.Along step KeepsEdges init events) :
    ¬ (Run.exec step init events).Deadlocked := by
  have hrecorded := h.invariant (fun s e hs hguard => hs.step hguard) waitsRecorded_init
  exact hrecorded.not_deadlocked

def wholeFile (lType : ℤ) (cmd : ℤ) (pid inode : UInt64) : LockEvent :=
  .call pid inode 3 cmd ⟨lType, 0, 0, 0⟩

theorem no_deadlock_handover :
    Run.Along step KeepsEdges init
        [wholeFile 1 fSetlk 1 10, wholeFile 1 fSetlkw 2 10, wholeFile 2 fSetlk 1 10, .retry 2] ∧
      ¬ (Run.exec step init [wholeFile 1 fSetlk 1 10, wholeFile 1 fSetlkw 2 10,
        wholeFile 2 fSetlk 1 10, .retry 2]).Deadlocked := by
  have hguard : Run.Along step KeepsEdges init
      [wholeFile 1 fSetlk 1 10, wholeFile 1 fSetlkw 2 10, wholeFile 2 fSetlk 1 10, .retry 2] := by
    refine ⟨?_, ?_, ?_, ?_, trivial⟩
    · intro lock _ _ _ _ _ q request hpending
      exact absurd hpending.1 (by simp [init])
    · intro lock _ _ hcmd
      exact absurd hcmd (by decide)
    · intro lock _ hlock _ htype
      exact absurd (congrArg FileLock.lType (Except.ok.inj hlock)) (Ne.symm htype)
    · intro inode lock _ _ q inode' request hq hpending
      have hwaiting := hpending.1
      change (if q = 2 then some _ else none) = some (inode', request) at hwaiting
      rw [if_neg hq] at hwaiting
      simp at hwaiting
  exact ⟨hguard, no_deadlock hguard⟩

/-- The first process takes a third lock, which drops the edge from the second to it. Then it
may wait for the second, which still waits for it. -/
theorem deadlock_after_third_lock :
    (Run.exec step init [wholeFile 1 fSetlk 1 10, wholeFile 1 fSetlk 2 20,
      wholeFile 1 fSetlkw 2 10, wholeFile 1 fSetlkw 1 30, .retry 1,
      wholeFile 1 fSetlkw 1 20]).Deadlocked := by
  refine ⟨1, TransGen.head (b := 2) ?_ (Relation.TransGen.single ?_)⟩
  · exact ⟨20, ⟨.wrlck, 0, 0, 1, false⟩, by decide, rfl, ⟨.wrlck, 0, 0, 2, false⟩, by decide, rfl,
      rfl, by decide⟩
  · exact ⟨10, ⟨.wrlck, 0, 0, 2, false⟩, by decide, rfl, ⟨.wrlck, 0, 0, 1, false⟩, by decide, rfl,
      rfl, by decide⟩

end LockSystem

end EchOS.Fs
