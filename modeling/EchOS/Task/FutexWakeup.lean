import Mathlib.Data.List.Nodup
import Mathlib.Data.List.Perm.Subperm
import EchOS.Task.Futex

/-! No wakeup is lost as long as no waiter is between its comparison and its entry in the
address index when the waker reads that index. -/

namespace EchOS.Scheduling.Futex

open Option List Function WaiterPc WakerPc

def WaiterPc.number : WaiterPc → Option ℕ
  | .numbered id | .inserted id | .blocked id => some id
  | _ => none

/-- Past the comparison and not yet in the address index. -/
def WaiterPc.InWindow : WaiterPc → Prop
  | .compared | .taken | .numbered _ | .inserted _ => True
  | _ => False

namespace WakerPc

def pendingIds : WakerPc → List ℕ
  | .listed ids | .resolving ids _ | .unindexing _ _ ids _ | .recording _ _ ids _
  | .waking _ _ ids _ => ids
  | _ => []

def handling : WakerPc → Option (ℕ × AddressWaiter)
  | .unindexing id waiter _ _ | .recording id waiter _ _ | .waking id waiter _ _ =>
    some (id, waiter)
  | _ => none

def unlisted : WakerPc → Option ℕ
  | .recording id _ _ _ | .waking id _ _ _ => some id
  | _ => none

variable {pc : WakerPc}

theorem handling_of_unlisted {id : ℕ} (h : pc.unlisted = some id) :
    ∃ waiter, pc.handling = some (id, waiter) := by
  cases pc with
  | recording id' waiter ids woken | waking id' waiter ids woken =>
    obtain rfl : id' = id := some.inj h
    exact ⟨waiter, rfl⟩
  | _ => exact absurd h (by simp [unlisted])

def AfterRead : WakerPc → Prop
  | .start | .stored => False
  | _ => True

theorem AfterRead.ne_start (h : pc.AfterRead) : pc ≠ .start := by
  rintro rfl
  exact h

end WakerPc

namespace AddressWaitManager

variable {waiters : ℕ → Option AddressWaiter} {maxCount : ℕ} {bitset : Option UInt32}

def answers (waiters : ℕ → Option AddressWaiter) (bitset : Option UInt32) (id : ℕ) : Bool :=
  (waiters id).any fun waiter => decide ¬∃ mask ∈ bitset, waiter.bitset &&& mask = 0

theorem answers_eq_true_iff {id : ℕ} {waiter : AddressWaiter} (hid : waiters id = some waiter) :
    answers waiters bitset id = true ↔ ¬∃ mask ∈ bitset, waiter.bitset &&& mask = 0 := by
  rw [answers, hid, any_some, decide_eq_true_iff]

theorem matchWaiters_eq (ids matched : List ℕ) :
    matchWaiters waiters maxCount bitset ids matched =
      matched ++ (ids.filter (answers waiters bitset)).take (maxCount - matched.length) := by
  induction ids generalizing matched with
  | nil => simp [matchWaiters]
  | cons id ids ih =>
    unfold matchWaiters
    split_ifs with hfull
    · rw [Nat.sub_eq_zero_of_le hfull, take_zero, append_nil]
    · cases hid : waiters id with
      | none =>
        rw [filter_cons_of_neg (by rw [answers, hid]; exact Bool.false_ne_true)]
        exact ih matched
      | some waiter =>
        dsimp only
        split_ifs with hmask
        · rw [filter_cons_of_neg (mt (answers_eq_true_iff hid).mp (not_not.mpr hmask))]
          exact ih matched
        · have hroom : maxCount - matched.length = maxCount - (matched ++ [id]).length + 1 := by
            rw [length_append, length_singleton]
            omega
          rw [filter_cons_of_pos ((answers_eq_true_iff hid).mpr hmask), ih, hroom,
            append_assoc]
          rfl

end AddressWaitManager

namespace System

open AddressWaitManager

/-- How the tables, the waiters and the waker fit together in every interleaving. -/
structure Wf (c : Scenario) (s : System) : Prop where
  bound : ∀ t id, (s.waiter t).number = some id → id < s.manager.nextWaiterId
  unique : ∀ t t' id, (s.waiter t).number = some id → (s.waiter t').number = some id → t = t'
  table : ∀ id w, s.manager.waiters id = some w →
    (∃ call, c.waits[w.taskId]? = some call ∧ w = entry call w.taskId) ∧
      (s.waiter w.taskId = .inserted id ∨ s.waiter w.taskId = .blocked id)
  inserted : ∀ t id, s.waiter t = .inserted id → s.manager.waiters id ≠ none
  index : ∀ a id, id ∈ s.manager.addressIndex a → ∃ t call, c.waits[t]? = some call ∧
    call.uaddr = a ∧ s.waiter t = .blocked id ∧ s.awake t = false
  indexNodup : ∀ a, (s.manager.addressIndex a).Nodup
  pending : ∀ id ∈ s.waker.pendingIds, id < s.manager.nextWaiterId ∧
    ∀ t, (s.waiter t).number = some id → s.waiter t = .blocked id
  handled : ∀ id w, s.waker.handling = some (id, w) → s.manager.waiters id = none ∧
    (∃ call, c.waits[w.taskId]? = some call ∧ w = entry call w.taskId) ∧
    s.waiter w.taskId = .blocked id ∧ s.awake w.taskId = false
  unlisted : ∀ id, s.waker.unlisted = some id → ∀ a, id ∉ s.manager.addressIndex a
  recorded : ∀ id w ids n, s.waker = .waking id w ids n →
    s.manager.wakeRecords w.taskId = some ⟨.signaled, c.uaddr⟩
  asleep : ∀ t, s.awake t = true →
    (∃ id, s.waiter t = .blocked id) ∨ ∃ r, s.waiter t = .returned r
  standing : ∀ t id call, c.waits[t]? = some call → s.waiter t = .blocked id →
    (s.manager.waiters id ≠ none ∧ id ∈ s.manager.addressIndex call.uaddr ∧ s.awake t = false) ∨
    (s.manager.waiters id = none ∧ ∃ w, s.waker.handling = some (id, w) ∧ w.taskId = t) ∨
    (s.manager.waiters id = none ∧ s.awake t = true ∧
      s.manager.wakeRecords t = some ⟨.signaled, c.uaddr⟩)

theorem wf_init (c : Scenario) (memory : UInt64 → UInt32) : Wf c (init memory) := by
  constructor <;> simp [init, new, number, pendingIds,
    handling, unlisted]

variable {c : Scenario} {s : System} {t : TaskId} {call : WaitCall} {pc : WaiterPc}

theorem Wf.setPc (h : Wf c s) (hbefore : (s.waiter t).number = none)
    (hreturned : ∀ r, s.waiter t ≠ .returned r) (hafter : pc.number = none) :
    Wf c (s.setPc t pc) := by
  cases h
  have hne : ∀ id, s.waiter t ≠ .inserted id ∧ s.waiter t ≠ .blocked id := by
    intro id
    constructor <;> (intro heq; rw [heq] at hbefore; simp [number] at hbefore)
  have hpc : ∀ id, pc ≠ .inserted id ∧ pc ≠ .blocked id := by
    intro id
    constructor <;> (intro heq; rw [heq] at hafter; simp [number] at hafter)
  constructor
  all_goals simp only [System.setPc, update_apply]
  all_goals first | assumption | grind

theorem Wf.drawNumber (h : Wf c s) (hpc : s.waiter t = .taken) :
    Wf c { s.setPc t (.numbered s.manager.nextWaiterId) with
      manager := { s.manager with nextWaiterId := s.manager.nextWaiterId + 1 } } := by
  cases h
  constructor
  all_goals simp only [System.setPc, update_apply]
  all_goals first | assumption | grind [number]

variable {id n : ℕ} {ids : List ℕ} {w : AddressWaiter}

section

variable (h : Wf c s) (hcall : c.waits[t]? = some call)
include h hcall

theorem Wf.insertWaiter (hpc : s.waiter t = .numbered id) :
    Wf c { s.setPc t (.inserted id) with
      manager := { s.manager with
        waiters := update s.manager.waiters id (some (entry call t)) } } := by
  cases h
  have hentry : (entry call t).taskId = t := rfl
  constructor
  all_goals simp only [System.setPc, update_apply]
  all_goals first | assumption | grind [number]

theorem Wf.pushIndex (hpc : s.waiter t = .inserted id) :
    Wf c { s.setPc t (.blocked id) with
      manager := { s.manager with
        addressIndex := pushIndex s.manager.addressIndex id [call.uaddr] } } := by
  cases h
  have hhandled : ∀ id', s.waker.unlisted = some id' → ∃ w, s.waker.handling = some (id', w) :=
    fun _ => handling_of_unlisted
  constructor
  all_goals simp only [System.setPc, update_apply, AddressWaitManager.pushIndex,
    foldl_cons, foldl_nil]
  all_goals first | assumption | grind [number]

theorem Wf.resume (hpc : s.waiter t = .blocked id) (hawake : s.awake t = true) (r : WaitResult) :
    Wf c { s.setPc t (.returned r) with
      manager := { s.manager with
        wakeRecords := update s.manager.wakeRecords t none } } := by
  cases h
  have hwaking : ∀ id w ids n, s.waker = .waking id w ids n →
      s.waker.handling = some (id, w) := by
    intro id w ids n heq
    rw [heq]
    rfl
  constructor
  all_goals simp only [System.setPc, update_apply]
  all_goals first | assumption | grind [number]

theorem Wf.waiterStep (parked : Bool) : Wf c (s.waiterStep call t parked) := by
  unfold System.waiterStep
  cases hpc : s.waiter t with
  | start | compared =>
    have hbefore : (s.waiter t).number = none := by rw [hpc]; rfl
    have hreturned : ∀ r, s.waiter t ≠ .returned r := by simp [hpc]
    split_ifs <;> exact h.setPc hbefore hreturned rfl
  | taken => exact h.drawNumber hpc
  | numbered id => exact h.insertWaiter hcall hpc
  | inserted id => exact h.pushIndex hcall hpc
  | blocked id =>
    dsimp only
    split_ifs with hawake
    · exact h.resume hcall hpc hawake _
    · exact h
  | returned r => exact h

end

theorem Wf.setWaker (h : Wf c s) {pc : WakerPc} (hhandling : s.waker.handling = none)
    (hpc : pc.handling = none)
    (hpending : ∀ id ∈ pc.pendingIds, id ∈ s.waker.pendingIds ∨ ∃ a, id ∈ s.manager.addressIndex a)
    (memory : UInt64 → UInt32) : Wf c { s with memory := memory, waker := pc } := by
  cases h
  have hunlisted : ∀ id, pc.unlisted ≠ some id := by
    intro id hid
    obtain ⟨w, hw⟩ := handling_of_unlisted hid
    rw [hpc] at hw
    simp at hw
  have hwaking : ∀ id w ids n, pc ≠ .waking id w ids n := by
    intro id w ids n heq
    rw [heq] at hpc
    exact absurd hpc (by simp [handling])
  constructor
  all_goals simp only
  all_goals first | assumption | grind [number]

theorem Wf.removeWaiter (h : Wf c s) (hpc : s.waker = .resolving (id :: ids) n)
    (hw : s.manager.waiters id = some w) :
    Wf c { s with
      manager := { s.manager with waiters := update s.manager.waiters id none }
      waker := .unindexing id w ids n } := by
  cases h
  simp only [hpc, pendingIds, handling, WakerPc.unlisted] at *
  constructor
  all_goals simp only [update_apply, pendingIds, handling, WakerPc.unlisted]
  all_goals first | assumption | grind [number]

theorem Wf.unindex (h : Wf c s) (hpc : s.waker = .unindexing id w ids n) :
    Wf c { s with
      manager := { s.manager with
        addressIndex := dropIndex s.manager.addressIndex id w.addresses }
      waker := .recording id w ids n } := by
  obtain ⟨hnone, ⟨call, hcall, hentry⟩, hblocked, hasleep⟩ := h.handled id w (by rw [hpc]; rfl)
  cases h
  simp only [hpc, pendingIds, handling, WakerPc.unlisted] at *
  have haddresses : w.addresses = [call.uaddr] := by rw [hentry]; rfl
  rw [haddresses]
  constructor
  all_goals simp only [update_apply, pendingIds, handling,
    WakerPc.unlisted, dropIndex, foldl_cons, foldl_nil]
  all_goals first | assumption | grind [number]

theorem Wf.record (h : Wf c s) (hpc : s.waker = .recording id w ids n) :
    Wf c { s with
      manager := { s.manager with
        wakeRecords := update s.manager.wakeRecords w.taskId
          (some ⟨.signaled, c.uaddr⟩) }
      waker := .waking id w ids n } := by
  cases h
  simp only [hpc, pendingIds, handling, WakerPc.unlisted] at *
  constructor
  all_goals simp only [update_apply, pendingIds, handling, WakerPc.unlisted]
  all_goals first | assumption | grind [number]

theorem Wf.wake (h : Wf c s) (hpc : s.waker = .waking id w ids n) :
    Wf c { s with awake := update s.awake w.taskId true
                  waker := .resolving ids (n + 1) } := by
  cases h
  simp only [hpc, pendingIds, handling, WakerPc.unlisted] at *
  constructor
  all_goals simp only [update_apply, pendingIds, handling, WakerPc.unlisted]
  all_goals first | assumption | grind [number]

theorem Wf.wakerStep (h : Wf c s) : Wf c (s.wakerStep c) := by
  unfold System.wakerStep
  cases hpc : s.waker with
  | start => exact h.setWaker (by rw [hpc]; rfl) rfl (by simp [pendingIds]) _
  | stored =>
    split_ifs
    · exact h.setWaker (by rw [hpc]; rfl) rfl (by simp [pendingIds]) s.memory
    · have hindex : ∀ id ∈ (listed (s.manager.addressIndex c.uaddr)).pendingIds,
          id ∈ s.waker.pendingIds ∨ ∃ a, id ∈ s.manager.addressIndex a :=
        fun id hid => .inr ⟨c.uaddr, hid⟩
      exact h.setWaker (by rw [hpc]; rfl) rfl hindex s.memory
  | listed ids =>
    refine h.setWaker (by rw [hpc]; rfl) rfl (fun id hid => .inl ?_) s.memory
    rw [matchWaiters_eq] at hid
    rw [hpc]
    exact (mem_filter.mp (mem_of_mem_take hid)).1
  | resolving ids n =>
    cases ids with
    | nil => exact h.setWaker (by rw [hpc]; rfl) rfl (by simp [pendingIds]) s.memory
    | cons id ids =>
      dsimp only
      cases hw : s.manager.waiters id with
      | none =>
        refine h.setWaker (by rw [hpc]; rfl) rfl (fun id' hid' => .inl ?_) s.memory
        rw [hpc]
        exact mem_cons_of_mem id hid'
      | some w => exact h.removeWaiter hpc hw
  | unindexing id w ids n => exact h.unindex hpc
  | recording id w ids n => exact h.record hpc
  | waking id w ids n =>
    have hhandling : s.waker.handling = some (id, w) := by rw [hpc]; rfl
    obtain ⟨-, ⟨call, -, hentry⟩, -, -⟩ := h.handled id w hhandling
    have htask : w.task = true := by rw [hentry]; rfl
    dsimp only
    rw [if_pos htask]
    exact h.wake hpc
  | done n => exact h

theorem Wf.index_length (h : Wf c s) (a : UInt64) :
    (s.manager.addressIndex a).length ≤ c.waits.length := by
  have hsub : s.manager.addressIndex a ⊆
      (List.range c.waits.length).filterMap fun t => (s.waiter t).number := by
    intro id hid
    obtain ⟨t, call, hcall, -, hblocked, -⟩ := h.index a id hid
    apply mem_filterMap.mpr
    refine ⟨t, ?_, by rw [hblocked]; rfl⟩
    exact mem_range.mpr (List.getElem?_eq_some_iff.mp hcall).1
  have hlength := (subperm_of_subset (h.indexNodup a) hsub).length_le
  have hrange := length_filterMap_le (fun t => (s.waiter t).number)
    (List.range c.waits.length)
  rw [length_range] at hrange
  omega

/-- A waiter on the word whose comparison fails once the waker has stored. -/
structure Relevant (c : Scenario) (t : TaskId) (call : WaitCall) : Prop where
  waits : c.waits[t]? = some call
  uaddr : call.uaddr = c.uaddr
  expected : call.expected ≠ c.value

def Answers (c : Scenario) (call : WaitCall) : Prop :=
  ∀ mask ∈ c.bitset, call.effectiveBitset &&& mask ≠ 0

/-- Once the index has been read, the waker has every waiter that is still in the table on its
list. -/
structure Tracks (c : Scenario) (s : System) : Prop where
  stored : s.waker ≠ .start → s.memory c.uaddr = c.value
  passed : s.waker.AfterRead → ∀ t call, Relevant c t call → ¬ (s.waiter t).InWindow
  short : ∀ ids, s.waker = .listed ids → ids.length ≤ c.waits.length
  tracked : s.waker.AfterRead → ∀ t call id, Relevant c t call → Answers c call →
    s.waiter t = .blocked id → s.manager.waiters id ≠ none → id ∈ s.waker.pendingIds

theorem tracks_init (c : Scenario) (memory : UInt64 → UInt32) : Tracks c (init memory) := by
  constructor
  · intro hstart
    exact absurd rfl hstart
  · intro hread
    exact hread.elim
  · intro ids hids
    exact absurd hids (by simp [init])
  · intro hread
    exact hread.elim

theorem Tracks.setPc (h : Tracks c s) {manager : AddressWaitManager}
    (hwindow : s.waker.AfterRead → ∀ call, Relevant c t call → pc.InWindow → (s.waiter t).InWindow)
    (hblocked : ∀ id, pc = .blocked id → (s.waiter t).InWindow)
    (htable : ∀ t' id, s.waiter t' = .blocked id → manager.waiters id ≠ none →
      s.manager.waiters id ≠ none) : Tracks c { s.setPc t pc with manager := manager } := by
  cases h
  constructor <;> simp only [System.setPc, update_apply]
  all_goals first | assumption | grind

theorem Tracks.waiterStep (h : Tracks c s) (hwf : Wf c s) (hcall : c.waits[t]? = some call)
    (parked : Bool) : Tracks c (s.waiterStep call t parked) := by
  have hkeeps : ∀ (t' : TaskId) (id : ℕ), s.waiter t' = .blocked id →
      s.manager.waiters id ≠ none → s.manager.waiters id ≠ none := fun _ _ _ => id
  unfold System.waiterStep
  cases hpc : s.waiter t with
  | start =>
    dsimp only
    split_ifs with hcompare
    · exact h.setPc (by simp [InWindow]) nofun hkeeps
    · exact h.setPc (by simp [InWindow]) nofun hkeeps
    · -- the comparison would have failed for a relevant waiter
      have hequal : s.memory call.uaddr = call.expected := by
        simp only [compareU32] at hcompare
        simp_all
      refine h.setPc (fun hread call' hrel => absurd ?_ hrel.expected) nofun hkeeps
      obtain rfl := some.inj (hrel.waits.symm.trans hcall)
      rw [← hequal, hrel.uaddr, h.stored hread.ne_start]
  | compared =>
    dsimp only
    split_ifs
    · exact h.setPc (fun _ _ _ _ => by rw [hpc]; trivial) nofun hkeeps
    · exact h.setPc (fun _ _ _ _ => by rw [hpc]; trivial) nofun hkeeps
  | taken => exact h.setPc (fun _ _ _ _ => by rw [hpc]; trivial) nofun hkeeps
  | numbered id =>
    refine h.setPc (fun _ _ _ _ => by rw [hpc]; trivial) nofun fun t' id' hblocked htable => ?_
    have hmine : id' ≠ id := by
      rintro rfl
      have hsame := hwf.unique t t' id' (by rw [hpc]; rfl) (by rw [hblocked]; rfl)
      rw [← hsame, hpc] at hblocked
      cases hblocked
    simpa [update_of_ne hmine] using htable
  | inserted id =>
    exact h.setPc (by simp [InWindow]) (fun _ _ => by rw [hpc]; trivial) hkeeps
  | blocked id =>
    dsimp only
    split_ifs
    · exact h.setPc (by simp [InWindow]) nofun hkeeps
    · exact h
  | returned r => exact h

/-- When the waker reads the index, no relevant waiter is in its window. -/
def ReadsQuiet (c : Scenario) (s : System) : Event → Prop
  | .waiter _ _ => True
  | .waker => s.waker = .stored → ∀ t call, Relevant c t call → ¬ (s.waiter t).InWindow

theorem Wf.mem_index (h : Wf c s) (hrel : Relevant c t call) (hblocked : s.waiter t = .blocked id)
    (htable : s.manager.waiters id ≠ none) : id ∈ s.manager.addressIndex c.uaddr := by
  rcases h.standing t id call hrel.waits hblocked with ⟨-, hindex, -⟩ | ⟨hnone, -⟩ | ⟨hnone, -⟩
  · rw [hrel.uaddr] at hindex
    exact hindex
  · exact absurd hnone htable
  · exact absurd hnone htable

theorem Wf.entry_bitset (h : Wf c s) (hrel : Relevant c t call)
    (hblocked : s.waiter t = .blocked id) (hw : s.manager.waiters id = some w) :
    w.bitset = call.effectiveBitset := by
  obtain ⟨⟨call', hcall', hentry⟩, hpc⟩ := h.table id w hw
  have hnumber : (s.waiter w.taskId).number = some id := by
    rcases hpc with hpc | hpc <;> rw [hpc] <;> rfl
  have hsame := h.unique t w.taskId id (by rw [hblocked]; rfl) hnumber
  rw [← hsame, hrel.waits] at hcall'
  cases hcall'
  rw [hentry]
  rfl

theorem Tracks.advance (h : Tracks c s) (hread : s.waker.AfterRead) {s' : System}
    (hmemory : s'.memory = s.memory) (hwaiter : s'.waiter = s.waiter)
    (hshort : ∀ ids, s'.waker ≠ .listed ids)
    (htracked : ∀ t call id, Relevant c t call → Answers c call → s'.waiter t = .blocked id →
      s'.manager.waiters id ≠ none → id ∈ s'.waker.pendingIds) : Tracks c s' where
  stored _ := by rw [hmemory, h.stored hread.ne_start]
  passed _ := by rw [hwaiter]; exact h.passed hread
  short ids hids := absurd hids (hshort ids)
  tracked _ := htracked

theorem Tracks.wakerStep (h : Tracks c s) (hwf : Wf c s)
    (hcount : c.waits.length ≤ c.count.toNat) (hquiet : ReadsQuiet c s .waker) :
    Tracks c (s.wakerStep c) := by
  obtain ⟨stored, -, short, tracked⟩ := id h
  unfold System.wakerStep
  cases hpc : s.waker with
  | start =>
    exact ⟨fun _ => update_self _ _ _, False.elim, nofun, False.elim⟩
  | stored =>
    have hvalue := stored (by rw [hpc]; simp)
    split_ifs with hempty
    · refine ⟨fun _ => hvalue, fun _ => hquiet hpc, fun ids hids => absurd hids (by simp), ?_⟩
      intro _ t call id hrel _ hblocked htable
      have hindex := hwf.mem_index hrel hblocked htable
      rw [hempty] at hindex
      exact absurd hindex not_mem_nil
    · refine ⟨fun _ => hvalue, fun _ => hquiet hpc, ?_, ?_⟩
      · intro ids hids
        rw [← listed.inj hids]
        exact hwf.index_length c.uaddr
      · intro _ t call id hrel _ hblocked htable
        exact hwf.mem_index hrel hblocked htable
  | listed ids =>
    refine h.advance (by rw [hpc]; trivial) rfl rfl nofun ?_
    intro t call id hrel hanswers hblocked htable
    obtain ⟨w, hw⟩ := ne_none_iff_exists'.mp htable
    rw [hpc] at tracked
    change id ∈ matchWaiters _ _ _ ids []
    rw [matchWaiters_eq, length_nil, Nat.sub_zero, take_of_length_le
      (Nat.le_trans (length_filter_le _ _) (Nat.le_trans (short ids hpc) hcount))]
    refine mem_filter.mpr ⟨tracked trivial t call id hrel hanswers hblocked htable, ?_⟩
    refine (answers_eq_true_iff hw).mpr ?_
    rw [hwf.entry_bitset hrel hblocked hw]
    rintro ⟨mask, hmask, hzero⟩
    exact hanswers mask hmask hzero
  | resolving ids n =>
    have hread : s.waker.AfterRead := by rw [hpc]; trivial
    rw [hpc] at tracked
    cases ids with
    | nil => exact h.advance hread rfl rfl nofun (tracked trivial)
    | cons id ids =>
      dsimp only
      cases hw : s.manager.waiters id with
      | none =>
        refine h.advance hread rfl rfl nofun ?_
        intro t call id' hrel hanswers hblocked htable
        have hmem := tracked trivial t call id' hrel hanswers hblocked htable
        rcases mem_cons.mp hmem with rfl | hmem
        · exact absurd hw htable
        · exact hmem
      | some w =>
        refine h.advance hread rfl rfl nofun ?_
        intro t call id' hrel hanswers hblocked htable
        dsimp only at htable
        rw [update_apply] at htable
        split_ifs at htable with hid
        · exact absurd rfl htable
        · have hmem := tracked trivial t call id' hrel hanswers hblocked htable
          exact (mem_cons.mp hmem).resolve_left hid
  | unindexing id w ids n | recording id w ids n =>
    rw [hpc] at tracked
    exact h.advance (by rw [hpc]; trivial) rfl rfl nofun (tracked trivial)
  | waking id w ids n =>
    have hread : s.waker.AfterRead := by rw [hpc]; trivial
    rw [hpc] at tracked
    dsimp only
    split_ifs
    · exact h.advance hread rfl rfl nofun (tracked trivial)
    · exact h.advance hread rfl rfl nofun (tracked trivial)
  | done n => exact h

def InTable (s : System) (t : TaskId) : Prop := ∃ id w, s.manager.waiters id = some w ∧ w.taskId = t

/-- The task has not begun to wait, is back from its call, or was woken by the waker. -/
def Settled (c : Scenario) (s : System) (t : TaskId) : Prop :=
  s.waiter t = .start ∨ (∃ result, s.waiter t = .returned result) ∨
    ∃ id, s.waiter t = .blocked id ∧ s.awake t = true ∧
      s.manager.wakeRecords t = some ⟨.signaled, c.uaddr⟩

theorem wf_and_tracks {memory : UInt64 → UInt32} {events : List Event}
    (hcount : c.waits.length ≤ c.count.toNat)
    (h : Run.Along (step c) (ReadsQuiet c) (init memory) events) :
    Wf c (Run.exec (step c) (init memory) events) ∧
      Tracks c (Run.exec (step c) (init memory) events) := by
  refine h.invariant (I := fun s => Wf c s ∧ Tracks c s) ?_
    ⟨wf_init c memory, tracks_init c memory⟩
  rintro s event ⟨hwf, htracks⟩ hquiet
  cases event with
  | waiter t parked =>
    unfold step
    dsimp only
    cases hcall : c.waits[t]? with
    | none => exact ⟨hwf, htracks⟩
    | some call => exact ⟨hwf.waiterStep hcall parked, htracks.waiterStep hwf hcall parked⟩
  | waker => exact ⟨hwf.wakerStep, htracks.wakerStep hwf hcount hquiet⟩

/-- After a run in which the waker read a quiet index, a waiter whose word has changed is not
left in the table once the wake is over. -/
theorem no_lost_wakeup {memory : UInt64 → UInt32} {events : List Event}
    (hcount : c.waits.length ≤ c.count.toNat)
    (h : Run.Along (step c) (ReadsQuiet c) (init memory) events)
    (hcall : c.waits[t]? = some call) (huaddr : call.uaddr = c.uaddr) (hanswers : Answers c call) :
    let s := Run.exec (step c) (init memory) events
    (∃ woken, s.waker = .done woken) → s.memory c.uaddr ≠ call.expected →
      ¬ s.InTable t ∧ s.Settled c t := by
  rintro s ⟨woken, hdone⟩ hword
  obtain ⟨hwf, htracks⟩ := wf_and_tracks hcount h
  have hread : s.waker.AfterRead := by
    rw [hdone]
    trivial
  have hvalue := htracks.stored hread.ne_start
  have hrel : Relevant c t call := ⟨hcall, huaddr, fun heq => hword (hvalue.trans heq.symm)⟩
  have hwindow : ¬ (s.waiter t).InWindow := htracks.passed hread t call hrel
  have hgone : ∀ id, s.waiter t = .blocked id → s.manager.waiters id = none := by
    intro id hblocked
    by_contra htable
    have hmem := htracks.tracked hread t call id hrel hanswers hblocked htable
    rw [hdone] at hmem
    exact absurd hmem not_mem_nil
  constructor
  · rintro ⟨id, w, hw, rfl⟩
    rcases (hwf.table id w hw).2 with hpc | hpc
    · rw [hpc] at hwindow
      exact hwindow trivial
    · rw [hgone id hpc] at hw
      simp at hw
  · cases hpc : s.waiter t with
    | start => exact .inl hpc
    | returned r => exact .inr (.inl ⟨r, hpc⟩)
    | blocked id =>
      refine .inr (.inr ⟨id, hpc, ?_⟩)
      rcases hwf.standing t id call hcall hpc with ⟨htable, -⟩ | ⟨-, w, hhandling, -⟩ | ⟨-, hawake⟩
      · exact absurd (hgone id hpc) htable
      · change s.waker.handling = some (id, w) at hhandling
        rw [hdone] at hhandling
        exact absurd hhandling (by simp [handling])
      · exact hawake
    | compared | taken | numbered id | inserted id =>
      rw [hpc] at hwindow
      exact absurd trivial hwindow

/-- One waiter for a word that is 0, which the waker sets to 1. -/
def oneWaiter : Scenario := ⟨[⟨0x1000, 0, 0, false⟩], 0x1000, 1, 1, none⟩

theorem no_lost_wakeup_blocked_first :
    let events := List.replicate 5 (.waiter 0 true) ++ List.replicate 8 .waker
    Run.Along (step oneWaiter) (ReadsQuiet oneWaiter) (init fun _ => 0) events ∧
      let s := Run.exec (step oneWaiter) (init fun _ => 0) events
      s.waker = .done 1 ∧ ¬ s.InTable 0 ∧ s.Settled oneWaiter 0 := by
  intro events
  have halong : Run.Along (step oneWaiter) (ReadsQuiet oneWaiter) (init fun _ => 0) events := by
    refine ⟨trivial, trivial, trivial, trivial, trivial, nofun, ?_, nofun, nofun, nofun, nofun,
      nofun, nofun, trivial⟩
    intro _ t call hrel
    have ht : t < 1 := (List.getElem?_eq_some_iff.mp hrel.waits).1
    obtain rfl : t = 0 := Nat.lt_one_iff.mp ht
    exact fun hwindow => hwindow
  exact ⟨halong, rfl, no_lost_wakeup (by decide) halong rfl rfl nofun ⟨1, rfl⟩ (by decide)⟩

/-- The waker comes after the comparison and before the entry in the table. -/
theorem wakeup_lost_after_comparison :
    let s := Run.exec (step oneWaiter) (init fun _ => 0)
      [.waiter 0 true, .waker, .waker, .waiter 0 true, .waiter 0 true,
        .waiter 0 true, .waiter 0 true]
    s.waker = .done 0 ∧ s.memory 0x1000 ≠ 0 ∧ s.waiter 0 = .blocked 1 ∧
      s.manager.waiters 1 = some ⟨0, true, [0x1000], 0xffffffff, none⟩ ∧ s.awake 0 = false := by
  refine ⟨rfl, by decide, rfl, by decide, rfl⟩

end System

end EchOS.Scheduling.Futex
