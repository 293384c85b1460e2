import EchOS.Lib.Agenda
import EchOS.Lib.Run
import EchOS.Task.Timer
import Mathlib.Data.Fintype.Prod

/-! The timing wheel is an agenda: every scheduled task wakes at one tick that is fixed when
it is scheduled, however it is moved between the wheels. -/

namespace EchOS.Scheduling.TimingWheel

open Buckets List

variable {α : Type*}

/-- When a task of an upper wheel wakes: a tick late if its wake tick is the start of a
revolution of the lowest wheel, since it then moves down only after that slot was left. -/
def lateTick (wakeTick : ℕ) : ℕ := if wakeTick % wheelSize = 0 then wakeTick + 1 else wakeTick

def dueTick (current wakeTick : ℕ) : ℕ :=
  if wakeTick ≤ current then current + 1
  else if wakeTick - current < wheelSize then wakeTick
  else lateTick wakeTick

def nextVisit (now : ℕ) (idx : Fin wheelSize) : ℕ :=
  now + (idx.val + wheelSize - now % wheelSize) % wheelSize

def wakeOf (task : Task α) : ℕ :=
  match task.state with
  | .sleeping wakeTick => wakeTick
  | _ => 0

def label (now : ℕ) (i : Fin 4 × Fin wheelSize) (task : Task α) : Task α × ℕ :=
  (task, if i.1 = 0 then nextVisit now i.2 else lateTick (wakeOf task))

def agenda (t : TimingWheel α) : Agenda (Task α) :=
  ⟨t.currentTick, contents (label t.currentTick) t.wheels⟩

/-- The tick at which a level cascades the slot that holds `wakeTick`. -/
def levelStart (level : Fin 4) (wakeTick : ℕ) : ℕ :=
  wakeTick / wheelSize ^ level.val * wheelSize ^ level.val

/-- Tasks of the upper wheels stand in the slot of their wake tick, and that slot is still
to be cascaded; levels below `done` have no slot left that cascades now. -/
def Placed (done : ℕ) (t : TimingWheel α) : Prop :=
  ∀ level idx, ∀ task ∈ t.wheels (level, idx), level ≠ 0 → ∃ wakeTick,
    task.state = .sleeping wakeTick ∧ idx = wheelSlot (wakeTick >>> (level.val * wheelBits)) ∧
      t.currentTick ≤ levelStart level wakeTick ∧
      (level.val < done → t.currentTick < levelStart level wakeTick)

variable {current done now tick wakeTick : ℕ} {level : Fin 4} {idx : Fin wheelSize}
  {t : TimingWheel α}

theorem nextVisit_eq (hle : now ≤ tick) (hlt : tick < now + wheelSize) :
    nextVisit now (wheelSlot tick) = tick := by
  simp only [nextVisit, wheelSlot, wheelSize] at *
  omega

theorem nextVisit_eq_self_iff : nextVisit now idx = now ↔ idx = wheelSlot now := by
  rw [eq_wheelSlot_iff]
  simp only [nextVisit, wheelSize] at *
  omega

theorem nextVisit_succ (h : idx ≠ wheelSlot now) : nextVisit (now + 1) idx = nextVisit now idx := by
  rw [ne_eq, eq_wheelSlot_iff] at h
  simp only [nextVisit, wheelSize] at *
  omega

theorem le_lateTick (wakeTick : ℕ) : wakeTick ≤ lateTick wakeTick := by
  unfold lateTick
  split_ifs <;> omega

theorem levelStart_le (level : Fin 4) (wakeTick : ℕ) : levelStart level wakeTick ≤ wakeTick :=
  Nat.div_mul_le_self _ _

def place (current wakeTick : ℕ) : Fin 4 × Fin wheelSize :=
  if wakeTick ≤ current then (0, wheelSlot (current + 1))
  else if wakeTick - current < wheelSize then (0, wheelSlot wakeTick)
  else if wakeTick - current < 1 <<< (2 * wheelBits) then (1, wheelSlot (wakeTick >>> wheelBits))
  else if wakeTick - current < 1 <<< (3 * wheelBits) then
    (2, wheelSlot (wakeTick >>> (2 * wheelBits)))
  else (3, wheelSlot (wakeTick >>> (3 * wheelBits)))

theorem schedule_eq (t : TimingWheel α) (task : Task α) (wakeTick : ℕ) :
    t.schedule task wakeTick =
      ⟨push t.wheels (place t.currentTick wakeTick)
        { task with state := .sleeping wakeTick }, t.currentTick⟩ := by
  unfold schedule place
  dsimp only
  split_ifs <;> rfl

theorem label_place (current wakeTick : ℕ) (task : Task α) (h : task.state = .sleeping wakeTick) :
    label current (place current wakeTick) task = (task, dueTick current wakeTick) := by
  have hwake : wakeOf task = wakeTick := by simp [wakeOf, h]
  unfold place dueTick
  split_ifs with hpast hnear h1 h2
  · simp [label, nextVisit_eq (Nat.le_succ current) (by simp [wheelSize])]
  · simp [label, nextVisit_eq (Nat.le_of_not_le hpast) (by omega)]
  · simp [label, hwake]
  · simp [label, hwake]
  · simp [label, hwake]

theorem place_ahead (h : (place current wakeTick).1 ≠ 0) :
    (place current wakeTick).2 =
        wheelSlot (wakeTick >>> ((place current wakeTick).1.val * wheelBits)) ∧
      current < levelStart (place current wakeTick).1 wakeTick := by
  unfold place at h ⊢
  split_ifs at h ⊢ with hpast hnear h1 h2
  · exact absurd rfl h
  · exact absurd rfl h
  · refine ⟨rfl, ?_⟩
    simp [levelStart, wheelSize] at *
    omega
  · refine ⟨rfl, ?_⟩
    simp [levelStart, wheelSize, wheelBits] at *
    omega
  · refine ⟨rfl, ?_⟩
    simp [levelStart, wheelSize, wheelBits] at *
    omega

theorem agenda_schedule (t : TimingWheel α) (task : Task α) (wakeTick : ℕ) :
    (t.schedule task wakeTick).agenda =
      t.agenda.add { task with state := .sleeping wakeTick } (dueTick t.currentTick wakeTick) := by
  rw [schedule_eq]
  change Agenda.mk _ (contents (label t.currentTick) (push _ _ _)) = _
  rw [contents_push, label_place _ _ _ rfl]
  rfl

@[simp] theorem currentTick_schedule (t : TimingWheel α) (task : Task α) (wakeTick : ℕ) :
    (t.schedule task wakeTick).currentTick = t.currentTick := by
  rw [schedule_eq]

theorem Placed.schedule (h : Placed done t) (task : Task α) (wakeTick : ℕ) :
    Placed done (t.schedule task wakeTick) := by
  rw [schedule_eq]
  intro level idx task' hmem hlevel
  rcases mem_push.mp hmem with hmem | ⟨hplace, rfl⟩
  · exact h level idx task' hmem hlevel
  · obtain ⟨hl, hi⟩ : level = (place t.currentTick wakeTick).1 ∧
        idx = (place t.currentTick wakeTick).2 := Prod.mk.inj hplace
    obtain ⟨hslot, hahead⟩ := place_ahead (hl ▸ hlevel)
    refine ⟨wakeTick, rfl, ?_, ?_, ?_⟩
    · rw [hi, hslot, hl]
    · exact hl ▸ hahead.le
    · exact fun _ => hl ▸ hahead

theorem dueTick_of_revolution (hrev : current % wheelSize = 0) (hle : current ≤ wakeTick) :
    dueTick current wakeTick = lateTick wakeTick := by
  unfold dueTick lateTick
  split_ifs <;> simp only [wheelSize] at * <;> omega

theorem reschedule_spec (hp : Placed done t)
    (hrev : t.currentTick % wheelSize = 0) (tick : ℕ) {tasks : List (Task α)}
    (htasks : ∀ task ∈ tasks, ∃ wakeTick, task.state = .sleeping wakeTick ∧
      t.currentTick ≤ wakeTick) :
    let t' := tasks.foldl (reschedule tick) t
    t'.currentTick = t.currentTick ∧ Placed done t' ∧
      t'.agenda.items = t.agenda.items +
        (tasks : Multiset (Task α)).map fun task => (task, lateTick (wakeOf task)) := by
  induction tasks generalizing t with
  | nil => exact ⟨rfl, hp, by simp⟩
  | cons task tasks ih =>
    obtain ⟨wakeTick, hstate, hle⟩ := htasks task mem_cons_self
    have hstep : reschedule tick t task = t.schedule task wakeTick := by
      simp [reschedule, hstate]
    have hsame : { task with state := .sleeping wakeTick } = task := by rw [← hstate]
    have hwake : wakeOf task = wakeTick := by simp [wakeOf, hstate]
    have hrest : ∀ task' ∈ tasks, ∃ wakeTick', task'.state = .sleeping wakeTick' ∧
        (t.schedule task wakeTick).currentTick ≤ wakeTick' := by
      intro task' hmem
      rw [currentTick_schedule]
      exact htasks task' (mem_cons_of_mem _ hmem)
    obtain ⟨hnow, hp', hitems⟩ := ih (hp.schedule task wakeTick)
      (by rw [currentTick_schedule]; exact hrev) hrest
    rw [foldl_cons, hstep]
    refine ⟨hnow.trans (currentTick_schedule t task wakeTick), hp', ?_⟩
    rw [hitems, agenda_schedule, hsame, dueTick_of_revolution hrev hle, Agenda.add,
      ← Multiset.cons_coe, Multiset.map_cons, hwake, Multiset.cons_add, Multiset.add_cons]

theorem wheelSlot_levelStart (h : levelStart level wakeTick = tick) :
    wheelSlot (wakeTick >>> (level.val * wheelBits)) =
      wheelSlot (tick >>> (level.val * wheelBits)) := by
  have hpow : wheelSize ^ level.val = 2 ^ (level.val * wheelBits) := by
    rw [wheelSize, wheelBits, Nat.mul_comm, Nat.pow_mul]
  rw [Nat.shiftRight_eq_div_pow, Nat.shiftRight_eq_div_pow, ← hpow, ← h, levelStart,
    Nat.mul_div_cancel _ (Nat.pow_pos (by decide))]

theorem Placed.clear (h : Placed done t) (i : Fin 4 × Fin wheelSize) :
    Placed done ⟨clear t.wheels i, t.currentTick⟩ :=
  fun level idx task hmem => h level idx task (mem_clear.mp hmem).1

theorem Placed.succ (h : Placed level.val t)
    (hne : ∀ idx, ∀ task ∈ t.wheels (level, idx), ∀ wakeTick,
      idx = wheelSlot (wakeTick >>> (level.val * wheelBits)) →
      levelStart level wakeTick ≠ t.currentTick) : Placed (level.val + 1) t := by
  intro level' idx task hmem hlevel
  obtain ⟨wakeTick, hstate, hidx, hle, hlt⟩ := h level' idx task hmem hlevel
  refine ⟨wakeTick, hstate, hidx, hle, ?_⟩
  intro hdone
  rcases Nat.lt_succ_iff_lt_or_eq.mp hdone with hdone | hdone
  · exact hlt hdone
  · obtain rfl : level' = level := Fin.ext hdone
    exact lt_of_le_of_ne hle (hne idx task hmem wakeTick hidx).symm

theorem cascade_spec (hlevel : level ≠ 0) (hp : Placed level.val t)
    (hrev : t.currentTick % wheelSize = 0) :
    (t.cascade level t.currentTick).currentTick = t.currentTick ∧
      Placed (level.val + 1) (t.cascade level t.currentTick) ∧
      (t.cascade level t.currentTick).agenda = t.agenda := by
  let idx := wheelSlot (t.currentTick >>> (level.val * wheelBits))
  let cleared : TimingWheel α := ⟨clear t.wheels (level, idx), t.currentTick⟩
  have hcleared : Placed (level.val + 1) cleared := by
    refine (hp.clear (level, idx)).succ ?_
    intro idx' task hmem wakeTick hidx hstart
    refine (mem_clear.mp hmem).2 (Prod.ext rfl ?_)
    rw [hidx]
    exact wheelSlot_levelStart hstart
  have htasks : ∀ task ∈ t.wheels (level, idx), ∃ wakeTick,
      task.state = .sleeping wakeTick ∧ t.currentTick ≤ wakeTick := by
    intro task hmem
    obtain ⟨wakeTick, hstate, -, hle, -⟩ := hp level idx task hmem hlevel
    exact ⟨wakeTick, hstate, hle.trans (levelStart_le level wakeTick)⟩
  obtain ⟨hnow, hp', hitems⟩ := reschedule_spec hcleared hrev t.currentTick htasks
  refine ⟨hnow, hp', ?_⟩
  have hlabel : (t.wheels (level, idx) : Multiset (Task α)).map (label t.currentTick (level, idx)) =
      (t.wheels (level, idx) : Multiset (Task α)).map
        fun task => (task, lateTick (wakeOf task)) := by
    refine Multiset.map_congr rfl fun task _ => ?_
    simp [label, hlevel]
  have hcontents := contents_clear (label t.currentTick) t.wheels (level, idx)
  rw [hlabel] at hcontents
  exact congrArg₂ Agenda.mk hnow (hitems.trans hcontents)

theorem cascadeIfDue_spec (level : Fin 4) (hlevel : level ≠ 0)
    (hnow : t.currentTick = tick) (hp : Placed level.val t) :
    (t.cascadeIfDue level tick).currentTick = tick ∧
      Placed (level.val + 1) (t.cascadeIfDue level tick) ∧
      (t.cascadeIfDue level tick).agenda = t.agenda := by
  subst hnow
  unfold cascadeIfDue
  have hpow : 1 <<< (level.val * wheelBits) = wheelSize ^ level.val := by
    rw [Nat.one_shiftLeft, wheelSize, wheelBits, Nat.mul_comm, Nat.pow_mul]
  split_ifs with hdue
  · refine cascade_spec hlevel hp (Nat.mod_eq_zero_of_dvd ?_)
    rw [hpow] at hdue
    have hpos : level.val ≠ 0 := fun h => hlevel (Fin.ext h)
    exact (dvd_pow_self _ hpos).trans (Nat.dvd_of_mod_eq_zero hdue)
  · refine ⟨rfl, hp.succ ?_, rfl⟩
    intro idx task _ wakeTick _ hstart
    refine hdue ?_
    rw [hpow, ← hstart]
    exact Nat.mul_mod_left _ _

theorem due_ne_of_clear (hp : Placed 4 t) {item : Task α × ℕ}
    (hitem : item ∈ contents (label t.currentTick)
      (clear t.wheels (0, wheelSlot t.currentTick))) : item.2 ≠ t.currentTick := by
  obtain ⟨⟨level, idx⟩, task, hmem, rfl⟩ := mem_contents.mp hitem
  obtain ⟨hmem, hne⟩ := mem_clear.mp hmem
  by_cases hlevel : level = 0
  · subst hlevel
    intro hnow
    simp only [label, if_true, nextVisit_eq_self_iff] at hnow
    exact hne (Prod.ext rfl hnow)
  · obtain ⟨wakeTick, hstate, -, -, hlt⟩ := hp level idx task hmem hlevel
    have hwake : wakeOf task = wakeTick := by simp [wakeOf, hstate]
    have hle := (levelStart_le level wakeTick).trans (le_lateTick wakeTick)
    simp only [label, if_neg hlevel, hwake]
    omega

theorem agenda_leave_slot (hp : Placed 4 t) :
    t.agenda.ready = (t.wheels (0, wheelSlot t.currentTick) : Multiset (Task α)) ∧
      t.agenda.tick = (⟨clear t.wheels (0, wheelSlot t.currentTick),
        t.currentTick + 1⟩ : TimingWheel α).agenda := by
  have hsplit := contents_clear (label t.currentTick) t.wheels
    (0, wheelSlot t.currentTick)
  have hlabel (task : Task α) :
      label t.currentTick (0, wheelSlot t.currentTick) task = (task, t.currentTick) := by
    simp [label, nextVisit_eq_self_iff.mpr rfl]
  rw [Multiset.map_congr rfl fun task _ => hlabel task] at hsplit
  obtain ⟨hready, htick⟩ := Agenda.ready_tick_of_split (a := t.agenda) hsplit.symm
    fun item hitem => due_ne_of_clear hp hitem
  refine ⟨hready, htick.trans (congrArg (Agenda.mk _) (contents_congr ?_))⟩
  rintro ⟨level, idx⟩ task hmem
  obtain ⟨-, hne⟩ := mem_clear.mp hmem
  by_cases hlevel : level = 0
  · subst hlevel
    have hidx : idx ≠ wheelSlot t.currentTick := fun h => hne (Prod.ext rfl h)
    simp [label, nextVisit_succ hidx]
  · simp [label, hlevel]

theorem tick_spec (hp : Placed 4 t) :
    (t.tick.1 : Multiset (Task α)) = t.agenda.ready ∧ t.tick.2.agenda = t.agenda.tick ∧
      Placed 4 t.tick.2 := by
  obtain ⟨hready, htick⟩ := agenda_leave_slot hp
  let t₀ : TimingWheel α :=
    ⟨clear t.wheels (0, wheelSlot t.currentTick), t.currentTick + 1⟩
  have hp₀ : Placed 1 t₀ := by
    intro level idx task hmem hlevel
    obtain ⟨wakeTick, hstate, hidx, -, hlt⟩ :=
      hp level idx task (mem_clear.mp hmem).1 hlevel
    refine ⟨wakeTick, hstate, hidx, hlt level.isLt, ?_⟩
    intro hdone
    exact absurd (Fin.ext (Nat.lt_one_iff.mp hdone)) hlevel
  obtain ⟨hnow₁, hp₁, hagenda₁⟩ := cascadeIfDue_spec 1 (by decide) rfl hp₀
  obtain ⟨hnow₂, hp₂, hagenda₂⟩ := cascadeIfDue_spec 2 (by decide) hnow₁ hp₁
  obtain ⟨-, hp₃, hagenda₃⟩ := cascadeIfDue_spec 3 (by decide) hnow₂ hp₂
  refine ⟨hready.symm, ?_, hp₃⟩
  exact hagenda₃.trans (hagenda₂.trans (hagenda₁.trans htick.symm))

inductive Op (α : Type*)
  | schedule (task : Task α) (wakeTick : ℕ)
  | tick

structure Scheduled (α : Type*) where
  task : Task α
  wakeTick : ℕ
  madeAt : ℕ

namespace Scheduled

def sleeper (e : Scheduled α) : Task α := { e.task with state := .sleeping e.wakeTick }

def due (e : Scheduled α) : ℕ := dueTick e.madeAt e.wakeTick

end Scheduled

structure History (α : Type*) where
  wheel : TimingWheel α
  scheduled : List (Scheduled α)
  woken : ℕ → List (Task α)

namespace History

def start : History α := ⟨.new, [], fun _ => []⟩

def step (h : History α) : Op α → History α
  | .schedule task wakeTick =>
    { h with
      wheel := h.wheel.schedule task wakeTick
      scheduled := ⟨task, wakeTick, h.wheel.currentTick⟩ :: h.scheduled }
  | .tick =>
    { h with
      wheel := h.wheel.tick.2
      woken := Function.update h.woken h.wheel.currentTick h.wheel.tick.1 }

/-- Every scheduled task is in the wheel until its due tick, which returned it. -/
structure Punctual (h : History α) : Prop where
  placed : Placed 4 h.wheel
  accounts : h.wheel.agenda.Accounts (h.scheduled.map fun e => (e.sleeper, e.due))
    fun n => h.woken n

theorem punctual_start : Punctual (start : History α) := by
  refine ⟨fun level idx task hmem => absurd hmem not_mem_nil, ?_⟩
  have hempty : (start : History α).wheel.agenda = Agenda.empty := by
    refine congrArg (Agenda.mk 0) (Multiset.eq_zero_of_forall_notMem fun item hitem => ?_)
    obtain ⟨i, task, hmem, -⟩ := mem_contents.mp hitem
    exact not_mem_nil hmem
  rw [hempty]
  exact Agenda.accounts_empty

theorem le_dueTick (current wakeTick : ℕ) : current ≤ dueTick current wakeTick := by
  have := le_lateTick wakeTick
  unfold dueTick
  split_ifs <;> omega

theorem punctual_step (h : History α) (op : Op α) (hp : Punctual h) : Punctual (h.step op) := by
  cases op with
  | schedule task wakeTick =>
    refine ⟨hp.placed.schedule task wakeTick, ?_⟩
    have hadd := hp.accounts.add { task with state := .sleeping wakeTick }
      (le_dueTick h.wheel.currentTick wakeTick)
    rw [← agenda_schedule] at hadd
    exact hadd
  | tick =>
    obtain ⟨hwoken, hagenda, hplaced⟩ := tick_spec hp.placed
    refine ⟨hplaced, ?_⟩
    have htick := hp.accounts.tick
    rw [← hagenda, ← hwoken] at htick
    have hupdate : (fun n => ((h.step .tick).woken n : Multiset (Task α))) =
        Function.update (fun n => (h.woken n : Multiset (Task α))) h.wheel.currentTick
          h.wheel.tick.1 :=
      Function.comp_update (fun l : List (Task α) => (l : Multiset (Task α))) h.woken
        h.wheel.currentTick h.wheel.tick.1
    rw [hupdate]
    exact htick

def ticks (ops : List (Op α)) : ℕ := ops.countP (· matches .tick)

theorem currentTick_exec (ops : List (Op α)) {h : History α} (hp : Punctual h) :
    (Run.exec step h ops).wheel.currentTick = h.wheel.currentTick + ticks ops := by
  induction ops generalizing h with
  | nil => rfl
  | cons op ops ih =>
    have hrest := ih (punctual_step h op hp)
    cases op with
    | schedule task wakeTick => exact hrest.trans (congrArg (· + _) (currentTick_schedule ..))
    | tick =>
      obtain ⟨-, hagenda, -⟩ := tick_spec hp.placed
      have hnow : (h.step .tick).wheel.currentTick = h.wheel.currentTick + 1 :=
        congrArg Agenda.now hagenda
      have hcount : ticks (.tick :: ops) = ticks ops + 1 := countP_cons_of_pos rfl
      rw [hcount, ← Nat.add_assoc, Nat.add_right_comm, ← hnow]
      exact hrest

end History

theorem dueTick_of_le (h : wakeTick ≤ current) : dueTick current wakeTick = current + 1 := if_pos h

theorem dueTick_of_lt (h : current < wakeTick) :
    dueTick current wakeTick = wakeTick ∨ dueTick current wakeTick = wakeTick + 1 := by
  unfold dueTick lateTick
  split_ifs <;> omega

/-- In every run the wheel has counted its ticks, each of them has returned exactly the tasks due
at it, once for each call of `schedule`, and a task is due at the next tick, at its wake tick or
one tick later. -/
theorem scheduled_tasks_wake_once (ops : List (Op α)) :
    (Run.exec History.step History.start ops).wheel.currentTick = History.ticks ops ∧
    (∀ n < History.ticks ops,
      ((Run.exec History.step History.start ops).woken n).Perm
        (((Run.exec History.step History.start ops).scheduled.filter fun e =>
          e.due = n).map Scheduled.sleeper)) ∧
    ∀ e ∈ (Run.exec History.step History.start ops).scheduled,
      (e.wakeTick ≤ e.madeAt → e.due = e.madeAt + 1) ∧
      (e.madeAt < e.wakeTick → e.due = e.wakeTick ∨ e.due = e.wakeTick + 1) := by
  have hp := Run.exec_invariant History.punctual_step History.punctual_start ops
  have hticks : (Run.exec History.step History.start ops).wheel.currentTick = History.ticks ops :=
    (History.currentTick_exec ops History.punctual_start).trans (Nat.zero_add _)
  refine ⟨hticks, ?_, fun e _ => ⟨dueTick_of_le, dueTick_of_lt⟩⟩
  intro n hn
  have hpast := hp.accounts.past n (Nat.lt_of_lt_of_eq hn hticks.symm)
  rw [← Multiset.coe_eq_coe, hpast, Multiset.filter_coe, Multiset.map_coe, filter_map,
    map_map]
  rfl

end EchOS.Scheduling.TimingWheel
