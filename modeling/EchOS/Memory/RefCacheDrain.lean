import EchOS.Lib.Run
import EchOS.Memory.RefCacheTotals

/-! When the reference cache drains a frame that is still referenced, over all
interleavings of `inc`, `dec` and `tick`. -/

namespace EchOS.Memory

open RefCache

inductive RefOp
  | inc (cpu phys : ℕ)
  | dec (cpu phys : ℕ)
  | tick (cpu : ℕ)

def RefOp.slot : RefOp → Fin maxCpuSlots
  | .inc cpu _ => currentCpuSlot cpu
  | .dec cpu _ => currentCpuSlot cpu
  | .tick cpu => currentCpuSlot cpu

/-- The reference cache with the number of `inc`s and `dec`s of each frame so far. -/
structure RefLedger where
  cache : RefCache
  incs : ℕ → ℕ
  decs : ℕ → ℕ

namespace RefLedger

def start : RefLedger := ⟨.new, fun _ => 0, fun _ => 0⟩

def bump (f : ℕ → ℕ) (phys p : ℕ) : ℕ := if p = frameKey phys then f p + 1 else f p

def step (l : RefLedger) (op : RefOp) : RefLedger :=
  match op with
  | .inc _ phys => { l with cache := l.cache.inc op.slot phys, incs := bump l.incs phys }
  | .dec _ phys => { l with cache := l.cache.dec op.slot phys, decs := bump l.decs phys }
  | .tick _ => { l with cache := l.cache.tick op.slot }

theorem step_tick (l : RefLedger) (cpu : ℕ) :
    l.step (.tick cpu) = { l with cache := l.cache.tick (currentCpuSlot cpu) } := rfl

def ReleasesHeld (l : RefLedger) : RefOp → Prop
  | .dec _ phys => l.decs (frameKey phys) < l.incs (frameKey phys)
  | _ => True

/-- No cached delta and no flushed count of the CPU is at its limit. -/
def Unsaturated (l : RefLedger) (op : RefOp) : Prop :=
  ∀ slot, ((l.cache.cpus op.slot).cache slot).delta < i32Max ∧ l.cache.Fits op.slot slot

/-- A tick reviews no frame of count zero for which the CPUs still cache references. -/
def ReviewsUncached (l : RefLedger) : RefOp → Prop
  | .tick cpu =>
    let flushed := l.cache.flush (currentCpuSlot cpu)
    ∀ e ∈ (flushed.cpus (currentCpuSlot cpu)).review, Due flushed.globalEpoch e →
      flushed.table.refcount e.phys = 0 → flushed.cachedTotal e.phys ≤ 0
  | _ => True

/-- Every frame the operation drains has as many `dec`s as `inc`s. -/
def DrainsUnreferenced (l : RefLedger) (op : RefOp) : Prop :=
  ∀ p ∈ (l.step op).cache.drainList.drop l.cache.drainList.length,
    (l.step op).incs (frameKey p) = (l.step op).decs (frameKey p)

structure Covered (l : RefLedger) : Prop where
  sound : l.cache.Sound
  decs_le : ∀ p, l.decs p ≤ l.incs p
  held_le : ∀ p, frameKey p ≠ 0 →
    (l.incs (frameKey p) : ℤ) - l.decs (frameKey p) ≤ l.cache.total p

theorem covered_start : Covered start := by
  refine ⟨⟨?_, ?_⟩, ?_, ?_⟩
  · intro key e h
    exact absurd h (by simp [start, new, FrameTable.new])
  · intro c e h
    exact absurd h (by simp [start, new, RefCacheCpuState.new])
  · exact fun p => le_rfl
  · intro p _
    simp [start, new, total, cachedTotal, FrameTable.new,
      FrameTable.refcount]

variable {l : RefLedger} {cpu phys : ℕ}

theorem covered_inc (h : l.Covered) (hu : l.Unsaturated (.inc cpu phys)) :
    (l.step (.inc cpu phys)).Covered := by
  obtain ⟨hd, hfit⟩ := hu (cacheSlot phys)
  obtain ⟨hs, -, htotal⟩ := inc_spec h.sound hfit hd
  refine ⟨hs, ?_, ?_⟩
  · intro p
    have := h.decs_le p
    change l.decs p ≤ bump l.incs phys p
    unfold bump
    split_ifs <;> omega
  · intro p hp
    have hheld := h.held_le p hp
    have hgain := htotal p hp
    change ((bump l.incs phys (frameKey p) : ℕ) : ℤ) - l.decs (frameKey p) ≤
      (l.cache.inc _ phys).total p
    unfold bump
    split_ifs at hgain ⊢ <;> omega

theorem covered_dec (h : l.Covered) (hr : l.ReleasesHeld (.dec cpu phys))
    (hu : l.Unsaturated (.dec cpu phys)) : (l.step (.dec cpu phys)).Covered := by
  obtain ⟨-, hfit⟩ := hu (cacheSlot phys)
  obtain ⟨hs, -, htotal⟩ := dec_spec h.sound hfit
  refine ⟨hs, fun p => ?_, ?_⟩
  · show bump l.decs phys p ≤ l.incs p
    unfold bump
    split_ifs with hp
    · exact hp ▸ hr
    · exact h.decs_le p
  intro p hp
  have hheld := h.held_le p hp
  have hloss := htotal p hp
  change (l.incs (frameKey p) : ℤ) - (bump l.decs phys (frameKey p) : ℕ) ≤
    (l.cache.dec _ phys).total p
  unfold bump
  split_ifs at hloss ⊢ <;> omega

theorem tick_drains (h : l.Covered) (hu : l.Unsaturated (.tick cpu))
    (hr : l.ReviewsUncached (.tick cpu)) :
    (l.step (.tick cpu)).Covered ∧ l.DrainsUnreferenced (.tick cpu) := by
  have hfit : ∀ slot, l.cache.Fits (currentCpuSlot cpu) slot := fun slot => (hu slot).2
  obtain ⟨hflush, -, hflushed⟩ := flush_spec h.sound hfit
  have hQ : ∀ e ∈ ((l.cache.flush (currentCpuSlot cpu)).cpus (currentCpuSlot cpu)).review,
      Due (l.cache.flush (currentCpuSlot cpu)).globalEpoch e →
      (l.cache.flush (currentCpuSlot cpu)).table.refcount e.phys = 0 →
        l.incs (frameKey e.phys) = l.decs (frameKey e.phys) := by
    intro e he hdue hz
    have hcached := hr e he hdue hz
    have hp := hflush.reviewed _ e he
    have htotal := hflushed e.phys hp
    have hheld := h.held_le e.phys hp
    have hle := h.decs_le (frameKey e.phys)
    have hflat : (l.cache.flush (currentCpuSlot cpu)).total e.phys =
        (l.cache.flush (currentCpuSlot cpu)).cachedTotal e.phys := by
      simp [total, hz]
    omega
  obtain ⟨hs, htotal, drained, hdrain, hall⟩ := tick_spec h.sound hfit
    (Q := fun p => l.incs (frameKey p) = l.decs (frameKey p)) hQ
  rw [DrainsUnreferenced, step_tick]
  refine ⟨⟨hs, h.decs_le, ?_⟩, ?_⟩
  · intro p hp
    exact (h.held_le p hp).trans (htotal p hp)
  · intro p hp
    rw [hdrain, List.drop_left] at hp
    exact hall p hp

theorem drainsUnreferenced_of_drainList {op : RefOp}
    (h : (l.step op).cache.drainList = l.cache.drainList) : l.DrainsUnreferenced op := by
  intro p hp
  rw [h] at hp
  simp at hp

theorem step_covered (l : RefLedger) (op : RefOp) (h : l.Covered)
    (hg : (l.ReleasesHeld op ∧ l.Unsaturated op) ∧ l.ReviewsUncached op) : (l.step op).Covered := by
  cases op with
  | inc cpu phys => exact covered_inc h hg.1.2
  | dec cpu phys => exact covered_dec h hg.1.1 hg.1.2
  | tick cpu => exact (tick_drains h hg.1.2 hg.2).1

theorem step_drains (l : RefLedger) (op : RefOp) (h : l.Covered)
    (hg : (l.ReleasesHeld op ∧ l.Unsaturated op) ∧ l.ReviewsUncached op) :
    l.DrainsUnreferenced op := by
  cases op with
  | inc cpu phys =>
    obtain ⟨hd, hfit⟩ := hg.1.2 (cacheSlot phys)
    exact drainsUnreferenced_of_drainList (inc_spec h.sound hfit hd).2.1
  | dec cpu phys =>
    obtain ⟨-, hfit⟩ := hg.1.2 (cacheSlot phys)
    exact drainsUnreferenced_of_drainList (dec_spec h.sound hfit).2.1
  | tick cpu => exact (tick_drains h hg.1.2 hg.2).2

/-- In every interleaving that releases only held references, saturates no count and
reviews no frame with cached references, a drained frame has no reference left. -/
theorem drained_frames_unreferenced (ops : List RefOp)
    (hheld : Run.Along step ReleasesHeld start ops) (hunsat : Run.Along step Unsaturated start ops)
    (hreview : Run.Along step ReviewsUncached start ops) :
    Run.Along step DrainsUnreferenced start ops :=
  Run.Along.safety step_covered step_drains covered_start
    ((Run.along_and _ _).mpr ⟨(Run.along_and _ _).mpr ⟨hheld, hunsat⟩, hreview⟩)

instance (l : RefLedger) : ∀ op, Decidable (l.ReleasesHeld op)
  | .dec _ _ => inferInstanceAs (Decidable (_ < _))
  | .inc _ _ => inferInstanceAs (Decidable True)
  | .tick _ => inferInstanceAs (Decidable True)

instance (l : RefLedger) (op : RefOp) : Decidable (l.Unsaturated op) :=
  inferInstanceAs (Decidable (∀ _ : Fin refcacheSize, _ < _ ∧ (_ : ℤ) ≤ _))

instance (l : RefLedger) : ∀ op, Decidable (l.ReviewsUncached op)
  | .tick _ => inferInstanceAs (Decidable (∀ e ∈ _, _ → _ = _ → _ ≤ _))
  | .inc _ _ => inferInstanceAs (Decidable True)
  | .dec _ _ => inferInstanceAs (Decidable True)

instance (l : RefLedger) (op : RefOp) : Decidable (l.DrainsUnreferenced op) :=
  inferInstanceAs (Decidable (∀ p ∈ _, _ = _))

/-- Two CPUs take and return a frame, and their second ticks drain it. -/
def twoCpus : List RefOp :=
  [.inc 0 0x5000, .inc 1 0x5000, .tick 0, .tick 1, .dec 0 0x5000, .dec 1 0x5000, .tick 0, .tick 1]

theorem drained_frames_unreferenced_two_cpus :
    Run.Along step DrainsUnreferenced start twoCpus ∧
    (Run.exec step start twoCpus).cache.drainList = [0x5000] :=
  ⟨drained_frames_unreferenced twoCpus (by decide +kernel) (by decide +kernel) (by decide +kernel),
    by decide +kernel⟩

/-- CPU 1 holds a reference that it has not flushed; the ticks of CPU 0 alone pass the
epochs, and the frame is drained after two `inc`s and one `dec`. -/
theorem drains_frame_cached_elsewhere :
    Run.Along step ReleasesHeld start
      [.inc 0 0x5000, .tick 0, .inc 1 0x5000, .dec 0 0x5000, .tick 0, .tick 0] ∧
    ¬ Run.Along step DrainsUnreferenced start
      [.inc 0 0x5000, .tick 0, .inc 1 0x5000, .dec 0 0x5000, .tick 0, .tick 0] := by
  decide +kernel

end RefLedger

end EchOS.Memory
