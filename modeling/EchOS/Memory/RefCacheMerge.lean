import EchOS.Lib.Run
import EchOS.Memory.RefCacheTotals

/-! What is left of the references of one frame once all CPUs have flushed. Other frames may
have any entries. -/

namespace EchOS.Memory

open List Run

/-- The operations that change counts. A CPU is the slot it uses. -/
inductive CountOp
  | inc (cpu : Fin maxCpuSlots) (phys : ℕ)
  | dec (cpu : Fin maxCpuSlots) (phys : ℕ)
  | flush (cpu : Fin maxCpuSlots)

namespace CountOp

def cpu : CountOp → Fin maxCpuSlots
  | .inc cpu _ => cpu
  | .dec cpu _ => cpu
  | .flush cpu => cpu

def isInc (p : ℕ) : CountOp → Bool
  | .inc _ phys => frameKey phys = frameKey p
  | _ => false

def isDec (p : ℕ) : CountOp → Bool
  | .dec _ phys => frameKey phys = frameKey p
  | _ => false

def netRefs (p : ℕ) (ops : List CountOp) : ℤ := ops.countP (isInc p) - ops.countP (isDec p)

def net (p : ℕ) (op : CountOp) : ℤ := (if op.isInc p then 1 else 0) - if op.isDec p then 1 else 0

variable (p : ℕ)

theorem netRefs_cons (op : CountOp) (ops : List CountOp) :
    netRefs p (op :: ops) = op.net p + netRefs p ops := by
  unfold netRefs net
  rw [countP_cons, countP_cons]
  split_ifs <;> omega

theorem netRefs_append (ops ops' : List CountOp) :
    netRefs p (ops ++ ops') = netRefs p ops + netRefs p ops' := by
  unfold netRefs
  rw [countP_append, countP_append]
  omega

theorem netRefs_flushes (order : List (Fin maxCpuSlots)) : netRefs p (order.map .flush) = 0 := by
  induction order with
  | nil => rfl
  | cons c order ih =>
    rw [map_cons, netRefs_cons, ih]
    rfl

end CountOp

namespace RefCache

variable {s s' : RefCache} {p : ℕ} (cpu : Fin maxCpuSlots)

def countStep (s : RefCache) : CountOp → RefCache
  | .inc cpu phys => s.inc cpu phys
  | .dec cpu phys => s.dec cpu phys
  | .flush cpu => s.flush cpu

def moved (p : ℕ) (s : RefCache) : CountOp → ℤ
  | .inc cpu phys => s.displaced cpu phys p
  | .dec cpu phys => s.displaced cpu phys p
  | .flush cpu => (s.cpus cpu).cachedDelta p

/-- No delta of the frame and no count of it is at the limit of its machine word. -/
def Unsaturated (p : ℕ) (s : RefCache) (op : CountOp) : Prop :=
  (∀ c, i32Min < (s.cpus c).cachedDelta p ∧ (s.cpus c).cachedDelta p < i32Max) ∧
    s.table.refcount p + s.moved p op ≤ u32Max

/-- The delta that is moved does not take more references than the table counts. -/
def Unclamped (p : ℕ) (s : RefCache) (op : CountOp) : Prop :=
  0 ≤ s.table.refcount p + s.moved p op

theorem net_inc (phys : ℕ) :
    (CountOp.inc cpu phys).net p = if frameKey phys = frameKey p then 1 else 0 := by
  simp [CountOp.net, CountOp.isInc, CountOp.isDec]

theorem net_dec (phys : ℕ) :
    (CountOp.dec cpu phys).net p = if frameKey phys = frameKey p then -1 else 0 := by
  by_cases hkey : frameKey phys = frameKey p <;>
    simp [CountOp.net, CountOp.isInc, CountOp.isDec, hkey]

theorem adjust_moves_of_next {c : Fin maxCpuSlots} {phys : ℕ} (next : ℤ → ℤ) {first : ℤ}
    (hp : frameKey p ≠ 0) (hat : s.RefcacheAt p)
    (hfit : s.table.refcount p + s.displaced c phys p ≤ u32Max)
    (hnext : next ((s.cpus c).cachedDelta p) = (s.cpus c).cachedDelta p + first) :
    Moves s (s.adjust c phys next first) p c (s.displaced c phys p)
      (if frameKey phys = frameKey p then first else 0) := by
  have hmoves := adjust_moves next first hp hat fun _ => hfit
  rwa [hnext, add_sub_cancel_left, ite_self] at hmoves

theorem countStep_moves (hp : frameKey p ≠ 0) (hat : s.RefcacheAt p) {op : CountOp}
    (hsat : Unsaturated p s op) : Moves s (s.countStep op) p op.cpu (s.moved p op) (op.net p) := by
  obtain ⟨hdelta, hfit⟩ := hsat
  cases op with
  | inc cpu phys =>
    have hnext : min ((s.cpus cpu).cachedDelta p + 1) i32Max = (s.cpus cpu).cachedDelta p + 1 :=
      min_eq_left (hdelta cpu).2
    rw [net_inc]
    exact adjust_moves_of_next (fun delta => min (delta + 1) i32Max) hp hat hfit hnext
  | dec cpu phys =>
    have hnext := max_eq_left (Int.le_sub_one_of_lt (hdelta cpu).1)
    rw [net_dec]
    exact adjust_moves_of_next (fun delta => max (delta - 1) i32Min) hp hat hfit hnext
  | flush cpu => exact flush_moves hp hat fun _ => hfit

section Runs

variable {ops : List CountOp} {order : List (Fin maxCpuSlots)} {table : FrameTable}

theorem refcacheAt_exec (hp : frameKey p ≠ 0) (hat : s.RefcacheAt p)
    (hsat : Along countStep (Unsaturated p) s ops) : (exec countStep s ops).RefcacheAt p :=
  hsat.invariant (I := fun s => s.RefcacheAt p)
    (fun _ _ h hs => (countStep_moves hp h hs).refcacheAt) hat

/-- Clamping only ever adds references, so the total is exact if and only if no step clamps. -/
theorem total_exec (hp : frameKey p ≠ 0) (hat : s.RefcacheAt p)
    (hsat : Along countStep (Unsaturated p) s ops) :
    s.total p + CountOp.netRefs p ops ≤ (exec countStep s ops).total p ∧
      ((exec countStep s ops).total p = s.total p + CountOp.netRefs p ops ↔
        Along countStep (Unclamped p) s ops) := by
  induction ops generalizing s with
  | nil =>
    have hnone : CountOp.netRefs p [] = 0 := rfl
    rw [hnone, add_zero]
    exact ⟨le_rfl, iff_of_true rfl trivial⟩
  | cons op ops ih =>
    have hmoves := countStep_moves hp hat hsat.1
    obtain ⟨hle, heq⟩ := ih hmoves.refcacheAt hsat.2
    have hstep := hmoves.total
    rw [exec_cons, along_cons, CountOp.netRefs_cons, ← heq, Unclamped]
    omega

theorem cachedDelta_flushes (hp : frameKey p ≠ 0) (hat : s.RefcacheAt p)
    (hsat : Along countStep (Unsaturated p) s (order.map .flush)) {c : Fin maxCpuSlots}
    (hc : c ∈ order ∨ (s.cpus c).cachedDelta p = 0) :
    ((exec countStep s (order.map .flush)).cpus c).cachedDelta p = 0 := by
  induction order generalizing s with
  | nil => exact hc.resolve_left not_mem_nil
  | cons d order ih =>
    rw [map_cons, exec_cons]
    have hmoves : Moves s (s.countStep (.flush d)) p d ((s.cpus d).cachedDelta p) 0 :=
      countStep_moves hp hat hsat.1
    apply ih hmoves.refcacheAt hsat.2
    by_cases hd : c = d
    · subst hd
      exact .inr (by rw [hmoves.cached, sub_self, add_zero])
    · rcases hc with hmem | hzero
      · exact .inl ((mem_cons.mp hmem).resolve_left hd)
      · exact .inr ((hmoves.others c hd).trans hzero)

def boot (table : FrameTable) : RefCache := ⟨table, fun _ => .new, 0, []⟩

/-- The frame has no entry, or a new one of the reference cache. -/
def FreshAt (table : FrameTable) (p : ℕ) : Prop :=
  ∀ e, table.entries (frameKey p) = some e → e.flags = .refcache ∧ e.refcount = 0

theorem FreshAt.refcount (h : FreshAt table p) : table.refcount p = 0 := by
  unfold FrameTable.refcount
  cases hk : table.entries (frameKey p) with
  | none => rfl
  | some e => exact (h e hk).2

theorem FreshAt.refcacheAt (h : FreshAt table p) : (boot table).RefcacheAt p :=
  fun e he => (h e he).1

theorem total_boot (h : FreshAt table p) : (boot table).total p = 0 := by
  have hcached : (boot table).cachedTotal p = 0 :=
    Finset.sum_eq_zero fun c _ => RefCacheCpuState.cachedDelta_new p
  have hcount : (boot table).table.refcount p = 0 := h.refcount
  rw [total, hcached, hcount]
  rfl

theorem refcount_flushed_iff (hp : frameKey p ≠ 0) (hfresh : FreshAt table p)
    (hall : ∀ c, c ∈ order)
    (hsat : Along countStep (Unsaturated p) (boot table) (ops ++ order.map .flush)) :
    ((exec countStep (boot table) (ops ++ order.map .flush)).table.refcount p : ℤ) =
        CountOp.netRefs p ops ↔
      Along countStep (Unclamped p) (boot table) (ops ++ order.map .flush) := by
  have htotal := (total_exec hp hfresh.refcacheAt hsat).2
  obtain ⟨hops, hflushes⟩ := (along_append _ ops _).mp hsat
  have hmid := refcacheAt_exec hp hfresh.refcacheAt hops
  have hcached : (exec countStep (boot table) (ops ++ order.map .flush)).cachedTotal p = 0 := by
    rw [exec_append]
    exact Finset.sum_eq_zero fun c _ => cachedDelta_flushes hp hmid hflushes (.inl (hall c))
  rw [total_boot hfresh, CountOp.netRefs_append, CountOp.netRefs_flushes, total, hcached, add_zero,
    zero_add, add_zero] at htotal
  exact htotal

/-- The empty slots of a cache look like slots of frame zero, whose deltas no operation moves. -/
theorem entries_evict_zero (hp : frameKey p = 0) (s : RefCache) (c : Fin maxCpuSlots)
    (slot : Fin refcacheSize) :
    (s.evict c slot).table.entries (frameKey p) = s.table.entries (frameKey p) := by
  by_cases hslot : ((s.cpus c).cache slot).phys = frameKey p
  · unfold evict
    rw [if_neg fun hold => hold.1 (hslot.trans hp)]
  · exact entries_evict_of_ne hslot

theorem entries_flush_zero (hp : frameKey p = 0) (s : RefCache) (c : Fin maxCpuSlots) :
    (s.flush c).table.entries (frameKey p) = s.table.entries (frameKey p) := by
  unfold flush
  induction List.finRange refcacheSize generalizing s with
  | nil => rfl
  | cons slot slots ih =>
    rw [foldl_cons, ih]
    unfold flushSlot
    split_ifs
    · rfl
    · exact entries_evict_zero hp s c slot

theorem entries_countStep_zero (hp : frameKey p = 0) (s : RefCache) (op : CountOp) :
    (s.countStep op).table.entries (frameKey p) = s.table.entries (frameKey p) := by
  cases op with
  | inc cpu phys | dec cpu phys =>
    show (s.adjust cpu phys _ _).table.entries _ = _
    unfold adjust
    dsimp only
    split_ifs
    · rfl
    · exact entries_evict_zero hp s cpu _
  | flush cpu =>
    rw [countStep]
    exact entries_flush_zero hp s cpu

theorem refcount_exec_zero (hp : frameKey p = 0) (s : RefCache) (ops : List CountOp) :
    (exec countStep s ops).table.refcount p = s.table.refcount p := by
  induction ops generalizing s with
  | nil => rfl
  | cons op ops ih =>
    rw [exec_cons, ih]
    exact refcount_congr (entries_countStep_zero hp s op)

end Runs

section Short

def load (p : ℕ) (s : RefCache) : ℕ :=
  s.table.refcount p + ∑ c, ((s.cpus c).cachedDelta p).natAbs

theorem natAbs_cachedDelta_le_load (p : ℕ) (s : RefCache) (c : Fin maxCpuSlots) :
    s.table.refcount p + ((s.cpus c).cachedDelta p).natAbs ≤ s.load p := by
  have hsplit := Finset.add_sum_erase Finset.univ
    (fun c => ((s.cpus c).cachedDelta p).natAbs) (Finset.mem_univ c)
  unfold load
  omega

theorem moved_eq (p : ℕ) (s : RefCache) (op : CountOp) :
    s.moved p op = 0 ∨ s.moved p op = (s.cpus op.cpu).cachedDelta p := by
  cases op with
  | inc cpu phys | dec cpu phys => exact (ite_eq_or_eq _ _ _).symm
  | flush cpu => exact .inr rfl

theorem Moves.load_le {c : Fin maxCpuSlots} {d net : ℤ} (h : Moves s s' p c d net)
    (hd : d = 0 ∨ d = (s.cpus c).cachedDelta p) : s'.load p ≤ s.load p + net.natAbs := by
  have hsplit (f : Fin maxCpuSlots → ℕ) := Finset.add_sum_erase Finset.univ f (Finset.mem_univ c)
  have hothers : ∑ c' ∈ Finset.univ.erase c, ((s'.cpus c').cachedDelta p).natAbs =
      ∑ c' ∈ Finset.univ.erase c, ((s.cpus c').cachedDelta p).natAbs :=
    Finset.sum_congr rfl fun c' hc' => by rw [h.others c' (Finset.ne_of_mem_erase hc')]
  have hbefore := hsplit fun c' => ((s.cpus c').cachedDelta p).natAbs
  have hafter := hsplit fun c' => ((s'.cpus c').cachedDelta p).natAbs
  have hcached := h.cached
  have hcount := h.refcount
  unfold load
  omega

theorem unsaturated_of_load (hp : frameKey p ≠ 0) (hat : s.RefcacheAt p) {ops : List CountOp}
    (hload : s.load p + ops.length < i32Max) : Along countStep (Unsaturated p) s ops := by
  induction ops generalizing s with
  | nil => trivial
  | cons op ops ih =>
    rw [length_cons] at hload
    have hsat : Unsaturated p s op := by
      have hmax : i32Max < u32Max := by decide
      have hmin : i32Min < -i32Max := by decide
      refine ⟨fun c => ?_, ?_⟩
      · have hle := natAbs_cachedDelta_le_load p s c
        omega
      · have hle := natAbs_cachedDelta_le_load p s op.cpu
        rcases moved_eq p s op with hmoved | hmoved <;> rw [hmoved] <;> omega
    have hmoves := countStep_moves hp hat hsat
    have hle := hmoves.load_le (moved_eq p s op)
    have hnet : (op.net p).natAbs ≤ 1 := by
      unfold CountOp.net
      split_ifs <;> decide
    exact ⟨hsat, ih hmoves.refcacheAt (by omega)⟩

/-- Flushing clamps nothing when no CPU caches more `dec`s than `inc`s of the frame. -/
theorem unclamped_flushes (hp : frameKey p ≠ 0) (hat : s.RefcacheAt p)
    {order : List (Fin maxCpuSlots)} (hsat : Along countStep (Unsaturated p) s (order.map .flush))
    (hnonneg : ∀ c, 0 ≤ (s.cpus c).cachedDelta p) :
    Along countStep (Unclamped p) s (order.map .flush) := by
  induction order generalizing s with
  | nil => trivial
  | cons d order ih =>
    have hmoves : Moves s (s.countStep (.flush d)) p d ((s.cpus d).cachedDelta p) 0 :=
      countStep_moves hp hat hsat.1
    refine ⟨Int.add_nonneg (Int.natCast_nonneg _) (hnonneg d), ih hmoves.refcacheAt hsat.2 ?_⟩
    intro c
    by_cases hc : c = d
    · rw [hc, hmoves.cached]
      omega
    · rw [hmoves.others c hc]
      exact hnonneg c

theorem FreshAt.unsaturated {table : FrameTable} {ops : List CountOp} (h : FreshAt table p)
    (hp : frameKey p ≠ 0) (hfew : ops.length < i32Max) :
    Along countStep (Unsaturated p) (boot table) ops := by
  apply unsaturated_of_load hp h.refcacheAt
  have hcount : (boot table).table.refcount p = 0 := h.refcount
  have hcached : ∑ c, (((boot table).cpus c).cachedDelta p).natAbs = 0 :=
    Finset.sum_eq_zero fun c _ => congrArg Int.natAbs (RefCacheCpuState.cachedDelta_new p)
  rw [load, hcount, hcached]
  omega

end Short

/-- Once every CPU has flushed, the count of a frame is the number of its `inc`s minus that of
its `dec`s if and only if no operation moves a negative delta that the count does not cover.
The deltas of frame zero are never moved. -/
theorem refcount_after_flushes_iff (table : FrameTable) (p : ℕ) (hfresh : FreshAt table p)
    (ops : List CountOp) (order : List (Fin maxCpuSlots)) (hall : ∀ c, c ∈ order) :
    (frameKey p ≠ 0 →
      Along countStep (Unsaturated p) (boot table) (ops ++ order.map .flush) →
      (((exec countStep (boot table) (ops ++ order.map .flush)).table.refcount p : ℤ) =
          CountOp.netRefs p ops ↔
        Along countStep (Unclamped p) (boot table) (ops ++ order.map .flush))) ∧
    (frameKey p = 0 →
      (((exec countStep (boot table) (ops ++ order.map .flush)).table.refcount p : ℤ) =
          CountOp.netRefs p ops ↔
        CountOp.netRefs p ops = 0)) := by
  refine ⟨fun hp hsat => refcount_flushed_iff hp hfresh hall hsat, fun hp => ?_⟩
  have hboot : (boot table).table.refcount p = 0 := hfresh.refcount
  rw [refcount_exec_zero hp, hboot]
  exact eq_comm

instance (p : ℕ) (s : RefCache) (op : CountOp) : Decidable (Unclamped p s op) :=
  inferInstanceAs (Decidable (0 ≤ _))

theorem freshAt_refcacheInit (p : ℕ) : FreshAt (FrameTable.new.refcacheInit p) p := by
  intro e he
  have hentry : (FrameTable.new.refcacheInit p).entries (frameKey p) =
      some ⟨.refcache, 0, 0⟩ := FrameTable.entries_insert_self _ _ _
  obtain rfl := Option.some.inj (hentry.symm.trans he)
  exact ⟨rfl, rfl⟩

/-- Two CPUs take a reference each, and one gives its own back. -/
theorem refcount_after_flushes_iff_two_cpus :
    let table := FrameTable.new.refcacheInit 0x1000
    let ops := [CountOp.inc (currentCpuSlot 0) 0x1000, .inc (currentCpuSlot 1) 0x1000,
      .dec (currentCpuSlot 0) 0x1000]
    let order := List.finRange maxCpuSlots
    FreshAt table 0x1000 ∧ (∀ c, c ∈ order) ∧
      ((exec countStep (boot table) (ops ++ order.map .flush)).table.refcount 0x1000 : ℤ) =
        CountOp.netRefs 0x1000 ops := by
  intro table ops order
  have hp : frameKey 0x1000 ≠ 0 := by decide
  have hfresh : FreshAt table 0x1000 := freshAt_refcacheInit 0x1000
  have hall : ∀ c, c ∈ order := mem_finRange
  have hsat : Along countStep (Unsaturated 0x1000) (boot table) (ops ++ order.map .flush) := by
    apply hfresh.unsaturated hp
    rw [length_append, length_map, length_finRange]
    decide
  obtain ⟨hops, hflushes⟩ := (along_append _ ops _).mp hsat
  have hnonneg : ∀ c, 0 ≤ ((exec countStep (boot table) ops).cpus c).cachedDelta 0x1000 := by
    decide +kernel
  refine ⟨hfresh, hall, ?_⟩
  refine ((refcount_after_flushes_iff table 0x1000 hfresh ops order hall).1 hp hsat).mpr ?_
  exact (along_append _ ops _).mpr ⟨by decide +kernel,
    unclamped_flushes hp (refcacheAt_exec hp hfresh.refcacheAt hops) hflushes hnonneg⟩

/-- One CPU takes a reference and another gives it back. If the other flushes first, its delta
is lost at zero, and a reference that nobody holds is left. -/
theorem refcount_after_crossed_flushes :
    let table := FrameTable.new.refcacheInit 0x1000
    let ops := [CountOp.inc (currentCpuSlot 0) 0x1000, .dec (currentCpuSlot 1) 0x1000]
    let order := currentCpuSlot 1 :: List.finRange maxCpuSlots
    FreshAt table 0x1000 ∧ (∀ c, c ∈ order) ∧ (∀ q n, 0 ≤ CountOp.netRefs q (ops.take n)) ∧
      CountOp.netRefs 0x1000 ops = 0 ∧
      (exec countStep (boot table) (ops ++ order.map .flush)).table.refcount 0x1000 ≠ 0 := by
  intro table ops order
  have hp : frameKey 0x1000 ≠ 0 := by decide
  have hfresh : FreshAt table 0x1000 := freshAt_refcacheInit 0x1000
  have hall : ∀ c, c ∈ order := fun c => mem_cons_of_mem _ (mem_finRange c)
  have hsat : Along countStep (Unsaturated 0x1000) (boot table) (ops ++ order.map .flush) := by
    apply hfresh.unsaturated hp
    simp only [order, length_append, length_map, length_cons, length_finRange]
    decide
  refine ⟨hfresh, hall, fun q n => ?_, by decide, fun hzero => ?_⟩
  · have hnil : CountOp.netRefs q [] = 0 := rfl
    match n with
    | 0 => exact le_rfl
    | 1 =>
      simp only [ops, take, CountOp.netRefs_cons, net_inc, hnil]
      split_ifs <;> decide
    | n + 2 =>
      simp only [ops, take, take_nil, CountOp.netRefs_cons, net_inc, net_dec, hnil]
      split_ifs <;> decide
  · have hunclamped := (refcount_flushed_iff hp hfresh hall hsat).mp (by rw [hzero]; rfl)
    have hflush := ((along_append _ ops _).mp hunclamped).2.1
    exact absurd hflush (by decide +kernel)

end RefCache

end EchOS.Memory
