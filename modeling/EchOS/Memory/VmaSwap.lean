import EchOS.Memory.VmaLock

/-! Unlocking and swapping in a VMA map: the new nodes take the place of the locked ones in
the chain, and nothing else of the chain changes. -/

namespace EchOS.Memory.VmaMap

open List Option LinkedList TaggedPtr

theorem mem_upper {height level : ℕ} :
    level ∈ (range height).tail.reverse ↔ 0 < level ∧ level < height := by
  cases height with
  | zero => simp
  | succ height =>
    rw [range_succ_eq_map, tail_cons, mem_reverse, List.mem_map]
    constructor
    · rintro ⟨i, hi, rfl⟩
      have := mem_range.mp hi
      omega
    · rintro ⟨hpos, hlt⟩
      exact ⟨level - 1, mem_range.mpr (by omega), by omega⟩

theorem writes_markDeleted (m : VmaMap) (x : NodeId) :
    Writes (fun y i => y = x ∧ 0 < i) m (m.markDeleted x) :=
  Writes.foldl (fun _ hl m => Writes.store ⟨rfl, (mem_upper.mp hl).1⟩ m _) m

theorem sameTally_store (m : VmaMap) (x : NodeId) (i : ℕ) (ptr : TaggedPtr) :
    SameTally m (m.store x i ptr) := ⟨rfl, rfl⟩

theorem sameTally_markDeleted (m : VmaMap) (x : NodeId) : SameTally m (m.markDeleted x) :=
  foldlRecOn _ _ (SameTally.refl m) fun m' h level _ =>
    h.trans (sameTally_store m' x level _)

theorem nextPtr_markDeleted (m : VmaMap) (x y : NodeId) (i : ℕ) :
    (m.markDeleted x).nextPtr y i = m.nextPtr y i := by
  refine foldlRecOn (motive := fun m' : VmaMap => m'.nextPtr y i = m.nextPtr y i) _ _ rfl
    fun m' h level _ => ?_
  rw [← h]
  simp only [nextPtr, load_store]
  split_ifs with heq
  · rw [heq.1, heq.2]
  · rfl

/-- The nodes of a level above 0 in order, and the nodes whose pointers may carry a flag. -/
structure Upper (m : VmaMap) (level : ℕ) (ids dirty : List NodeId) : Prop where
  links : Seg (m.nextPtr · level) (some head) (head :: ids) none
  clean : ∀ x ∈ head :: ids, x ∉ dirty → (m.load x level).flag = 0

variable {m m' : VmaMap} {ids locked ids' : List NodeId}

theorem Upper.writes {S : NodeId → ℕ → Prop} {level : ℕ}
    {dirty : List NodeId} (h : Upper m level ids dirty) (hw : Writes S m m')
    (hS : ∀ x ∈ head :: ids, ¬ S x level) : Upper m' level ids dirty where
  links := h.links.congr fun x hx => congrArg node (hw.kept x level (hS x hx))
  clean x hx hdirty := by
    rw [hw.kept x level (hS x hx)]
    exact h.clean x hx hdirty

variable {behind earlier new old rest : List NodeId} {pred x y : NodeId} {i : ℕ}
  {levels : ℕ → List NodeId}

theorem sides_of_nodup (h : (earlier ++ pred :: (old ++ behind)).Nodup) :
    (∀ y ∈ earlier ++ behind, y ∉ pred :: old) ∧ pred ∉ old := by
  have hperm := perm_append_comm_assoc earlier (pred :: old) behind
  have hall := hperm.nodup_iff.mp (by simpa using h)
  obtain ⟨hcentre, -, hdisj⟩ := nodup_append.mp hall
  exact ⟨fun y hy hold => hdisj y hold y hy rfl, (nodup_cons.mp hcentre).1⟩

theorem filter_ne_of_not_mem {node : NodeId} (h : node ∉ ids) : ids.filter (· ≠ node) = ids := by
  refine filter_eq_self.mpr fun x hx => ?_
  have hne : x ≠ node := fun heq => h (heq ▸ hx)
  simpa using hne

section

variable {m : VmaMap} {node : NodeId} {level : ℕ} {ids : List NodeId} {rounds : ℕ}

theorem unlinkStep_pass {x y : NodeId} (hnext : m.nextPtr x level = some y) (hy : y ≠ node) :
    unlinkStep node level (m, x) = some (.inl (m, y)) := by
  have hnext : (m.load x level).node = some y := hnext
  simp [unlinkStep, hnext, hy]

theorem run_unlinkStep_absent {x : NodeId}
    (hseg : Seg (m.nextPtr · level) (some x) (x :: ids) none) (hnode : node ∉ ids)
    (hr : ids.length < rounds) : Loop.run (unlinkStep node level) rounds (m, x) = some m := by
  rw [← append_nil ids] at hseg
  have hlast : (m.load (ids.getLastD x) level).node = none := hseg.from_last.2
  exact hseg.run_walk (f := fun x => (m, x))
    (fun y _ z hz hnext => unlinkStep_pass hnext fun h => hnode (h ▸ hz))
    (by simp only [unlinkStep, hlast]) hr

theorem run_unlinkStep_present {x : NodeId} {earlier later : List NodeId}
    (hseg : Seg (m.nextPtr · level) (some x) (x :: (earlier ++ node :: later)) none)
    (hnode : node ∉ earlier) (hr : earlier.length < rounds) :
    Loop.run (unlinkStep node level) rounds (m, x) =
      some (m.store (earlier.getLastD x) level (.clean later.head?)) := by
  refine hseg.run_walk (f := fun x => (m, x))
    (fun y _ z hz hnext => unlinkStep_pass hnext fun h => hnode (h ▸ hz)) ?_ hr
  obtain ⟨-, hnext, hrest⟩ := hseg.from_last
  generalize earlier.getLastD x = last at hnext ⊢
  have hnext : (m.load last level).node = some node := hnext
  have hbehind := hrest.head_eq.trans or_none
  have hcas : m.casNext last level (m.load last level) (.clean later.head?) =
      (true, m.store last level (.clean later.head?)) := if_pos rfl
  simp [unlinkStep, hnext, hbehind, hcas]

variable {dirty : List NodeId} {levels : ℕ → List NodeId}

theorem unlinkLevel_spec (h : Upper m level ids dirty)
    (hnodup : (head :: ids).Nodup) (hlen : ids.length < m.rounds) (node : NodeId) :
    ∃ m', Loop.run (unlinkStep node level) m.rounds (m, head) = some m' ∧
      Writes (fun _ i => i = level) m m' ∧ SameTally m m' ∧
      Upper m' level (ids.filter (· ≠ node)) dirty := by
  by_cases hnode : node ∈ ids
  · obtain ⟨earlier, later, rfl⟩ := append_of_mem hnode
    have hsides := (nodup_cons.mp hnodup).2
    rw [nodup_append] at hsides
    obtain ⟨-, hlater, hcross⟩ := hsides
    have hearlier : node ∉ earlier := fun hin => hcross node hin node mem_cons_self rfl
    have hlater : node ∉ later := (nodup_cons.mp hlater).1
    have hfilter : (earlier ++ node :: later).filter (· ≠ node) = earlier ++ later := by
      rw [filter_append, filter_cons_of_neg (by simp),
        filter_ne_of_not_mem hearlier, filter_ne_of_not_mem hlater]
    have hrun := run_unlinkStep_present h.links hearlier
      (Nat.lt_of_le_of_lt (by simp) hlen : earlier.length < m.rounds)
    obtain ⟨first, hsplit⟩ := exists_split_getLastD head earlier
    generalize earlier.getLastD head = last at hrun hsplit
    rw [hfilter]
    refine ⟨_, hrun, Writes.store (S := fun _ i => i = level) rfl m _, ⟨rfl, rfl⟩, ?_,
      fun x hx hdirty => ?_⟩
    · -- the node before it is the last of the first part
      have hseg : Seg (m.nextPtr · level) (some head)
          (first ++ last :: ([node] ++ later)) none := by
        rw [← hsplit]
        exact h.links
      have hnodup' : (first ++ last :: ([node] ++ later)).Nodup := by
        rw [← hsplit]
        exact hnodup
      obtain ⟨hsides, -⟩ := sides_of_nodup hnodup'
      have hkept : ∀ x ∈ first ++ later,
          (m.store last level (.clean later.head?)).nextPtr x level = m.nextPtr x level := by
        intro x hx
        have hne : x ≠ last := fun heq => hsides x hx (heq ▸ mem_cons_self)
        rw [nextPtr, load_store, if_neg fun heq => hne heq.1]
        rfl
      rw [hsplit, ← nil_append later]
      refine hseg.splice (fun x hx => hkept x (mem_append_left _ hx))
        (fun x hx => hkept x (mem_append_right _ hx)) ?_
      simp [nextPtr, Seg, clean]
    · rw [load_store]
      split_ifs
      · rfl
      · refine h.clean x ?_ hdirty
        simp only [mem_cons, mem_append] at hx ⊢
        tauto
  · rw [filter_ne_of_not_mem hnode]
    exact ⟨m, run_unlinkStep_absent h.links hnode hlen, Writes.refl _ m, SameTally.refl m, h⟩

structure Uppers (m : VmaMap) (levels : ℕ → List NodeId) (dirty : List NodeId) : Prop where
  upper : ∀ i, 0 < i → Upper m i (levels i) dirty
  nodup : ∀ i, (head :: levels i).Nodup
  length_lt : ∀ i, (levels i).length < m.rounds
  towers : ∀ i, 0 < i → ∀ x ∈ levels i, i < (m.nodes x).height

/-- An operation on the levels above 0 that leaves the nodes of each with the given property. -/
def Filters (m m' : VmaMap) (levels : ℕ → List NodeId) (dirty : List NodeId)
    (keep : ℕ → NodeId → Bool) : Prop :=
  Writes (fun _ i => 0 < i) m m' ∧ SameTally m m' ∧
    Uppers m' (fun i => (levels i).filter (keep i)) dirty

theorem Uppers.filters {m' : VmaMap} (h : Uppers m levels dirty)
    (hw : Writes (fun _ i => 0 < i) m m') (htally : SameTally m m') {keep : ℕ → NodeId → Bool}
    (hupper : ∀ i, 0 < i → Upper m' i ((levels i).filter (keep i)) dirty) :
    Filters m m' levels dirty keep := by
  have hrounds : m'.rounds = m.rounds := congrArg (· + 1) hw.frame.fresh
  refine ⟨hw, htally, hupper, fun i => ?_, fun i => ?_, fun i hi x hx => ?_⟩
  · exact (h.nodup i).sublist (filter_sublist.cons_cons head)
  · rw [hrounds]
    exact Nat.lt_of_le_of_lt filter_sublist.length_le (h.length_lt i)
  · rw [hw.frame.tower]
    exact h.towers i hi x (mem_of_mem_filter hx)

theorem foldlM_filters {α : Type} {f : VmaMap → α → Option VmaMap} {keep : α → ℕ → NodeId → Bool}
    {as : List α} (hf : ∀ a ∈ as, ∀ {m : VmaMap} {levels : ℕ → List NodeId},
      Uppers m levels dirty → ∃ m', f m a = some m' ∧ Filters m m' levels dirty (keep a))
    (h : Uppers m levels dirty) :
    ∃ m', as.foldlM f m = some m' ∧
      Filters m m' levels dirty fun i x => as.all (keep · i x) := by
  induction as generalizing m levels with
  | nil =>
    refine ⟨m, rfl, h.filters (Writes.refl _ m) (SameTally.refl m) fun i hi => ?_⟩
    simpa using h.upper i hi
  | cons a as ih =>
    obtain ⟨m₁, hone, hw, htally, hupper⟩ := hf a mem_cons_self h
    obtain ⟨m₂, hfold, hw₂, htally₂, hupper₂⟩ :=
      ih (fun b hb => hf b (mem_cons_of_mem a hb)) hupper
    refine ⟨m₂, ?_, h.filters (hw.trans hw₂) (htally.trans htally₂) fun i hi => ?_⟩
    · rw [foldlM_cons, hone]
      exact hfold
    · have hresult := hupper₂.upper i hi
      rw [List.filter_filter] at hresult
      simpa only [all_cons, Bool.and_comm] using hresult

theorem unlinkStep_filters (h : Uppers m levels dirty) (node : NodeId) (level : ℕ)
    (hpos : 0 < level) :
    ∃ m', Loop.run (unlinkStep node level) m.rounds (m, head) = some m' ∧
      Filters m m' levels dirty fun i x => decide (i = level → x ≠ node) := by
  obtain ⟨m', hrun, hw, htally, hupper⟩ :=
    unlinkLevel_spec (h.upper level hpos) (h.nodup level) (h.length_lt level) node
  refine ⟨m', hrun, h.filters (hw.mono fun _ i hi => hi ▸ hpos) htally fun i hi => ?_⟩
  by_cases heq : i = level
  · simpa [heq] using hupper
  · simpa [heq] using (h.upper i hi).writes hw fun _ _ => heq

theorem unlinkLevels_spec (h : Uppers m levels dirty) (node : NodeId) :
    ∃ m', m.unlinkLevels node = some m' ∧
      Filters m m' levels dirty fun _ x => decide (x ≠ node) := by
  obtain ⟨m', hfold, hw, htally, hupper⟩ := foldlM_filters
    (fun level hl _ _ h => unlinkStep_filters h node level (mem_upper.mp hl).1) h
  refine ⟨m', hfold, h.filters hw htally fun i hi => ?_⟩
  rw [← filter_congr fun x hx => ?_]
  · exact hupper.upper i hi
  · rw [Bool.eq_iff_iff, List.all_eq_true, decide_eq_true_eq]
    refine ⟨fun hall hxn => ?_, fun hne level _ => decide_eq_true fun _ => hne⟩
    have hlevel := mem_upper.mpr ⟨hi, h.towers i hi node (hxn ▸ hx)⟩
    exact of_decide_eq_true (hall i hlevel) rfl hxn

theorem foldlM_unlinkLevels (h : Uppers m levels dirty) (old : List NodeId) :
    ∃ m', old.foldlM unlinkLevels m = some m' ∧
      Filters m m' levels dirty fun _ x => decide (x ∉ old) := by
  obtain ⟨m', hfold, hfilters⟩ :=
    foldlM_filters (fun node (_ : node ∈ old) _ _ h => unlinkLevels_spec h node) h
  refine ⟨m', hfold, ?_⟩
  have hall (x : NodeId) : (old.all fun node => decide (x ≠ node)) = decide (x ∉ old) := by
    rw [Bool.eq_iff_iff, List.all_eq_true, decide_eq_true_eq]
    exact ⟨fun hall hx => of_decide_eq_true (hall x hx) rfl,
      fun hx node hnode => decide_eq_true fun heq => hx (heq ▸ hnode)⟩
  simpa only [hall] using hfilters

end

theorem skip_eq {ptr : Option NodeId} (h : Seg m.succ ptr (old ++ behind) none) :
    m.skip 0 old.length ptr = behind.head? := by
  induction old generalizing ptr with
  | nil => exact h.head_eq.trans or_none
  | cons x old ih =>
    obtain ⟨rfl, h⟩ := h
    exact ih h

section

variable {P : VmaMap → Prop} {level : ℕ} {m : VmaMap}

section

variable (hstore : ∀ m, P m → ∀ y ∈ new, ∀ node, P (m.store y level (.clean node))) (h : P m)
include hstore h

theorem linkPairs_induction :
    P ((new.zip new.tail).foldl (fun m pair => if level < (m.nodes pair.2).height then
      m.store pair.1 level (.clean (some pair.2)) else m) m) := by
  refine foldlRecOn _ _ h fun m hm pair hp => ?_
  split_ifs
  · exact hstore m hm _ (of_mem_zip hp).1 _
  · exact hm

theorem wireLevel_induction (pred : NodeId) (oldCount : ℕ) :
    P (wireLevel pred oldCount new m level) := by
  have hpairs := linkPairs_induction hstore h
  unfold wireLevel
  cases hlast : new.getLast? with
  | none => exact hpairs
  | some last =>
    dsimp only
    split_ifs
    · exact hstore _ hpairs _ (mem_of_mem_getLast? (mem_def.mpr hlast)) _
    · exact hpairs

end

end

theorem writes_linkPairs (level : ℕ) (new : List NodeId) (m : VmaMap) :
    Writes (fun y i => y ∈ new ∧ i = level) m ((new.zip new.tail).foldl
      (fun m pair => if level < (m.nodes pair.2).height then
        m.store pair.1 level (.clean (some pair.2)) else m) m) :=
  linkPairs_induction (fun m' hm _ hy _ => hm.trans (Writes.store ⟨hy, rfl⟩ m' _)) (Writes.refl _ m)

theorem writes_wireLevel (pred : NodeId) (oldCount : ℕ) (new : List NodeId) (m : VmaMap)
    (level : ℕ) : Writes (fun y i => y ∈ new ∧ i = level) m (wireLevel pred oldCount new m level) :=
  wireLevel_induction (fun m' hm _ hy _ => hm.trans (Writes.store ⟨hy, rfl⟩ m' _))
    (Writes.refl _ m) pred oldCount

theorem seg_linkPairs (hnodup : (x :: rest).Nodup) (htall : ∀ y ∈ rest, 0 < (m.nodes y).height) :
    Seg (((x :: rest).zip rest).foldl
      (fun m pair => if 0 < (m.nodes pair.2).height then
        m.store pair.1 0 (.clean (some pair.2)) else m) m).succ
      (some x) (x :: rest).dropLast (some (rest.getLastD x)) := by
  induction rest generalizing x m with
  | nil => rfl
  | cons y rest ih =>
    have hy := htall y mem_cons_self
    rw [zip_cons_cons, foldl_cons, if_pos hy, getLastD_cons]
    have hx : x ∉ y :: rest := (nodup_cons.mp hnodup).1
    have hw := writes_linkPairs 0 (y :: rest) (m.store x 0 (.clean (some y)))
    refine ⟨rfl, ?_⟩
    have hsucc := hw.succ_eq (x := x) fun h => hx h.1
    have hstored : (m.store x 0 (.clean (some y))).succ x = some y := by
      simp [succ, nextPtr, clean]
    rw [tail_cons] at hsucc
    rw [hsucc, hstored]
    refine ih (nodup_cons.mp hnodup).2 fun z hz => ?_
    rw [(Frame.store m x 0 _).tower]
    exact htall z (mem_cons_of_mem y hz)

theorem seg_wireLevel (hlinks : Seg m.succ (m.succ pred) (old ++ behind) none)
    (hnodup : (x :: rest).Nodup) (htall : ∀ y ∈ x :: rest, 0 < (m.nodes y).height)
    (hpred : pred ∉ x :: rest) (hold : ∀ y ∈ old ++ behind, y ∉ x :: rest) :
    Seg (wireLevel pred old.length (x :: rest) m 0).succ (some x) (x :: rest)
      behind.head? := by
  obtain ⟨init, last, hinit⟩ : ∃ init last, x :: rest = init ++ [last] :=
    ⟨_, _, (dropLast_append_getLast (cons_ne_nil x rest)).symm⟩
  have hlast : (x :: rest).getLast? = some last := by rw [hinit, List.getLast?_concat]
  have hlastD : rest.getLastD x = last := by
    rw [List.getLast?_cons] at hlast
    simpa [getLastD_eq_getLast?] using hlast
  have hmem : last ∈ x :: rest := by simp [hinit]
  have hnotin : last ∉ init := by
    rw [hinit] at hnodup
    intro h
    exact (nodup_append.mp hnodup).2.2 last h last (mem_singleton.mpr rfl) rfl
  have hw := writes_linkPairs 0 (x :: rest) m
  have hpairs := seg_linkPairs hnodup fun y hy => htall y (mem_cons_of_mem x hy)
  unfold wireLevel
  rw [tail_cons] at hw ⊢
  rw [hlast]
  rw [hlastD, hinit, dropLast_concat, ← hinit] at hpairs
  generalize ((x :: rest).zip rest).foldl (fun m pair => if 0 < (m.nodes pair.2).height then
    m.store pair.1 0 (.clean (some pair.2)) else m) m = linked at hw hpairs ⊢
  have htallLast : 0 < (linked.nodes last).height := by
    rw [hw.frame.tower]
    exact htall last hmem
  have hskip : linked.skip 0 old.length (linked.nextPtr pred 0) = behind.head? := by
    have hlinks' : Seg linked.succ (linked.succ pred) (old ++ behind) none := by
      rw [hw.succ_eq fun h => hpred h.1]
      exact hlinks.congr fun y hy => hw.succ_eq fun h => hold y hy h.1
    exact skip_eq hlinks'
  simp only [htallLast, if_true, hskip]
  rw [hinit]
  refine seg_append.mpr ⟨some last, hpairs.congr fun y hy => ?_, rfl, ?_⟩
  · have hne : y ≠ last := fun h => hnotin (h ▸ hy)
    simp [succ, nextPtr, hne]
  · simp [succ, nextPtr, Seg, clean]

theorem one_le_maxNodeHeight (hx : 0 < (m.nodes x).height) (rest : List NodeId) :
    0 < m.maxNodeHeight (x :: rest) := by
  have hmono : ∀ (l : List NodeId) (h : ℕ),
      h ≤ l.foldl (fun h x => max h (m.nodes x).height) h := by
    intro l
    induction l with
    | nil => exact fun h => Nat.le_refl h
    | cons y l ih => exact fun h => Nat.le_trans (Nat.le_max_left _ _) (ih _)
  exact Nat.lt_of_lt_of_le (by simpa using hx) (hmono rest _)

theorem seg_wire (hlinks : Seg m.succ (m.succ pred) (old ++ behind) none)
    (hnodup : (x :: rest).Nodup) (htall : ∀ y ∈ x :: rest, 0 < (m.nodes y).height)
    (hpred : pred ∉ x :: rest) (hold : ∀ y ∈ old ++ behind, y ∉ x :: rest) {levels : ℕ}
    (hlevels : 0 < levels) :
    Seg ((range levels).foldl (wireLevel pred old.length (x :: rest)) m).succ
      (some x) (x :: rest) behind.head? := by
  obtain ⟨k, rfl⟩ := Nat.exists_eq_add_one.mpr hlevels
  rw [range_succ_eq_map]
  have hfirst := seg_wireLevel hlinks hnodup htall hpred hold
  have hupper : Writes (fun y i => y ∈ x :: rest ∧ 0 < i)
      (wireLevel pred old.length (x :: rest) m 0)
      ((map Nat.succ (range k)).foldl (wireLevel pred old.length (x :: rest))
        (wireLevel pred old.length (x :: rest) m 0)) := by
    refine Writes.foldl (fun level hl m => ?_) _
    obtain ⟨l, -, rfl⟩ := mem_map.mp hl
    refine (writes_wireLevel pred old.length (x :: rest) m _).mono fun y i h => ⟨h.1, ?_⟩
    rw [h.2]
    omega
  exact hfirst.congr fun y _ => hupper.succ_eq fun h => Nat.lt_irrefl 0 h.2

theorem Writes.setLen (S : NodeId → ℕ → Prop) (m : VmaMap) (len : BitVec 64) :
    Writes S m { m with len := len } :=
  ⟨⟨fun _ => rfl, fun _ => rfl, fun _ => rfl, fun _ => rfl, rfl, rfl⟩, fun _ _ _ => rfl⟩

theorem commit_tally (m : VmaMap) (pred : NodeId) (oldCount : ℕ) (new : List NodeId) :
    (m.commit pred oldCount new).len = m.len - oldCount + new.length ∧
      (m.commit pred oldCount new).retired = m.retired := by
  cases new with
  | nil => exact ⟨(BitVec.add_zero _).symm, rfl⟩
  | cons x rest =>
    obtain ⟨hlen, hretired⟩ : SameTally m ((range (m.maxNodeHeight (x :: rest))).foldl
        (wireLevel pred oldCount (x :: rest)) m) :=
      foldlRecOn _ _ (SameTally.refl m) fun _ h level _ => wireLevel_induction
        (fun m' h y _ _ => h.trans (sameTally_store m' y level _)) h pred oldCount
    unfold commit
    generalize (range (m.maxNodeHeight (x :: rest))).foldl
      (wireLevel pred oldCount (x :: rest)) m = wired at hlen hretired ⊢
    refine ⟨?_, hretired⟩
    change wired.len - oldCount + (x :: rest).length = _
    rw [hlen]

theorem commit_spec
    (hlinks : Seg m.succ (m.succ pred) (old ++ behind) none) (hnodup : new.Nodup)
    (htall : ∀ y ∈ new, 0 < (m.nodes y).height) (hclean : ∀ y ∈ new, (m.load y 0).flag = 0)
    (hpred : pred ∉ new) (hold : ∀ y ∈ old ++ behind, y ∉ new) :
    Writes (fun y i => y = pred ∧ i = 0 ∨ y ∈ new) m (m.commit pred old.length new) ∧
    Seg (m.commit pred old.length new).succ
      ((m.commit pred old.length new).succ pred) new behind.head? ∧
    ∀ y ∈ pred :: new, ((m.commit pred old.length new).load y 0).flag = 0 := by
  cases new with
  | nil =>
    refine ⟨(Writes.setLen _ m _).trans (Writes.store (.inl ⟨rfl, rfl⟩) _ _), ?_, ?_⟩
    · simp [commit, succ, nextPtr, Seg, clean]
      exact skip_eq hlinks
    · intro y hy
      obtain rfl := mem_singleton.mp hy
      simp [commit, clean]
  | cons x rest =>
    have hlevels := one_le_maxNodeHeight (htall x mem_cons_self) rest
    have hseg := seg_wire hlinks hnodup htall hpred hold hlevels
    have hwire := Writes.foldl (l := range (m.maxNodeHeight (x :: rest))) (fun level _ m =>
      (writes_wireLevel pred old.length (x :: rest) m level).mono fun _ _ h => h.1) m
    have hkept : ∀ y ∈ x :: rest, (((range (m.maxNodeHeight (x :: rest))).foldl
        (wireLevel pred old.length (x :: rest)) m).load y 0).flag = 0 := fun y hy =>
      foldlRecOn (motive := fun m : VmaMap => (m.load y 0).flag = 0) _ _ (hclean y hy)
        fun _ h level _ => wireLevel_induction (P := fun m => (m.load y 0).flag = 0)
          (fun _ h z _ node => by
            rw [load_store]
            split_ifs
            · rfl
            · exact h) h pred old.length
    unfold commit
    generalize (range (m.maxNodeHeight (x :: rest))).foldl
      (wireLevel pred old.length (x :: rest)) m = wired at hseg hwire hkept ⊢
    have hload : ∀ y ∈ x :: rest, ({ wired with
        len := wired.len - old.length + (x :: rest).length }.store pred 0
        (.clean (some x))).load y 0 = wired.load y 0 := by
      intro y hy
      have hne : ¬ (y = pred ∧ 0 = 0) := fun h => hpred (h.1 ▸ hy)
      rw [load_store, if_neg hne]
      rfl
    refine ⟨?_, ?_, ?_⟩
    · refine (hwire.mono fun y i h => .inr h).trans ?_
      exact (Writes.setLen _ wired _).trans (Writes.store (.inl ⟨rfl, rfl⟩) _ _)
    · have hfirst : ({ wired with len := wired.len - old.length + (x :: rest).length }.store pred 0
          (.clean (some x))).succ pred = some x := by
        simp [succ, nextPtr, clean]
      rw [hfirst]
      exact hseg.congr fun y hy => congrArg node (hload y hy)
    · rintro y (_ | ⟨_, hy⟩)
      · simp [clean]
      · rw [hload y hy]
        exact hkept y hy

theorem foldl_pushRetired (old : List NodeId) (m : VmaMap) :
    old.foldl pushRetired m = { m with retired := m.retired ++ old } := by
  induction old generalizing m with
  | nil => simp
  | cons x old ih =>
    rw [foldl_cons, ih]
    simp [pushRetired]

theorem nodup_replace (h : (earlier ++ pred :: (old ++ behind)).Nodup) (hnodup : new.Nodup)
    (hnew : ∀ y ∈ new, y ∉ earlier ++ pred :: (old ++ behind)) :
    (earlier ++ pred :: (new ++ behind)).Nodup := by
  have hsub := Sublist.append_left ((sublist_append_right old behind).cons_cons pred) earlier
  have hall : (new ++ (earlier ++ [pred] ++ behind)).Nodup := by
    refine nodup_append.mpr ⟨hnodup, by simpa using h.sublist hsub, fun y hy z hz heq => ?_⟩
    subst heq
    exact hnew y hy (hsub.subset (by simpa using hz))
  have hperm := perm_append_comm_assoc (earlier ++ [pred]) new behind
  simpa using hperm.nodup_iff.mpr hall

/-- The levels after a swap: level 0 is given, and the old nodes are on no other. -/
def swapLevels (levels : ℕ → List NodeId) (old ids : List NodeId) : ℕ → List NodeId
  | 0 => ids
  | i + 1 => (levels (i + 1)).filter (· ∉ old)

theorem swapLevels_of_pos (levels : ℕ → List NodeId) (old ids : List NodeId) (hi : 0 < i) :
    swapLevels levels old ids i = (levels i).filter (· ∉ old) := by
  obtain ⟨i, rfl⟩ := Nat.exists_eq_add_one.mpr hi
  rfl

theorem filter_sublist_replace (h : (earlier ++ pred :: (old ++ behind)).Nodup)
    (new : List NodeId) :
    ((earlier ++ pred :: (old ++ behind)).filter (· ∉ old)).Sublist
      (earlier ++ pred :: (new ++ behind)) := by
  obtain ⟨hsides, hpred⟩ := sides_of_nodup h
  have hkept : ∀ l : List NodeId, (∀ y ∈ l, y ∈ earlier ++ behind) →
      l.filter (· ∉ old) = l := by
    intro l hl
    refine filter_eq_self.mpr fun y hy => ?_
    have hy : y ∉ old := fun hold => hsides y (hl y hy) (mem_cons_of_mem pred hold)
    simpa using hy
  have hold : old.filter (· ∉ old) = [] := by
    refine filter_eq_nil_iff.mpr fun y hy => ?_
    simpa using hy
  rw [filter_append, filter_cons_of_pos (by simpa using hpred), filter_append,
    hkept earlier fun y hy => mem_append_left _ hy,
    hkept behind fun y hy => mem_append_right _ hy, hold]
  exact Sublist.append_left ((sublist_append_right new behind).cons_cons pred) earlier

theorem Leveled.replace (h : Leveled m levels locked)
    (hsplit : head :: levels 0 = earlier ++ pred :: (old ++ behind))
    (hsplit' : head :: ids' = earlier ++ pred :: (new ++ behind)) (hnodup : new.Nodup)
    (hnew : ∀ y ∈ new, y ∉ head :: levels 0 ∧ y < m.fresh) (hframe : Frame m m')
    (hhead : head ∉ old) (hunlocked : ∀ y ∈ earlier ++ behind, y ∉ locked)
    (hkept : ∀ y ∈ earlier ++ behind, m'.load y 0 = m.load y 0)
    (hupper : ∀ i, 0 < i → Upper m' i ((levels i).filter (· ∉ old)) [])
    (hseg : Seg m'.succ (m'.succ pred) new behind.head?)
    (hclean : ∀ y ∈ pred :: new, (m'.load y 0).flag = 0) :
    Leveled m' (swapLevels levels old ids') [] where
  threaded := by
    refine ⟨?_, ?_, fun y hy => ?_, by rw [hframe.height]; exact h.threaded.tall⟩
    · have hlinks := h.threaded.links
      rw [hsplit] at hlinks
      change Seg m'.succ (some head) (head :: ids') none
      rw [hsplit']
      exact hlinks.splice
        (fun y hy => congrArg node (hkept y (mem_append_left _ hy)))
        (fun y hy => congrArg node (hkept y (mem_append_right _ hy))) hseg
    · have hchain := h.threaded.nodup
      rw [hsplit] at hchain
      change (head :: ids').Nodup
      rw [hsplit']
      exact nodup_replace hchain hnodup fun y hy hin => (hnew y hy).1 (hsplit ▸ hin)
    · have hy : y ∈ head :: ids' := hy
      rw [hframe.fresh]
      by_cases hyn : y ∈ new
      · exact (hnew y hyn).2
      · refine h.threaded.allocated y ?_
        rw [hsplit'] at hy
        rw [hsplit]
        simp only [mem_append, mem_cons] at hy ⊢
        tauto
  flags y hy := by
    have hy : y ∈ head :: ids' := hy
    rw [hsplit'] at hy
    by_cases hcentre : y ∈ pred :: new
    · simpa using hclean y hcentre
    · have hside : y ∈ earlier ++ behind := by
        simp only [mem_append, mem_cons] at hy hcentre ⊢
        tauto
      have hin : y ∈ head :: levels 0 := by
        rw [hsplit]
        simp only [mem_append, mem_cons] at hside ⊢
        tauto
      have hflag := h.flags y hin
      rw [if_neg (hunlocked y hside)] at hflag
      simpa [hkept y hside] using hflag
  links i hi := by
    rw [swapLevels_of_pos levels old ids' hi]
    exact (hupper i hi).links
  clean i hi y hy := by
    rw [swapLevels_of_pos levels old ids' hi] at hy
    exact (hupper i hi).clean y hy (by simp)
  nested i := by
    have hfilter := (h.nested i).filter (fun x => decide (x ∉ old))
    cases i with
    | zero =>
      have hchain := h.threaded.nodup
      rw [hsplit] at hchain
      have hsub := filter_sublist_replace hchain new
      rw [← hsplit, ← hsplit', filter_cons_of_pos (by simpa using hhead)] at hsub
      exact hfilter.trans (cons_sublist_cons.mp hsub)
    | succ i => exact hfilter
  towers i hi y hy := by
    rw [swapLevels_of_pos levels old ids' hi] at hy
    rw [hframe.tower]
    exact h.towers i hi y (mem_of_mem_filter hy)

theorem unlinkOld_spec (h : Leveled m levels locked) (hhead : head ∉ old) :
    ∃ m', old.foldlM unlinkLevels (old.foldl markDeleted m) = some m' ∧
      Writes (fun _ i => 0 < i) m m' ∧ SameTally m m' ∧
      ∀ i, 0 < i → Upper m' i ((levels i).filter (· ∉ old)) [] := by
  have hw : Writes (fun y i => y ∈ old ∧ 0 < i) m (old.foldl markDeleted m) :=
    Writes.foldl (fun x hx m => (writes_markDeleted m x).mono fun y i hy => ⟨hy.1 ▸ hx, hy.2⟩) m
  have htally : SameTally m (old.foldl markDeleted m) := foldlRecOn _ _ (SameTally.refl m)
    fun m' hm x _ => hm.trans (sameTally_markDeleted m' x)
  have hlinks (y : NodeId) (i : ℕ) : (old.foldl markDeleted m).nextPtr y i = m.nextPtr y i :=
    foldlRecOn (motive := fun m' : VmaMap => m'.nextPtr y i = m.nextPtr y i) _ _ rfl
      fun m' hm x _ => (nextPtr_markDeleted m' x y i).trans hm
  generalize old.foldl markDeleted m = marked at hw htally hlinks ⊢
  have hrounds : marked.rounds = m.rounds := congrArg (· + 1) hw.frame.fresh
  have huppers : Uppers marked levels old := by
    refine ⟨fun i hi => ⟨(h.links i hi).congr fun y _ => hlinks y i, fun y hy hold => ?_⟩,
      h.nodup, fun i => ?_, fun i hi x hx => ?_⟩
    · rw [hw.kept y i fun hy => hold hy.1]
      exact h.clean i hi y hy
    · rw [hrounds]
      exact Nat.lt_succ_of_lt
        (Nat.lt_of_le_of_lt (h.sublist i).length_le h.threaded.length_lt)
    · rw [hw.frame.tower]
      exact h.towers i hi x hx
  obtain ⟨m', hfold, hw', htally', hupper'⟩ := foldlM_unlinkLevels huppers old
  refine ⟨m', hfold, (hw.mono fun _ _ hy => hy.2).trans hw', htally.trans htally', fun i hi => ?_⟩
  refine ⟨(hupper'.upper i hi).links, fun x hx _ => (hupper'.upper i hi).clean x hx ?_⟩
  rcases mem_cons.mp hx with rfl | hx
  · exact hhead
  · simpa using (mem_filter.mp hx).2

theorem swapInterval_spec (h : Leveled m levels (pred :: old))
    (hsplit : head :: levels 0 = earlier ++ pred :: (old ++ behind))
    (hsplit' : head :: ids' = earlier ++ pred :: (new ++ behind)) (hnodup : new.Nodup)
    (hnew : ∀ y ∈ new, y ∉ head :: levels 0 ∧ y < m.fresh ∧ 0 < (m.nodes y).height ∧
      (m.load y 0).flag = 0) :
    ∃ m', m.swapInterval ⟨pred, pred :: old⟩ new = some m' ∧ Frame m m' ∧
      Leveled m' (swapLevels levels old ids') [] ∧
      m'.len = m.len - old.length + new.length ∧ m'.retired = m.retired ++ old := by
  have hchain := h.threaded.nodup
  rw [hsplit] at hchain
  have hfresh : ∀ y ∈ earlier ++ pred :: (old ++ behind), y ∉ new :=
    fun y hy hyn => (hnew y hyn).1 (hsplit ▸ hy)
  obtain ⟨hsides, hpred⟩ := sides_of_nodup hchain
  have hhead : head ∉ old := by
    cases earlier with
    | nil => exact (cons.inj hsplit).1 ▸ hpred
    | cons e earlier =>
      obtain ⟨rfl, -⟩ := cons.inj hsplit
      exact fun h => hsides head (by simp) (mem_cons_of_mem pred h)
  obtain ⟨unlinked, hunlink, hw₁, htally₁, hupper₁⟩ := unlinkOld_spec h hhead
  have hlinks := h.threaded.links
  rw [hsplit] at hlinks
  obtain ⟨_, -, -, hrest⟩ := seg_append.mp hlinks
  have hsucc₁ : ∀ y, unlinked.succ y = m.succ y :=
    fun y => hw₁.succ_eq fun hy => Nat.lt_irrefl 0 hy
  have hrest₁ : Seg unlinked.succ (unlinked.succ pred) (old ++ behind) none := by
    rw [hsucc₁]
    exact hrest.congr fun y _ => hsucc₁ y
  obtain ⟨hw₂, hseg₂, hclean₂⟩ := commit_spec hrest₁ hnodup
    (fun y hy => by rw [hw₁.frame.tower]; exact (hnew y hy).2.2.1)
    (fun y hy => by rw [hw₁.kept y 0 fun hy => Nat.lt_irrefl 0 hy]; exact (hnew y hy).2.2.2)
    (hfresh pred (by simp)) (fun y hy => hfresh y (by simp_all))
  obtain ⟨hlen₂, hretired₂⟩ := commit_tally unlinked pred old.length new
  have hswap : m.swapInterval ⟨pred, pred :: old⟩ new = some (old.foldl pushRetired
      (old.foldl invalidate (unlinked.commit pred old.length new))) := by
    simp only [swapInterval, tail_cons, hunlink, bind_eq_bind, bind_some]
    rfl
  generalize (unlinked.commit pred old.length new) = committed at *
  have hw₃ : Writes (fun y i => y ∈ old ∧ i = 0) committed (old.foldl invalidate committed) :=
    Writes.foldl (fun x hx m => Writes.store ⟨hx, rfl⟩ m _) _
  have htally₃ : SameTally committed (old.foldl invalidate committed) :=
    foldlRecOn _ _ (SameTally.refl _) fun m h x _ => h.trans (sameTally_store m x 0 _)
  rw [foldl_pushRetired] at hswap
  generalize (old.foldl invalidate committed) = final at *
  have hframe : Frame m final := hw₁.frame.trans (hw₂.frame.trans hw₃.frame)
  have hkept₃ : ∀ y ∈ pred :: new, final.load y 0 = committed.load y 0 := by
    rintro y (_ | ⟨_, hy⟩)
    · exact hw₃.kept pred 0 fun h => hpred h.1
    · exact hw₃.kept y 0 fun h => hfresh y (by simp [h.1]) hy
  have hframe' : Frame m { final with retired := final.retired ++ old } :=
    ⟨hframe.start, hframe.stop, hframe.vma, hframe.tower, hframe.fresh, hframe.height⟩
  refine ⟨_, hswap, hframe', h.replace hsplit hsplit' hnodup
    (fun y hy => ⟨(hnew y hy).1, (hnew y hy).2.1⟩) hframe' hhead hsides ?_ ?_ ?_ ?_, ?_, ?_⟩
  · intro y hy
    have hside := hsides y hy
    have hyo : y ∉ old := fun h => hside (mem_cons_of_mem pred h)
    have hyp : y ≠ pred := fun h => hside (h ▸ mem_cons_self)
    have hyn : y ∉ new := by
      refine hfresh y ?_
      simp only [mem_append, mem_cons] at hy ⊢
      tauto
    calc final.load y 0 = committed.load y 0 := hw₃.kept y 0 fun h => hyo h.1
      _ = unlinked.load y 0 := hw₂.kept y 0 fun h => h.elim (fun h => hyp h.1) hyn
      _ = m.load y 0 := hw₁.kept y 0 fun h => Nat.lt_irrefl 0 h
  · -- the commit and the flags it leaves behind are on level 0 or on new nodes
    intro i hi
    have hmem : ∀ y ∈ head :: (levels i).filter (· ∉ old), y ∉ new := by
      intro y hy hyn
      refine (hnew y hyn).1 (((filter_sublist.trans (h.sublist i)).cons_cons head).subset hy)
    have hupper₂ := (hupper₁ i hi).writes hw₂ fun y hy hS =>
      hS.elim (fun h => Nat.ne_of_gt hi h.2) (hmem y hy)
    have hupper₃ := hupper₂.writes hw₃ fun y _ hS => Nat.ne_of_gt hi hS.2
    exact ⟨hupper₃.links, hupper₃.clean⟩
  · have hsucc : ∀ y ∈ pred :: new, final.succ y = committed.succ y :=
      fun y hy => congrArg node (hkept₃ y hy)
    change Seg final.succ (final.succ pred) new behind.head?
    rw [hsucc pred mem_cons_self]
    exact hseg₂.congr fun y hy => hsucc y (mem_cons_of_mem pred hy)
  · intro y hy
    exact (congrArg flag (hkept₃ y hy)).trans (hclean₂ y hy)
  · rw [htally₃.1, hlen₂, htally₁.1]
  · rw [htally₃.2, hretired₂, htally₁.2]

end EchOS.Memory.VmaMap
