import EchOS.Memory.VmaInsert

/-! Copying a VMA map. The copy gets its nodes one after the other at the end of the chain, and
links each of them on as many levels as it is high. -/

namespace EchOS.Memory.VmaMap

open List

def linkAt (ptr : NodeId) (preds : ℕ → NodeId) (m : VmaMap) (i : ℕ) : VmaMap :=
  (m.store ptr i (.clean (m.nextPtr (preds i) i))).store (preds i) i (.clean (some ptr))

def insertSkipMerge (s : VmaMap × BitVec 64) (vma : Vma) : Option (VmaMap × BitVec 64) :=
  if vma.stop ≤ vma.start then some s
  else do
    let preds ← s.1.findPreds vma.start
    let drawn := randomHeight s.2
    let allocated := s.1.alloc vma drawn.1
    let m := (List.range drawn.1).foldl (linkAt allocated.1 preds) allocated.2
    let m := if m.height < drawn.1 then { m with height := drawn.1 } else m
    return ({ m with len := m.len + 1 }, drawn.2)

def clone (m : VmaMap) (seed : BitVec 64) : Option VmaMap := do
  let vmas ← m.collectAll
  let (m, _) ← vmas.foldlM insertSkipMerge (new, seed)
  return m

namespace Leveled

variable {m : VmaMap} {levels : ℕ → List NodeId}

theorem upper (h : Leveled m levels []) (i : ℕ) : Upper m i (levels i) [] :=
  ⟨h.seg i, fun _ hx _ => h.flag_zero hx⟩

theorem eq_last (h : Leveled m levels []) {i : ℕ} {x : NodeId} (hx : x ∈ head :: levels i)
    (hnext : m.nextPtr x i = none) : x = (levels i).getLastD head := by
  obtain ⟨l, r, hsplit⟩ := append_of_mem hx
  have hseg := h.seg i
  rw [hsplit] at hseg
  have hr : r = [] := List.head?_eq_none_iff.mp (hseg.next_eq.symm.trans hnext)
  subst hr
  cases l with
  | nil =>
    obtain ⟨rfl, hlevel⟩ := cons.inj hsplit
    rw [hlevel]
    rfl
  | cons a l =>
    have hlevel : levels i = l ++ [x] := (cons.inj hsplit).2
    rw [hlevel, getLastD_concat]

theorem findPreds_last (h : Leveled m levels []) (ho : Ordered m (levels 0))
    (hheight : ∀ i, m.height ≤ i → levels i = []) {addr : ℕ}
    (haddr : ∀ x ∈ levels 0, (m.nodes x).start ≤ addr) :
    ∃ preds, m.findPreds addr = some preds ∧ ∀ i, preds i = (levels i).getLastD head := by
  obtain ⟨level, hlevel⟩ := Nat.exists_eq_add_one.mpr h.threaded.tall
  have hhead : Passed m (levels 0) addr level head := ⟨.head level, fun h => absurd rfl h⟩
  obtain ⟨preds, hpreds, hends, hkept⟩ :=
    findPredsBelow_spec h.threaded (h.forward ho) hhead fun _ => head
  refine ⟨preds, by rw [findPreds, hlevel, hpreds], fun i => ?_⟩
  by_cases hi : i ≤ level
  · obtain ⟨hend, hbehind⟩ := hends i hi
    have hmem := h.mem_of_reaches hend.reached
    refine h.eq_last hmem ?_
    cases hnext : m.nextPtr (preds i) i with
    | none => rfl
    | some y =>
      obtain ⟨hy, -⟩ := h.forward ho i _ y hend.reached hnext
      exact absurd (haddr y hy) (Nat.not_le.mpr (hbehind y hnext))
  · rw [hkept i (by omega), hheight i (by omega)]
    rfl

end Leveled

variable {m : VmaMap} {preds : ℕ → NodeId} {ptr : NodeId} {levels : ℕ → List NodeId}

theorem Upper.linkAt {i : ℕ} {ids : List NodeId} (h : Upper m i ids [])
    (hpreds : preds i = ids.getLastD head)
    (hnodup : (head :: ids).Nodup) (hptr : ptr ∉ head :: ids) :
    Upper (VmaMap.linkAt ptr preds m i) i (ids ++ [ptr]) [] := by
  obtain ⟨first, hsplit⟩ := LinkedList.exists_split_getLastD head ids
  rw [← hpreds] at hsplit
  have hfirst := hsplit []
  rw [append_nil] at hfirst
  have hlast : preds i ∈ head :: ids := by simp [hfirst]
  have hne : ptr ≠ preds i := fun heq => hptr (heq ▸ hlast)
  have hend : m.nextPtr (preds i) i = none := by
    have hseg := h.links
    rw [hfirst] at hseg
    exact hseg.next_eq
  have hload : ∀ x, (VmaMap.linkAt ptr preds m i).load x i =
      if x = preds i then .clean (some ptr) else if x = ptr then .clean none else m.load x i := by
    intro x
    simp [VmaMap.linkAt, hend]
  refine ⟨?_, fun x hx _ => ?_⟩
  · have hseg : LinkedList.Seg (m.nextPtr · i) (some head)
        (first ++ preds i :: ([] ++ [])) none := by
      have hlinks := h.links
      rwa [hfirst] at hlinks
    rw [hsplit, ← append_nil [ptr]]
    refine hseg.splice (fun x hx => ?_) (by simp) ?_
    · have hx' : x ∈ head :: ids := by simp [hfirst, hx]
      have hxp : x ≠ preds i := by
        rintro rfl
        rw [hfirst] at hnodup
        exact (nodup_append.mp hnodup).2.2 _ hx _ (mem_singleton.mpr rfl) rfl
      have hxptr : x ≠ ptr := fun heq => hptr (heq ▸ hx')
      simp only [nextPtr, hload, hxp, hxptr, if_false]
    · refine ⟨?_, ?_⟩
      · simp only [nextPtr, hload, if_true]
        rfl
      · simp only [nextPtr, hload, hne, if_true, if_false]
        rfl
  · rw [hload]
    split_ifs with hxp hxptr
    · rfl
    · rfl
    · refine h.clean x ?_ (by simp)
      simp only [mem_cons, mem_append, not_mem_nil, or_false] at hx ⊢
      tauto

def appendBelow (levels : ℕ → List NodeId) (height : ℕ) (ptr : NodeId) : ℕ → List NodeId :=
  fun i => if i < height then levels i ++ [ptr] else levels i

theorem foldl_linkAt
    (h : ∀ i, Upper m i (levels i) []) (hpreds : ∀ i, preds i = (levels i).getLastD head)
    (hnodup : ∀ i, (head :: levels i).Nodup) (hptr : ∀ i, ptr ∉ head :: levels i) (height : ℕ) :
    Frame m ((range height).foldl (linkAt ptr preds) m) ∧
      SameTally m ((range height).foldl (linkAt ptr preds) m) ∧
      ∀ i, Upper ((range height).foldl (linkAt ptr preds) m) i
        (appendBelow levels height ptr i) [] := by
  induction height with
  | zero => exact ⟨Frame.refl m, SameTally.refl m, fun i => by simpa [appendBelow] using h i⟩
  | succ height ih =>
    obtain ⟨hframe, htally, hupper⟩ := ih
    rw [range_succ, foldl_append]
    generalize (range height).foldl (linkAt ptr preds) m = m₁ at hframe htally hupper ⊢
    have hw : Writes (fun _ i => i = height) m₁ (linkAt ptr preds m₁ height) :=
      (Writes.store (S := fun _ i => i = height) rfl m₁ _).trans
        (Writes.store (S := fun _ i => i = height) rfl _ _)
    refine ⟨hframe.trans hw.frame, htally.trans ⟨rfl, rfl⟩, fun i => ?_⟩
    rcases Nat.lt_trichotomy i height with hlt | rfl | hgt
    · have hi := (hupper i).writes hw fun _ _ => Nat.ne_of_lt hlt
      simpa [appendBelow, hlt, Nat.lt_succ_of_lt hlt] using hi
    · have hlevel : Upper m₁ i (levels i) [] := by simpa [appendBelow] using hupper i
      simpa [appendBelow] using hlevel.linkAt (hpreds i) (hnodup i) (hptr i)
    · have hi := (hupper i).writes hw fun _ _ => Nat.ne_of_gt hgt
      have h₁ : ¬ i < height := by omega
      have h₂ : ¬ i < height + 1 := by omega
      simpa [appendBelow, h₁, h₂] using hi

theorem nested_appendBelow
    (h : ∀ i, (levels (i + 1)).Sublist (levels i)) (height : ℕ) (ptr : NodeId) (i : ℕ) :
    (appendBelow levels height ptr (i + 1)).Sublist (appendBelow levels height ptr i) := by
  unfold appendBelow
  split_ifs with h₁ h₂ h₂
  · exact (h i).append_right [ptr]
  · omega
  · exact (h i).trans (sublist_append_left _ _)
  · exact h i

theorem Leveled.append {m' : VmaMap} {height : ℕ} (h : Leveled m levels []) (hpos : 0 < height)
    (hupper : ∀ i, Upper m' i (appendBelow levels height m.fresh i) [])
    (hfresh : m'.fresh = m.fresh + 1) (htall : 1 ≤ m'.height)
    (htowers : ∀ x < m.fresh, (m'.nodes x).height = (m.nodes x).height)
    (hnew : (m'.nodes m.fresh).height = height) :
    Leveled m' (appendBelow levels height m.fresh) [] := by
  have hzero : appendBelow levels height m.fresh 0 = levels 0 ++ [m.fresh] := if_pos hpos
  refine ⟨⟨(hupper 0).links, ?_, ?_, htall⟩,
    fun x hx => by simpa using (hupper 0).clean x hx (by simp),
    fun i _ => (hupper i).links, fun i _ x hx => (hupper i).clean x hx (by simp),
    nested_appendBelow h.nested height m.fresh, ?_⟩
  · rw [hzero]
    refine nodup_append.mpr ⟨h.threaded.nodup, nodup_singleton _, ?_⟩
    intro x hx y hy heq
    obtain rfl := mem_singleton.mp hy
    exact Nat.lt_irrefl _ (heq ▸ h.lt_fresh hx)
  · rw [hzero, hfresh, ← cons_append]
    intro x hx
    rcases mem_append.mp hx with hx | hx
    · exact Nat.lt_succ_of_lt (h.threaded.allocated x hx)
    · exact mem_singleton.mp hx ▸ Nat.lt_succ_self m.fresh
  · intro i hi x hx
    have hkept : x ∈ levels i → i < (m'.nodes x).height := by
      intro hx
      rw [htowers x (h.lt_fresh (mem_cons_of_mem head hx))]
      exact h.towers i hi x hx
    unfold appendBelow at hx
    split_ifs at hx with hih
    · rcases mem_append.mp hx with hx | hx
      · exact hkept hx
      · rw [mem_singleton.mp hx, hnew]
        exact hih
    · exact hkept hx

/-- A map under construction: settled, nothing retired, nothing above its height. -/
structure Copied (m : VmaMap) (levels : ℕ → List NodeId) : Prop where
  settled : Settled m levels
  retired : m.retired = []
  low : ∀ i, m.height ≤ i → levels i = []

theorem Copied.insertSkipMerge (h : Copied m levels) {vma : Vma} (hlt : vma.start < vma.stop)
    (hbehind : ∀ v ∈ m.vmas (levels 0), v.stop ≤ vma.start) (seed : BitVec 64) :
    ∃ m' levels' seed', VmaMap.insertSkipMerge (m, seed) vma = some (m', seed') ∧
      Copied m' levels' ∧ m'.vmas (levels' 0) = m.vmas (levels 0) ++ [vma] := by
  have hleveled := h.settled.sound.leveled
  have hordered := h.settled.ordered
  have hstops : ∀ x ∈ levels 0, (m.nodes x).stop ≤ vma.start := by
    intro x hx
    rw [hordered.stop_eq x hx]
    exact hbehind _ (mem_map_of_mem hx)
  obtain ⟨preds, hpreds, hlast⟩ := hleveled.findPreds_last hordered h.low fun x hx =>
    Nat.le_trans (Nat.le_of_lt (hordered.nonempty x hx)) (hstops x hx)
  have hpos := randomHeight_pos seed
  unfold VmaMap.insertSkipMerge
  rw [if_neg (Nat.not_le.mpr hlt), hpreds, Option.bind_eq_bind, Option.bind_some]
  generalize randomHeight seed = drawn at hpos ⊢
  obtain ⟨height, seed'⟩ := drawn
  dsimp only at hpos ⊢
  have hgrown := Grown.alloc m vma height
  have hnode := alloc_node m vma height
  have hfresh : (m.alloc vma height).2.fresh = m.fresh + 1 := rfl
  have hfirst : (m.alloc vma height).1 = m.fresh := rfl
  have hheight : (m.alloc vma height).2.height = m.height := rfl
  generalize m.alloc vma height = allocated at hgrown hnode hfresh hfirst hheight ⊢
  obtain ⟨ptr, m₁⟩ := allocated
  obtain rfl : ptr = m.fresh := hfirst
  have hptr : ∀ i, m.fresh ∉ head :: levels i :=
    fun i hin => Nat.lt_irrefl _ (hleveled.lt_fresh hin)
  obtain ⟨hframe, htally, hupper⟩ := foldl_linkAt (hleveled.grown hgrown).upper hlast
    hleveled.nodup hptr height
  generalize (range height).foldl (linkAt m.fresh preds) m₁ = m₂ at hframe htally hupper ⊢
  -- the height and the number of VMAs are set last
  obtain ⟨m₃, hm₃, hnodes, hfresh₃, hlen, hretired, hheight₃⟩ : ∃ m₃ : VmaMap,
      { (if m₂.height < height then { m₂ with height := height } else m₂) with
        len := (if m₂.height < height then { m₂ with height := height } else m₂).len + 1 } = m₃ ∧
      m₃.nodes = m₂.nodes ∧ m₃.fresh = m₂.fresh ∧ m₃.len = m₂.len + 1 ∧
      m₃.retired = m₂.retired ∧ m₃.height = max m₂.height height := by
    refine ⟨_, rfl, ?_⟩
    split_ifs with hlt
    · exact ⟨rfl, rfl, rfl, rfl, (Nat.max_eq_right (Nat.le_of_lt hlt)).symm⟩
    · exact ⟨rfl, rfl, rfl, rfl, (Nat.max_eq_left (Nat.not_lt.mp hlt)).symm⟩
  rw [hm₃]
  have hzero : appendBelow levels height m.fresh 0 = levels 0 ++ [m.fresh] := if_pos hpos
  have hold : ∀ x ∈ levels 0, x < m.fresh :=
    fun x hx => hleveled.lt_fresh (mem_cons_of_mem head hx)
  have hext : Extends m m₃ := by
    have hext₂ := hgrown.toExtends.trans hframe.extends
    exact ⟨hnodes ▸ hext₂.start, hnodes ▸ hext₂.stop, hnodes ▸ hext₂.vma, hfresh₃ ▸ hext₂.fresh⟩
  have hnew : (m₃.nodes m.fresh).start = vma.start ∧ (m₃.nodes m.fresh).stop = vma.stop ∧
      (m₃.nodes m.fresh).vma = vma ∧ (m₃.nodes m.fresh).height = height := by
    rw [hnodes, hframe.start, hframe.stop, hframe.vma, hframe.tower, hnode]
    exact ⟨rfl, rfl, rfl, rfl⟩
  have hload : ∀ x i, m₃.load x i = m₂.load x i := fun x i => by rw [load, load, hnodes]
  have hupper₃ : ∀ i, Upper m₃ i (appendBelow levels height m.fresh i) [] := fun i =>
    ⟨(hupper i).links.congr fun x _ => congrArg TaggedPtr.node (hload x i),
      fun x hx hd => (congrArg TaggedPtr.flag (hload x i)).trans ((hupper i).clean x hx hd)⟩
  have hlt₃ : m₃.fresh = m.fresh + 1 := by rw [hfresh₃, hframe.fresh, hfresh]
  have hleveled₃ : Leveled m₃ (appendBelow levels height m.fresh) [] := by
    refine hleveled.append hpos hupper₃ hlt₃ ?_ (fun x hx => ?_) hnew.2.2.2
    · rw [hheight₃]
      exact Nat.le_trans hpos (Nat.le_max_right _ _)
    · rw [hnodes, hframe.tower, hgrown.nodes x hx]
  have hordered₃ : Ordered m₃ (levels 0 ++ [m.fresh]) := by
    have hkept : Ordered m₃ (levels 0 ++ []) := by
      rw [append_nil]
      exact hordered.extends hext hold
    refine hkept.insertNode (by rw [hnew.1, hnew.2.2.1]) (by rw [hnew.2.1, hnew.2.2.1])
      (by rw [hnew.1, hnew.2.1]; exact hlt) (fun y hy => ?_) (fun y hy => absurd hy not_mem_nil)
    rw [hnew.1, hext.stop y (hold y hy)]
    exact hstops y hy
  have hretired₃ : m₃.retired = [] := by rw [hretired, htally.2, hgrown.tally.2, h.retired]
  refine ⟨m₃, _, seed', rfl, ⟨⟨⟨hleveled₃, ?_, ?_⟩, ?_⟩, hretired₃, fun i hi => ?_⟩, ?_⟩
  · rw [hretired₃]
    simp
  · rw [hzero, hlen, htally.1, hgrown.tally.1, h.settled.sound.counted, length_append]
    simp only [BitVec.natCast_eq_ofNat, BitVec.ofNat_add]
    rfl
  · rw [hzero]
    exact hordered₃
  · rw [hheight₃, hframe.height] at hi
    unfold appendBelow
    rw [if_neg (by omega), h.low i (by omega)]
  · rw [hzero, vmas_append, hext.vmas hold]
    exact congrArg (m.vmas (levels 0) ++ [·]) hnew.2.2.1

theorem copied_new : Copied new (flatLevels []) :=
  ⟨settled_new, rfl, fun i _ => by cases i <;> rfl⟩

theorem Copied.foldlM_insertSkipMerge {vmas : List Vma}
    (h : Copied m levels) (htidy : Tidy (m.vmas (levels 0) ++ vmas)) (seed : BitVec 64) :
    ∃ m' levels' seed', vmas.foldlM VmaMap.insertSkipMerge (m, seed) = some (m', seed') ∧
      Copied m' levels' ∧ m'.vmas (levels' 0) = m.vmas (levels 0) ++ vmas := by
  induction vmas generalizing m levels seed with
  | nil => exact ⟨m, levels, seed, rfl, h, (append_nil _).symm⟩
  | cons vma vmas ih =>
    have hcross := (pairwise_append.mp htidy.sorted).2.2
    obtain ⟨m₁, levels₁, seed₁, hinsert, h₁, hvmas₁⟩ := h.insertSkipMerge
      (htidy.nonempty vma (by simp)) (fun v hv => hcross v hv vma mem_cons_self) seed
    have htidy₁ : Tidy (m₁.vmas (levels₁ 0) ++ vmas) := by
      rw [hvmas₁, append_assoc]
      exact htidy
    obtain ⟨m', levels', seed', hall, h', hvmas⟩ := ih h₁ htidy₁ seed₁
    refine ⟨m', levels', seed', ?_, h', ?_⟩
    · rw [foldlM_cons, hinsert]
      exact hall
    · rw [hvmas, hvmas₁, append_assoc]
      rfl

theorem Settled.clone (h : Settled m levels) (seed : BitVec 64) :
    ∃ m' levels', m.clone seed = some m' ∧ Settled m' levels' ∧
      m'.vmas (levels' 0) = m.vmas (levels 0) := by
  have htidy : Tidy (new.vmas (flatLevels [] 0) ++ m.vmas (levels 0)) := h.ordered.tidy
  obtain ⟨m', levels', seed', hall, hcopied, hvmas⟩ :=
    copied_new.foldlM_insertSkipMerge htidy seed
  refine ⟨m', levels', ?_, hcopied.settled, hvmas⟩
  unfold VmaMap.clone
  rw [h.collectAll_eq]
  change ((m.vmas (levels 0)).foldlM VmaMap.insertSkipMerge (new, seed) >>= _) = _
  rw [hall]
  rfl

end EchOS.Memory.VmaMap
