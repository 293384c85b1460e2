import EchOS.Memory.VmaList
import EchOS.Memory.VmaSettled

/-! Insertion into a VMA map keeps the chain sorted and disjoint, whether or not the new VMA
is merged with a neighbour. -/

namespace EchOS.Memory.VmaMap

open List Option

def vmas (m : VmaMap) (ids : List NodeId) : List Vma := ids.map fun x => (m.nodes x).vma

theorem vmas_append (m : VmaMap) (xs ys : List NodeId) :
    m.vmas (xs ++ ys) = m.vmas xs ++ m.vmas ys := map_append

theorem vmas_cons (m : VmaMap) (x : NodeId) (ids : List NodeId) :
    m.vmas (x :: ids) = (m.nodes x).vma :: m.vmas ids := rfl

variable {m' : VmaMap} {ids : List NodeId} {x : NodeId} {m : VmaMap} {before behind : List NodeId}
  {levels : ℕ → List NodeId}

theorem Extends.vmas (h : Extends m m') (hids : ∀ x ∈ ids, x < m.fresh) :
    m'.vmas ids = m.vmas ids :=
  map_congr_left fun x hx => h.vma x (hids x hx)

theorem Frame.vmas (h : Frame m m') (ids : List NodeId) : m'.vmas ids = m.vmas ids :=
  map_congr_left fun x _ => h.vma x

theorem Ordered.tidy (h : Ordered m ids) : Tidy (m.vmas ids) where
  nonempty vma hvma := by
    obtain ⟨x, hx, rfl⟩ := mem_map.mp hvma
    rw [← h.start_eq x hx, ← h.stop_eq x hx]
    exact h.nonempty x hx
  sorted := by
    refine pairwise_map.mpr (h.sorted.imp_of_mem fun {x y} hx hy hxy => ?_)
    rwa [← h.stop_eq x hx, ← h.start_eq y hy]

theorem Ordered.lookup_eq (h : Ordered m ids) (addr : ℕ) :
    m.lookup ids addr = vmaAt (m.vmas ids) addr := by
  induction ids with
  | nil => rfl
  | cons x ids ih =>
    have hrest := ih (h.sublist (sublist_cons_self x ids))
    have hcovers : (m.nodes x).vma.covers addr =
        (decide ((m.nodes x).start ≤ addr) && decide (addr < (m.nodes x).stop)) := by
      rw [Vma.covers, h.start_eq x mem_cons_self, h.stop_eq x mem_cons_self]
    rw [vmas_cons, vmaAt_cons, ← hrest, hcovers]
    unfold lookup
    rw [List.find?_cons]
    cases decide ((m.nodes x).start ≤ addr) && decide (addr < (m.nodes x).stop) <;> rfl

theorem Ordered.insertNode
    (h : Ordered m (before ++ behind)) (hstart : (m.nodes x).start = (m.nodes x).vma.start)
    (hstop : (m.nodes x).stop = (m.nodes x).vma.stop) (hx : (m.nodes x).start < (m.nodes x).stop)
    (hbefore : ∀ y ∈ before, (m.nodes y).stop ≤ (m.nodes x).start)
    (hbehind : ∀ y ∈ behind, (m.nodes x).stop ≤ (m.nodes y).start) :
    Ordered m (before ++ x :: behind) := by
  have hmem : ∀ {y : NodeId}, y ∈ before ++ x :: behind → y = x ∨ y ∈ before ++ behind := by
    intro y hy
    simp only [mem_append, mem_cons] at hy ⊢
    tauto
  obtain ⟨hb, hb', hcross⟩ := pairwise_append.mp h.sorted
  constructor
  · intro y hy
    rcases hmem hy with rfl | hy
    · exact hstart
    · exact h.start_eq y hy
  · intro y hy
    rcases hmem hy with rfl | hy
    · exact hstop
    · exact h.stop_eq y hy
  · intro y hy
    rcases hmem hy with rfl | hy
    · exact hx
    · exact h.nonempty y hy
  · refine pairwise_append.mpr ⟨hb, pairwise_cons.mpr ⟨hbehind, hb'⟩, fun y hy z hz => ?_⟩
    rcases mem_cons.mp hz with rfl | hz
    · exact hbefore y hy
    · exact hcross y hy z hz

theorem le_growHeight (tosses h : ℕ) (seed : BitVec 64) : h ≤ (growHeight tosses h seed).1 := by
  induction tosses generalizing h seed with
  | zero => exact Nat.le_refl h
  | succ tosses ih =>
    simp only [growHeight]
    split_ifs
    · exact Nat.le_trans (Nat.le_succ h) (ih (h + 1) _)
    · exact Nat.le_refl h

theorem randomHeight_pos (seed : BitVec 64) : 0 < (randomHeight seed).1 := by
  unfold randomHeight
  exact le_growHeight (maxHeight - 1) 1 seed

theorem load_unlinkAfter (m : VmaMap) (x right y : NodeId) (i : ℕ) :
    (m.unlinkAfter x right).load y i =
      if y = x ∧ i = 0 then .clean (m.nextPtr right 0) else (m.markDeleted right).load y i :=
  load_store (m.markDeleted right) x y 0 i _

theorem Frame.unlinkAfter (m : VmaMap) (x right : NodeId) : Frame m (m.unlinkAfter x right) := by
  have hstore := Frame.store (m.markDeleted right) x 0 (.clean (m.nextPtr right 0))
  have htrans := (writes_markDeleted m right).frame.trans hstore
  exact ⟨htrans.start, htrans.stop, htrans.vma, htrans.tower, htrans.fresh, htrans.height⟩

theorem Sound.unlinkAfter
    {right : NodeId} (h : Sound m levels []) (hzero : levels 0 = before ++ x :: right :: behind)
    (hright : right ∉ levels 1) :
    Sound (m.unlinkAfter x right) (swapLevels levels [right] (before ++ x :: behind)) [] := by
  have hmark := writes_markDeleted m right
  have hsplit : head :: levels 0 = (head :: before) ++ x :: ([right] ++ behind) := by
    rw [hzero]
    rfl
  have hsplit' : head :: (before ++ x :: behind) = (head :: before) ++ x :: ([] ++ behind) := rfl
  have hnext : m.nextPtr right 0 = behind.head? := by
    have hlinks := h.leveled.threaded.links
    rw [hzero, show head :: (before ++ x :: right :: behind) =
      (head :: before ++ [x]) ++ right :: behind by simp] at hlinks
    exact hlinks.next_eq
  obtain ⟨hsides, -⟩ := sides_of_nodup (hsplit ▸ h.leveled.threaded.nodup)
  have hhead : head ∉ [right] := fun hin => hsides head (by simp) (mem_cons_of_mem x hin)
  have hoff : ∀ i, 0 < i → right ∉ levels i := by
    intro i hi hin
    exact hright (h.leveled.sublist_of_le hi |>.subset hin)
  have hleveled : Leveled (m.unlinkAfter x right)
      (swapLevels levels [right] (before ++ x :: behind)) [] := by
    refine h.leveled.replace hsplit hsplit' nodup_nil (by simp)
      (Frame.unlinkAfter m x right) hhead (by simp) ?_ ?_ ?_ ?_
    · intro y hy
      have hside := hsides y hy
      rw [load_unlinkAfter, if_neg fun h => hside (by simp [h.1]),
        hmark.kept y 0 fun h => Nat.lt_irrefl 0 h.2]
    · intro i hi
      have hfilter : (levels i).filter (· ∉ [right]) = levels i := by
        refine filter_eq_self.mpr fun y hy => ?_
        have hne : y ∉ [right] := fun hin => hoff i hi (mem_singleton.mp hin ▸ hy)
        simpa using hne
      have hload : ∀ y ∈ head :: levels i, (m.unlinkAfter x right).load y i = m.load y i := by
        intro y hy
        have hne : y ≠ right := by
          rintro rfl
          rcases mem_cons.mp hy with heq | hy
          · exact hhead (heq ▸ mem_singleton.mpr rfl)
          · exact hoff i hi hy
        rw [load_unlinkAfter, if_neg fun h => Nat.ne_of_gt hi h.2,
          hmark.kept y i fun h => hne h.1]
      rw [hfilter]
      refine ⟨(h.leveled.links i hi).congr fun y hy => congrArg TaggedPtr.node (hload y hy),
        fun y hy _ => ?_⟩
      rw [hload y hy]
      exact h.leveled.clean i hi y hy
    · change (m.unlinkAfter x right).nextPtr x 0 = behind.head?
      rw [nextPtr, load_unlinkAfter, if_pos ⟨rfl, rfl⟩, ← hnext]
      rfl
    · intro y hy
      obtain rfl := mem_singleton.mp hy
      rw [load_unlinkAfter, if_pos ⟨rfl, rfl⟩]
      rfl
  have htally := sameTally_markDeleted m right
  refine h.replace hsplit hsplit' (by simp) (Frame.unlinkAfter m x right) hleveled ?_ ?_
  · exact (BitVec.add_zero _).symm
  · exact congrArg (· ++ [right]) htally.2

theorem Ordered.range_of_node (h : Ordered m (before ++ x :: behind)) :
    Range m (m.nodes x).start (m.nodes x).stop before [x] behind := by
  obtain ⟨-, htail, hcross⟩ := pairwise_append.mp h.sorted
  refine ⟨fun y hy => hcross y hy x mem_cons_self, fun y hy => ?_,
    (pairwise_cons.mp htail).1⟩
  obtain rfl := mem_singleton.mp hy
  have := h.nonempty y (by simp)
  exact ⟨this, this⟩

theorem Ordered.merge {left right : NodeId}
    (h : Ordered m (before ++ left :: right :: behind)) (he : Extends m m') {height : ℕ}
    (hids : ∀ x ∈ before ++ left :: right :: behind, x < m.fresh) (hnode : m'.nodes m.fresh =
      Node.new (mergedVma (m.nodes left).vma (m.nodes right).vma) height) :
    Ordered m' (before ++ m.fresh :: behind) := by
  have hsub := Sublist.append_left (((Sublist.refl behind).cons right).cons left) before
  have hstart : (m'.nodes m.fresh).start = (m.nodes left).start := by
    rw [hnode, h.start_eq left (by simp)]
    rfl
  have hstop : (m'.nodes m.fresh).stop = (m.nodes right).stop := by
    rw [hnode, h.stop_eq right (by simp)]
    rfl
  obtain ⟨-, htail, hcross⟩ := pairwise_append.mp h.sorted
  obtain ⟨hleft, htail⟩ := pairwise_cons.mp htail
  obtain ⟨hright, -⟩ := pairwise_cons.mp htail
  refine ((h.sublist hsub).extends he fun x hx => hids x (hsub.subset hx)).insertNode
    (by rw [hnode]; rfl) (by rw [hnode]; rfl) ?_ (fun y hy => ?_) (fun y hy => ?_)
  · have h₁ := h.nonempty left (by simp)
    have h₂ := h.nonempty right (by simp)
    have h₃ := hleft right (by simp)
    omega
  · rw [hstart, he.stop y (hids y (by simp [hy]))]
    exact hcross y hy left (by simp)
  · rw [hstop, he.start y (hids y (by simp [hy]))]
    exact hright y hy

section

variable {m : VmaMap} {levels : ℕ → List NodeId} {before behind : List NodeId} {ptr : NodeId}

theorem Settled.swapNode {x new : NodeId} (h : Settled m levels)
    (hzero : levels 0 = before ++ x :: behind) (hnew : Spare m levels new) :
    ∃ guard m₁ m₂, m.lockInterval (m.nodes x).vma.start (m.nodes x).vma.stop = some (guard, m₁) ∧
      guard.locked.tail = [x] ∧ Frame m m₁ ∧ m₁.swapInterval guard [new] = some m₂ ∧
      Frame m m₂ ∧ Sound m₂ (swapLevels levels [x] (before ++ new :: behind)) [] := by
  have hmem : x ∈ levels 0 := by simp [hzero]
  have hrange := (hzero ▸ h.ordered).range_of_node
  have hlt := h.ordered.nonempty x hmem
  obtain ⟨m₁, hlock, hwrites, htally, hsound₁⟩ := h.sound.lockInterval hzero h.ordered hrange hlt
  have hlocked : ∀ y ∈ lockPred before [x] :: [x], y ∈ head :: levels 0 := by
    obtain ⟨earlier, hsplit⟩ := exists_lockPred_split before [x]
    have hall : head :: levels 0 = earlier ++ lockPred before [x] :: x :: behind := by
      rw [hzero]
      exact hsplit (x :: behind)
    rw [hall]
    simp
  have hspare : Spare m₁ levels new := by
    have hload := hwrites.kept new 0 fun hin => hnew.off (hlocked new hin.1)
    exact ⟨hnew.off, htally.2 ▸ hnew.unretired, hwrites.frame.fresh ▸ hnew.allocated,
      hwrites.frame.tower new ▸ hnew.tall, hload ▸ hnew.clean⟩
  obtain ⟨m₂, hswap, hframe, hsound₂⟩ := hsound₁.swapInterval hzero (nodup_singleton new)
    fun y hy => mem_singleton.mp hy ▸ hspare
  rw [h.ordered.start_eq x hmem, h.ordered.stop_eq x hmem] at hlock
  exact ⟨_, m₁, m₂, hlock, rfl, hwrites.frame, hswap, hwrites.frame.trans hframe, hsound₂⟩

theorem Settled.mergePair {left right : NodeId} (h : Settled m levels)
    (hzero : levels 0 = before ++ left :: right :: behind) (hright : right ∉ levels 1)
    {height : ℕ} (hheight : 0 < height) :
    ∃ m' levels', m.mergePair height left right = some (true, m') ∧ Settled m' levels' ∧
      Thinner levels' levels ∧ m'.vmas (levels' 0) = m.vmas before ++
        mergedVma (m.nodes left).vma (m.nodes right).vma :: m.vmas behind := by
  have hids : ∀ x ∈ levels 0, x < m.fresh :=
    fun x hx => h.sound.leveled.lt_fresh (mem_cons_of_mem head hx)
  have hgrown := Grown.alloc m (mergedVma (m.nodes left).vma (m.nodes right).vma) height
  have hnode := alloc_node m (mergedVma (m.nodes left).vma (m.nodes right).vma) height
  generalize halloc : m.alloc (mergedVma (m.nodes left).vma (m.nodes right).vma) height = allocated
    at hgrown hnode
  obtain ⟨merged, m₁⟩ := allocated
  obtain rfl : m.fresh = merged := congrArg Prod.fst halloc
  have hextends := hgrown.toExtends
  have hsettled₁ : Settled m₁ levels := ⟨h.sound.grown hgrown, h.ordered.extends hextends hids⟩
  have hspare : Spare m₁ levels m.fresh :=
    h.sound.spare hgrown (Nat.le_refl _) (halloc ▸ Nat.lt_succ_self m.fresh) hnode hheight
  obtain ⟨guard, m₂, m₃, hlock, htail, hframe₂, hswap, hframe₃, hsound₃⟩ :=
    hsettled₁.swapNode hzero hspare
  have hleft : left ∈ levels 0 := by simp [hzero]
  rw [hextends.vma left (hids left hleft)] at hlock
  have hstart : (m₂.nodes left).start = (m.nodes left).vma.start := by
    rw [hframe₂.start, hextends.start left (hids left hleft), h.ordered.start_eq left hleft]
  have hframe := hframe₃.trans (Frame.unlinkAfter m₃ m.fresh right)
  have hright₃ : right ∉ swapLevels levels [left] (before ++ m.fresh :: right :: behind) 1 :=
    fun hin => hright ((thinner_swapLevels levels _ _ 1 Nat.one_pos).subset hin)
  have hsound := hsound₃.unlinkAfter rfl hright₃
  refine ⟨m₃.unlinkAfter m.fresh right, _, ?_, ⟨hsound, ?_⟩,
    (thinner_swapLevels _ _ _).trans (thinner_swapLevels _ _ _), ?_⟩
  · simp only [VmaMap.mergePair, halloc, hlock, htail, bind_eq_bind, bind_some,
      length_singleton, headD_cons, hstart, and_self, if_true, hswap]
    rfl
  · exact ((hzero ▸ h.ordered).merge hextends (hzero ▸ hids) hnode).frame hframe
  · have hbefore : ∀ x ∈ before, x < m.fresh := fun x hx => hids x (by simp [hzero, hx])
    have hbehind : ∀ x ∈ behind, x < m.fresh := fun x hx => hids x (by simp [hzero, hx])
    change (m₃.unlinkAfter m.fresh right).vmas (before ++ m.fresh :: behind) = _
    rw [hframe.vmas, vmas_append, vmas_cons, hnode, hextends.vmas hbefore, hextends.vmas hbehind]
    rfl

theorem run_findBeforeStep {m : VmaMap} {before behind : List NodeId} {x : NodeId}
    (hlinks : LinkedList.Seg m.succ (some x) (x :: (before ++ ptr :: behind)) none)
    (hne : ptr ∉ before) {rounds : ℕ} (hr : before.length < rounds) :
    Loop.run (m.findBeforeStep ptr) rounds x = some (before.getLastD x) := by
  have hlast : m.nextPtr (before.getLastD x) 0 = some ptr := hlinks.from_last.2.1
  refine hlinks.run_walk (f := id) (fun y _ z hz hnext => ?_)
    (by simp only [id, findBeforeStep, hlast, if_true]) hr
  have hnext : m.nextPtr y 0 = some z := hnext
  have hz : z ≠ ptr := fun h => hne (h ▸ hz)
  simp [findBeforeStep, hnext, hz]

/-- The successor of a new node may have to be unlinked; if it is on a level above 0 the node
has to be merged with its predecessor instead. -/
def MergesCleanly (m : VmaMap) (levels : ℕ → List NodeId) (vma : Vma) : Prop :=
  ∀ x ∈ levels 1, vma.canMergeWith (m.nodes x).vma →
    ∃ y ∈ levels 0, (m.nodes y).vma.canMergeWith vma

theorem Settled.mergeWithSuccessor (h : Settled m levels)
    (hzero : levels 0 = before ++ ptr :: behind)
    (hclean : ∀ x ∈ levels 1, ¬ (m.nodes ptr).vma.canMergeWith (m.nodes x).vma) (seed : BitVec 64) :
    ∃ m' levels', m.mergeWithSuccessor seed ptr = some m' ∧ Settled m' levels' ∧
      Thinner levels' levels ∧ Merges (m.vmas (levels 0)) (m'.vmas (levels' 0)) := by
  have hnext : m.nextPtr ptr 0 = behind.head? := by
    have hlinks := h.sound.leveled.threaded.links
    rw [hzero, ← cons_append] at hlinks
    exact hlinks.next_eq
  have hpos := randomHeight_pos seed
  unfold VmaMap.mergeWithSuccessor
  rw [hnext]
  cases behind with
  | nil => exact ⟨m, levels, rfl, h, Thinner.refl levels, .none _⟩
  | cons succ behind =>
    by_cases hmerge : (m.nodes ptr).vma.canMergeWith (m.nodes succ).vma
    · have hsucc : succ ∉ levels 1 := fun hin => hclean succ hin hmerge
      obtain ⟨m', levels', hpair, hsettled, hthinner, hvmas⟩ := h.mergePair hzero hsucc hpos
      refine ⟨m', levels', ?_, hsettled, hthinner, ?_⟩
      · simp only [List.head?_cons, hmerge, if_true, hpair]
        rfl
      · rw [hvmas, hzero, vmas_append]
        exact .pair _ _ hmerge
    · refine ⟨m, levels, ?_, h, Thinner.refl levels, .none _⟩
      simp only [List.head?_cons, hmerge]
      rfl

theorem Ordered.concat_of_canMergeWith {y : NodeId}
    (h : Ordered m (before ++ ptr :: behind)) (hy : y ∈ before ++ ptr :: behind)
    (hmerge : (m.nodes y).vma.canMergeWith (m.nodes ptr).vma) : ∃ l, before = l ++ [y] := by
  have hadjacent : (m.nodes y).stop = (m.nodes ptr).start := by
    rw [h.stop_eq y hy, h.start_eq ptr (by simp)]
    exact (Vma.canMergeWith_iff.mp hmerge).1
  have hynonempty := h.nonempty y hy
  have hptr := h.nonempty ptr (by simp)
  obtain ⟨hsorted, htail, hcross⟩ := pairwise_append.mp h.sorted
  rcases mem_append.mp hy with hin | hin
  · obtain ⟨l, r, rfl⟩ := append_of_mem hin
    cases r with
    | nil => exact ⟨l, rfl⟩
    | cons z r =>
      have h₁ := (pairwise_cons.mp (pairwise_append.mp hsorted).2.1).1 z (by simp)
      have h₂ := h.nonempty z (by simp)
      have h₃ := hcross z (by simp) ptr (by simp)
      omega
  · rcases mem_cons.mp hin with rfl | hin
    · omega
    · have := (pairwise_cons.mp htail).1 y hin
      omega

theorem Settled.mergeNeighbours (h : Settled m levels)
    (hzero : levels 0 = before ++ ptr :: behind) (hptr : ptr ∉ levels 1)
    (hclean : MergesCleanly m levels (m.nodes ptr).vma) (seed : BitVec 64) :
    ∃ m' levels', m.mergeNeighbours seed ptr = some m' ∧ Settled m' levels' ∧
      Thinner levels' levels ∧ Merges (m.vmas (levels 0)) (m'.vmas (levels' 0)) := by
  have hlen := h.sound.leveled.threaded.length_lt
  have hnot : ptr ∉ before := by
    have hnodup := h.sound.leveled.threaded.nodup
    rw [hzero] at hnodup
    simp only [nodup_cons, nodup_append] at hnodup
    exact fun hin => hnodup.2.2.2 ptr hin ptr (by simp) rfl
  have hwalk : Loop.run (m.findBeforeStep ptr) m.rounds head = some (before.getLastD head) := by
    refine run_findBeforeStep (hzero ▸ h.sound.leveled.threaded.links) hnot ?_
    rw [hzero, length_append] at hlen
    unfold rounds
    omega
  have hpos := randomHeight_pos seed
  unfold VmaMap.mergeNeighbours
  rw [hwalk, bind_eq_bind, bind_some]
  by_cases hmerge : before.getLastD head ≠ head ∧
      (m.nodes (before.getLastD head)).vma.canMergeWith (m.nodes ptr).vma
  · rw [if_pos hmerge]
    generalize randomHeight seed = drawn at hpos ⊢
    obtain ⟨height, seed'⟩ := drawn
    obtain rfl | ⟨before, left, rfl⟩ := eq_nil_or_concat' before
    · exact absurd rfl hmerge.1
    · rw [append_assoc] at hzero
      rw [getLastD_concat] at hmerge ⊢
      obtain ⟨m', levels', hpair, hsettled, hthinner, hvmas⟩ := h.mergePair hzero hptr hpos
      refine ⟨m', levels', ?_, hsettled, hthinner, ?_⟩
      · change (m.mergePair height left ptr >>= _) = _
        rw [hpair, bind_eq_bind, bind_some]
        exact if_pos rfl
      · rw [hvmas, hzero, vmas_append]
        exact .pair _ _ hmerge.2
  · rw [if_neg hmerge]
    refine h.mergeWithSuccessor hzero (fun x hx hsucc => hmerge ?_) seed
    obtain ⟨y, hy, hpred⟩ := hclean x hx hsucc
    obtain ⟨l, rfl⟩ := (hzero ▸ h.ordered).concat_of_canMergeWith (hzero ▸ hy) hpred
    rw [getLastD_concat]
    refine ⟨fun heq => ?_, hpred⟩
    have hnodup := h.sound.leveled.threaded.nodup
    rw [hzero] at hnodup
    exact (nodup_cons.mp hnodup).1 (by simp [heq])

end

def allocRaised (m : VmaMap) (vma : Vma) (height : ℕ) : VmaMap :=
  if (m.alloc vma height).2.height < height then { (m.alloc vma height).2 with height := height }
  else (m.alloc vma height).2

theorem allocRaised_nodes (m : VmaMap) (vma : Vma) (height : ℕ) :
    (m.allocRaised vma height).nodes = (m.alloc vma height).2.nodes := by
  unfold allocRaised
  split_ifs <;> rfl

theorem allocRaised_fresh (m : VmaMap) (vma : Vma) (height : ℕ) :
    (m.allocRaised vma height).fresh = m.fresh + 1 := by
  unfold allocRaised
  split_ifs <;> rfl

theorem Grown.allocRaised (m : VmaMap) (vma : Vma) (height : ℕ) :
    Grown m (m.allocRaised vma height) := by
  have h := Grown.alloc m vma height
  refine ⟨?_, ?_, ?_, ?_⟩
  · rw [allocRaised_nodes]
    exact h.nodes
  · rw [allocRaised_fresh]
    exact h.fresh
  all_goals
    unfold VmaMap.allocRaised
    split_ifs with hlt
  · exact Nat.le_of_lt hlt
  · exact h.height
  · exact h.tally
  · exact h.tally

section

variable {m : VmaMap} {levels : ℕ → List NodeId} {before behind : List NodeId}

theorem Sound.placeNode {vma : Vma} {height : ℕ} (h : Sound m levels [lockPred before []])
    (hzero : levels 0 = before ++ behind) (ho : Ordered m (levels 0))
    (hr : Range m vma.start vma.stop before [] behind) (hlt : vma.start < vma.stop)
    (hpos : 0 < height) :
    ∃ m', (m.allocRaised vma height).swapInterval
        ⟨lockPred before [], [lockPred before []]⟩ [m.fresh] = some m' ∧ Extends m m' ∧
      (m'.nodes m.fresh).vma = vma ∧
      Settled m' (swapLevels levels [] (before ++ m.fresh :: behind)) := by
  have hnode : (m.allocRaised vma height).nodes m.fresh = Node.new vma height := by
    rw [allocRaised_nodes, alloc_node]
  have hgrown := Grown.allocRaised m vma height
  have hext := hgrown.toExtends
  have hold : ∀ x ∈ before ++ behind, x < m.fresh :=
    fun x hx => h.leveled.lt_fresh (mem_cons_of_mem head (hzero ▸ hx))
  have hspare := h.spare hgrown (Nat.le_refl _)
    (by rw [allocRaised_fresh]; exact Nat.lt_succ_self _) hnode hpos
  have hlocked := h.grown hgrown
  obtain ⟨m', hswap, hframe, hsound⟩ := hlocked.swapInterval hzero (nodup_singleton m.fresh)
    fun y hy => mem_singleton.mp hy ▸ hspare
  refine ⟨m', hswap, hext.trans hframe.extends, by rw [hframe.vma, hnode]; rfl, hsound,
    Ordered.frame ?_ hframe⟩
  refine ((hzero ▸ ho).extends hext hold).insertNode (by rw [hnode]; rfl) (by rw [hnode]; rfl)
    (by rw [hnode]; exact hlt) (fun y hy => ?_) (fun y hy => ?_)
  · rw [hnode, hext.stop y (hold y (by simp [hy]))]
    exact hr.before y hy
  · rw [hext.start y (hold y (by simp [hy])), hnode]
    exact hr.behind y hy

end

theorem insert_eq {m₁ : VmaMap} {guard : IntervalGuard} {vma : Vma} (hlt : vma.start < vma.stop)
    (hlock : m.lockInterval vma.start vma.stop = some (guard, m₁)) (seed : BitVec 64) :
    m.insert seed vma =
      if guard.locked.tail.any fun x =>
          (m₁.nodes x).start < vma.stop && vma.start < (m₁.nodes x).stop then
        some (false, m₁.unlockInterval guard)
      else ((m₁.allocRaised vma (randomHeight seed).1).swapInterval guard [m₁.fresh]).bind
        fun m => (m.mergeNeighbours (randomHeight seed).2 m₁.fresh).bind
          fun m => some (true, m) := by
  unfold insert
  -- nothing depends on what the generator yields
  generalize randomHeight seed = drawn
  obtain ⟨height, seed'⟩ := drawn
  rw [if_neg (Nat.not_le.mpr hlt), hlock]
  rfl

theorem Settled.insert (h : Settled m levels) {vma : Vma} (hclean : vma.start < vma.stop →
      (∀ w ∈ m.vmas (levels 0), ¬ w.meets vma.start vma.stop) → MergesCleanly m levels vma)
    (seed : BitVec 64) :
    ∃ taken m' levels', m.insert seed vma = some (taken, m') ∧ Settled m' levels' ∧
      Thinner levels' levels ∧
      Inserts vma (m.vmas (levels 0)) taken (m'.vmas (levels' 0)) := by
  by_cases hlt : vma.start < vma.stop
  case neg =>
    exact ⟨false, m, levels, if_pos (Nat.not_lt.mp hlt), h, Thinner.refl levels,
      .refused (.inl (Nat.not_lt.mp hlt))⟩
  obtain ⟨before, meeting, behind, hzero, hrange⟩ := h.ordered.split_range vma.start vma.stop
  obtain ⟨m₁, hlock, hwrites, -, hsound₁⟩ := h.sound.lockInterval hzero h.ordered hrange hlt
  have hframe₁ := hwrites.frame
  have hordered₁ := h.ordered.frame hframe₁
  have hrange₁ := hrange.frame hframe₁
  rw [insert_eq hlt hlock]
  obtain rfl | ⟨meeting, x, rfl⟩ := eq_nil_or_concat' meeting
  · -- the gap is free
    rw [if_neg (by simp)]
    obtain ⟨m₂, hswap, hext, hvma, hsettled₂⟩ :=
      hsound₁.placeNode hzero hordered₁ hrange₁ hlt (randomHeight_pos seed)
    have hext' : Extends m m₂ := hframe₁.extends.trans hext
    have hold : ∀ x ∈ levels 0, x < m.fresh :=
      fun x hx => h.sound.leveled.lt_fresh (mem_cons_of_mem head hx)
    have hthinner := thinner_swapLevels levels [] (before ++ m₁.fresh :: behind)
    have hupper : ∀ x ∈ swapLevels levels [] (before ++ m₁.fresh :: behind) 1, x ∈ levels 1 :=
      fun x hx => (hthinner 1 Nat.one_pos).subset hx
    have hptr : m₁.fresh ∉ swapLevels levels [] (before ++ m₁.fresh :: behind) 1 := fun hin =>
      Nat.lt_irrefl m₁.fresh
        (hsound₁.leveled.lt_fresh (mem_cons_of_mem head (hupper m₁.fresh hin)))
    have hvmas₂ : m₂.vmas (before ++ m₁.fresh :: behind) =
        m.vmas before ++ vma :: m.vmas behind := by
      rw [vmas_append, vmas_cons, hvma, hext'.vmas fun x hx => hold x (by simp [hzero, hx]),
        hext'.vmas fun x hx => hold x (by simp [hzero, hx])]
    have htidy : Tidy (m₂.vmas (before ++ m₁.fresh :: behind)) := hsettled₂.ordered.tidy
    rw [hvmas₂] at htidy
    have hclean := hclean hlt (by rw [hzero, vmas_append]; exact htidy.not_meets)
    have hclean₂ : MergesCleanly m₂ (swapLevels levels [] (before ++ m₁.fresh :: behind))
        (m₂.nodes m₁.fresh).vma := by
      intro x hx hmerge
      have hx := hupper x hx
      rw [hvma, hext'.vma x (hold x ((h.sound.leveled.sublist 1).subset hx))] at hmerge
      obtain ⟨y, hy, hpred⟩ := hclean x hx hmerge
      refine ⟨y, ?_, ?_⟩
      · have hin : y ∈ before ++ m₁.fresh :: behind := by
          rw [hzero, mem_append] at hy
          rw [mem_append]
          tauto
        exact hin
      · rw [hvma, hext'.vma y (hold y hy)]
        exact hpred
    obtain ⟨m₃, levels₃, hmerge, hsettled₃, hthinner₃, hmerges⟩ :=
      hsettled₂.mergeNeighbours rfl hptr hclean₂ (randomHeight seed).2
    change Merges (m₂.vmas (before ++ m₁.fresh :: behind)) _ at hmerges
    refine ⟨true, m₃, levels₃, ?_, hsettled₃, hthinner.trans hthinner₃, ?_⟩
    · change ((m₁.allocRaised vma (randomHeight seed).1).swapInterval
        ⟨lockPred before [], [lockPred before []]⟩ [m₁.fresh]).bind _ = _
      rw [hswap, bind_some, hmerge, bind_some]
    · rw [hvmas₂] at hmerges
      rw [hzero, vmas_append]
      exact .taken htidy hmerges
  · -- a node that meets the range has been locked
    have hx := hrange₁.meeting x (by simp)
    rw [if_pos (by simp [hx])]
    obtain ⟨hframe, hsound⟩ := hsound₁.unlockList
    refine ⟨false, _, levels, rfl, ⟨hsound, hordered₁.frame hframe⟩, Thinner.refl levels, ?_⟩
    have hvmas := (hframe₁.trans hframe).vmas (levels 0)
    have hin : x ∈ levels 0 := by simp [hzero]
    have hmeets : (m.nodes x).vma.meets vma.start vma.stop := by
      rw [Vma.meets_iff, ← h.ordered.start_eq x hin, ← h.ordered.stop_eq x hin]
      exact (hrange.meeting x (by simp)).symm
    change Inserts vma _ false ((m₁.unlockList _).vmas (levels 0))
    rw [hvmas]
    exact .refused (.inr ⟨_, mem_map_of_mem hin, hmeets⟩)

theorem mergesCleanly_of_flat (h : levels 1 = []) (vma : Vma) : MergesCleanly m levels vma := by
  intro x hx
  rw [h] at hx
  cases hx

end EchOS.Memory.VmaMap
