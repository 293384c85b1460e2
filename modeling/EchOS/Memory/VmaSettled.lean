import EchOS.Memory.VmaSwap

/-! A VMA map between two calls: its levels, the nodes it has retired and the number it keeps
of its VMAs. Every update locks a range, allocates nodes and swaps them in. -/

namespace EchOS.Memory.VmaMap

open List

/-- Nodes that exist keep their data; others may have been added. -/
structure Extends (m m' : VmaMap) : Prop where
  start : ∀ x < m.fresh, (m'.nodes x).start = (m.nodes x).start
  stop : ∀ x < m.fresh, (m'.nodes x).stop = (m.nodes x).stop
  vma : ∀ x < m.fresh, (m'.nodes x).vma = (m.nodes x).vma
  fresh : m.fresh ≤ m'.fresh

variable {m m' : VmaMap} {levels : ℕ → List NodeId} {locked : List NodeId}

theorem Frame.extends (h : Frame m m') : Extends m m' :=
  ⟨fun x _ => h.start x, fun x _ => h.stop x, fun x _ => h.vma x, Nat.le_of_eq h.fresh.symm⟩

theorem Extends.trans {m₁ m₂ m₃ : VmaMap} (h : Extends m₁ m₂) (h' : Extends m₂ m₃) :
    Extends m₁ m₃ where
  start x hx := (h'.start x (Nat.lt_of_lt_of_le hx h.fresh)).trans (h.start x hx)
  stop x hx := (h'.stop x (Nat.lt_of_lt_of_le hx h.fresh)).trans (h.stop x hx)
  vma x hx := (h'.vma x (Nat.lt_of_lt_of_le hx h.fresh)).trans (h.vma x hx)
  fresh := Nat.le_trans h.fresh h'.fresh

theorem Ordered.extends {ids : List NodeId} (h : Ordered m ids)
    (he : Extends m m') (hold : ∀ x ∈ ids, x < m.fresh) : Ordered m' ids :=
  h.congr (fun x hx => he.start x (hold x hx)) (fun x hx => he.stop x (hold x hx))
    fun x hx => he.vma x (hold x hx)

/-- Nodes may have been added and the height raised; all else is as it was. -/
structure Grown (m m' : VmaMap) : Prop where
  nodes : ∀ x < m.fresh, m'.nodes x = m.nodes x
  fresh : m.fresh ≤ m'.fresh
  height : m.height ≤ m'.height
  tally : SameTally m m'

namespace Grown

variable {m m₁ m₂ : VmaMap}

theorem refl (m : VmaMap) : Grown m m :=
  ⟨fun _ _ => rfl, Nat.le_refl _, Nat.le_refl _, SameTally.refl m⟩

theorem trans (h : Grown m m₁) (h' : Grown m₁ m₂) : Grown m m₂ where
  nodes x hx := (h'.nodes x (Nat.lt_of_lt_of_le hx h.fresh)).trans (h.nodes x hx)
  fresh := Nat.le_trans h.fresh h'.fresh
  height := Nat.le_trans h.height h'.height
  tally := h.tally.trans h'.tally

theorem alloc (m : VmaMap) (vma : Vma) (height : ℕ) : Grown m (m.alloc vma height).2 :=
  ⟨fun _ hx => if_neg (Nat.ne_of_lt hx), Nat.le_succ _, Nat.le_refl _, ⟨rfl, rfl⟩⟩

theorem toExtends (h : Grown m m₁) : Extends m m₁ where
  start x hx := by rw [h.nodes x hx]
  stop x hx := by rw [h.nodes x hx]
  vma x hx := by rw [h.nodes x hx]
  fresh := h.fresh

theorem load (h : Grown m m₁) {x : NodeId} (hx : x < m.fresh) (i : ℕ) :
    m₁.load x i = m.load x i := by
  unfold VmaMap.load
  rw [h.nodes x hx]

end Grown

theorem alloc_node (m : VmaMap) (vma : Vma) (height : ℕ) :
    (m.alloc vma height).2.nodes m.fresh = Node.new vma height := if_pos rfl

theorem Leveled.lt_fresh
    (h : Leveled m levels locked) {i : ℕ} {x : NodeId} (hx : x ∈ head :: levels i) : x < m.fresh :=
  h.threaded.allocated x (((h.sublist i).cons_cons head).subset hx)

theorem Leveled.grown
    (h : Leveled m levels locked) (hg : Grown m m') : Leveled m' levels locked where
  threaded :=
    ⟨h.threaded.links.congr fun x hx => congrArg TaggedPtr.node (hg.load (h.lt_fresh hx) 0),
      h.threaded.nodup, fun x hx => Nat.lt_of_lt_of_le (h.lt_fresh hx) hg.fresh,
      Nat.le_trans h.threaded.tall hg.height⟩
  flags x hx := by
    rw [hg.load (h.lt_fresh hx)]
    exact h.flags x hx
  links i hi :=
    (h.links i hi).congr fun x hx => congrArg TaggedPtr.node (hg.load (h.lt_fresh hx) i)
  clean i hi x hx := by
    rw [hg.load (h.lt_fresh hx)]
    exact h.clean i hi x hx
  nested := h.nested
  towers i hi x hx := by
    rw [hg.nodes x (h.lt_fresh (mem_cons_of_mem head hx))]
    exact h.towers i hi x hx

/-- The levels of a map, with its retired nodes off the chain and its VMAs counted. -/
structure Sound (m : VmaMap) (levels : ℕ → List NodeId) (locked : List NodeId) : Prop where
  leveled : Leveled m levels locked
  retired : ∀ x ∈ m.retired, x < m.fresh ∧ x ∉ head :: levels 0
  counted : m.len = (levels 0).length

/-- A node that was allocated and never linked. -/
structure Spare (m : VmaMap) (levels : ℕ → List NodeId) (x : NodeId) : Prop where
  off : x ∉ head :: levels 0
  unretired : x ∉ m.retired
  allocated : x < m.fresh
  tall : 0 < (m.nodes x).height
  clean : (m.load x 0).flag = 0

/-- No level above 0 has a node it did not have. -/
def Thinner (levels' levels : ℕ → List NodeId) : Prop :=
  ∀ i, 0 < i → (levels' i).Sublist (levels i)

theorem Thinner.refl (levels : ℕ → List NodeId) : Thinner levels levels :=
  fun _ _ => Sublist.refl _

theorem Thinner.trans {levels₁ levels₂ levels₃ : ℕ → List NodeId} (h : Thinner levels₂ levels₁)
    (h' : Thinner levels₃ levels₂) : Thinner levels₃ levels₁ :=
  fun i hi => (h' i hi).trans (h i hi)

theorem thinner_swapLevels (levels : ℕ → List NodeId) (old ids : List NodeId) :
    Thinner (swapLevels levels old ids) levels := by
  intro i hi
  rw [swapLevels_of_pos levels old ids hi]
  exact filter_sublist

namespace Sound

variable {m m' : VmaMap} {levels : ℕ → List NodeId} {locked : List NodeId}

section

variable (h : Sound m levels locked)
include h

theorem grown (hg : Grown m m') : Sound m' levels locked where
  leveled := h.leveled.grown hg
  retired x hx := by
    obtain ⟨hlt, hoff⟩ := h.retired x (hg.tally.2 ▸ hx)
    exact ⟨Nat.lt_of_lt_of_le hlt hg.fresh, hoff⟩
  counted := hg.tally.1.trans h.counted

theorem sameTally {locked' : List NodeId} (hf : Frame m m') (ht : SameTally m m')
    (hl : Leveled m' levels locked') : Sound m' levels locked' where
  leveled := hl
  retired x hx := by
    rw [hf.fresh]
    exact h.retired x (ht.2 ▸ hx)
  counted := ht.1.trans h.counted

theorem spare (hg : Grown m m') {x : NodeId} {vma : Vma} {height : ℕ} (hx : m.fresh ≤ x)
    (hlt : x < m'.fresh) (hnode : m'.nodes x = Node.new vma height) (hpos : 0 < height) :
    Spare m' levels x where
  off hin := Nat.not_lt.mpr hx (h.leveled.lt_fresh hin)
  unretired hin := Nat.not_lt.mpr hx (h.retired x (hg.tally.2 ▸ hin)).1
  allocated := hlt
  tall := by
    rw [hnode]
    exact hpos
  clean := by
    rw [load, hnode]
    rfl

theorem replace {ids' earlier old behind new : List NodeId} {pred : NodeId}
    (hsplit : head :: levels 0 = earlier ++ pred :: (old ++ behind))
    (hsplit' : head :: ids' = earlier ++ pred :: (new ++ behind))
    (hnew : ∀ y ∈ new, y ∉ head :: levels 0 ∧ y ∉ m.retired) (hf : Frame m m')
    (hl : Leveled m' (swapLevels levels old ids') [])
    (hlen : m'.len = m.len - old.length + new.length) (hretired : m'.retired = m.retired ++ old) :
    Sound m' (swapLevels levels old ids') [] where
  leveled := hl
  retired x hx := by
    have hchain := h.leveled.threaded.nodup
    rw [hsplit] at hchain
    obtain ⟨hsides, hpred⟩ := sides_of_nodup hchain
    change x < m'.fresh ∧ x ∉ head :: ids'
    rw [hf.fresh, hsplit']
    rw [hretired, mem_append] at hx
    rcases hx with hx | hx
    · obtain ⟨hlt, hoff⟩ := h.retired x hx
      refine ⟨hlt, fun hin => ?_⟩
      have hxnew : x ∉ new := fun hin => (hnew x hin).2 hx
      rw [hsplit] at hoff
      simp only [mem_append, mem_cons] at hoff hin
      tauto
    · have hin : x ∈ head :: levels 0 := by
        rw [hsplit]
        simp [hx]
      refine ⟨h.leveled.lt_fresh hin, fun hin' => ?_⟩
      have hxnew : x ∉ new := fun hin' => (hnew x hin').1 hin
      have hxpred : x ≠ pred := fun heq => hpred (heq ▸ hx)
      have hxsides : x ∉ earlier ++ behind := fun hin => hsides x hin (mem_cons_of_mem pred hx)
      simp only [mem_append, mem_cons] at hin' hxsides
      tauto
  counted := by
    have hold := congrArg length hsplit
    have hids := congrArg length hsplit'
    simp only [length_cons, length_append] at hold hids
    obtain ⟨rest, hrest⟩ : ∃ rest, (levels 0).length = rest + old.length :=
      ⟨earlier.length + behind.length, by omega⟩
    have hrest' : ids'.length = rest + new.length := by omega
    change m'.len = (ids'.length : BitVec 64)
    rw [hlen, h.counted, hrest, hrest']
    simp only [BitVec.natCast_eq_ofNat, BitVec.ofNat_add, BitVec.add_sub_cancel]

end

end Sound

section

variable {m : VmaMap} {levels : ℕ → List NodeId} {before meeting behind : List NodeId}

theorem Sound.swapInterval {new : List NodeId}
    (h : Sound m levels (lockPred before meeting :: meeting.getLast?.toList))
    (hzero : levels 0 = before ++ (meeting ++ behind)) (hnodup : new.Nodup)
    (hnew : ∀ y ∈ new, Spare m levels y) :
    ∃ m', m.swapInterval ⟨lockPred before meeting,
        lockPred before meeting :: meeting.getLast?.toList⟩ new = some m' ∧ Frame m m' ∧
      Sound m' (swapLevels levels meeting.getLast?.toList
        (before ++ (meeting.dropLast ++ (new ++ behind)))) [] := by
  obtain ⟨earlier, hearlier⟩ := exists_lockPred_split before meeting
  have hsplit : head :: levels 0 =
      earlier ++ lockPred before meeting :: (meeting.getLast?.toList ++ behind) := by
    rw [hzero]
    exact lockPred_split hearlier behind
  have hsplit' := hearlier (new ++ behind)
  obtain ⟨m', hswap, hframe, hleveled, hlen, hretired⟩ := swapInterval_spec h.leveled hsplit
    hsplit' hnodup fun y hy =>
      ⟨(hnew y hy).off, (hnew y hy).allocated, (hnew y hy).tall, (hnew y hy).clean⟩
  exact ⟨m', hswap, hframe, h.replace hsplit hsplit'
    (fun y hy => ⟨(hnew y hy).off, (hnew y hy).unretired⟩) hframe hleveled hlen hretired⟩

open Loop TaggedPtr Option in
theorem Sound.lockInterval {start stop : ℕ} (h : Sound m levels [])
    (hzero : levels 0 = before ++ (meeting ++ behind)) (ho : Ordered m (levels 0))
    (hr : Range m start stop before meeting behind) (hlt : start < stop) :
    ∃ m', m.lockInterval start stop = some (⟨lockPred before meeting,
        lockPred before meeting :: meeting.getLast?.toList⟩, m') ∧
      Writes (fun x i => x ∈ lockPred before meeting :: meeting.getLast?.toList ∧ i = 0) m m' ∧
      SameTally m m' ∧ Sound m' levels (lockPred before meeting :: meeting.getLast?.toList) := by
  obtain ⟨ps, hps, hpreds⟩ := getPredSuccConcurrent_spec h.leveled hzero ho hr hlt
  obtain ⟨earlier, hsplit⟩ := exists_lockPred_split before meeting
  have hpred : lockPred before meeting ∈ head :: levels 0 := by
    rw [hzero, lockPred_split hsplit]
    simp
  have hflag := h.leveled.flag_zero hpred
  have hcas : m.casNext (lockPred before meeting) 0 (m.load (lockPred before meeting) 0)
      ⟨(m.load (lockPred before meeting) 0).node, lockedBit⟩ =
      (true, m.setFlag (lockPred before meeting) lockedBit) := if_pos rfl
  have hfirst : Leveled (m.setFlag (lockPred before meeting) lockedBit) levels
      [lockPred before meeting] := by
    refine h.leveled.setFlag fun y hy => ?_
    have := h.leveled.flags y hy
    by_cases hyp : y = lockPred before meeting <;> simp_all
  have hwrites : Writes (fun y i => y ∈ lockPred before meeting :: meeting.getLast?.toList ∧ i = 0)
      m (m.setFlag (lockPred before meeting) lockedBit) :=
    Writes.setFlag ⟨mem_cons_self, rfl⟩ m _
  obtain ⟨m', hrun, hwrites', htally, hlocked⟩ :=
    run_lockNext hfirst hzero (hr.frame hwrites.frame)
  refine ⟨m', run_done ?_ m.rounds_pos, hwrites.trans hwrites', htally,
    h.sameTally (hwrites.trans hwrites').frame htally hlocked⟩
  simp only [lockIntervalStep, hps, bind_eq_bind, bind_some, hpreds, hcas, hrun]
  simp [isLocked, isInvalidated, hflag]

theorem Sound.unlockList {locked : List NodeId} (h : Sound m levels locked) :
    Frame m (m.unlockList locked) ∧ Sound (m.unlockList locked) levels [] := by
  obtain ⟨hframe, htally, hleveled⟩ := h.leveled.unlockList fun y hy => hy
  exact ⟨hframe, h.sameTally hframe htally hleveled⟩

end

/-- The map at rest: nothing is locked and the chain is in order. -/
structure Settled (m : VmaMap) (levels : ℕ → List NodeId) : Prop where
  sound : Sound m levels []
  ordered : Ordered m (levels 0)

namespace Settled

variable {m : VmaMap} {levels : ℕ → List NodeId}

theorem find_eq (h : Settled m levels) (addr : ℕ) : m.find addr = some (m.lookup (levels 0) addr) :=
  VmaMap.find_eq h.sound.leveled.threaded (h.sound.leveled.forward h.ordered) h.ordered addr

theorem collectAll_eq (h : Settled m levels) :
    m.collectAll = some ((levels 0).map fun x => (m.nodes x).vma) :=
  VmaMap.collectAll_eq h.sound.leveled.threaded

end Settled

theorem settled_new : Settled new (flatLevels []) where
  sound := by
    have hthreaded : Threaded new [] := by
      refine ⟨⟨rfl, rfl⟩, nodup_singleton head, fun x hx => ?_, Nat.le_refl 1⟩
      obtain rfl := mem_singleton.mp hx
      exact Nat.one_pos
    exact ⟨hthreaded.leveled (fun _ _ => rfl) fun _ _ => rfl, by simp [new], rfl⟩
  ordered := ⟨by simp [flatLevels], by simp [flatLevels], by simp [flatLevels], Pairwise.nil⟩

end EchOS.Memory.VmaMap
