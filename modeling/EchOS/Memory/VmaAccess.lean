import EchOS.Lib.Custody
import EchOS.Memory.VmaSwap
import EchOS.Memory.VmaThreads

/-! What one access of a thread does: what it tells the thread, which pointers it may write and
whose locks it takes or gives back. New nodes belong to the thread that made them until its swap
commits; all other pointers lead to nodes that are public. -/

namespace EchOS.Memory.VmaMap

open List TaggedPtr

variable {P Q : NodeId → Prop} {m m' : VmaMap} {guard : IntervalGuard}

def Within (P : NodeId → Prop) (node : Option NodeId) : Prop := ∀ x, node = some x → P x

theorem Within.mono {node : Option NodeId} (h : Within P node) (hPQ : ∀ x, P x → Q x) :
    Within Q node :=
  fun x hx => hPQ x (h x hx)

@[simp] theorem within_none : Within P none := nofun

def Locked (m : VmaMap) (x : NodeId) : Prop := (m.load x 0).flag = lockedBit

/-- Pointers of a set stay in it, and no pointer is locked and invalidated at once. -/
structure Closed (P : NodeId → Prop) (m : VmaMap) : Prop where
  within : ∀ x, P x → ∀ level, Within P (m.load x level).node
  flags : ∀ x level, (m.load x level).flag ≠ 3

theorem Closed.within_bind (hm : Closed P m) {succ : Option NodeId} (h : Within P succ)
    (level : ℕ) : Within P (succ.bind fun x => m.nextPtr x level) := by
  cases succ with
  | none => exact within_none
  | some x => exact hm.within x (h x rfl) level

/-- The cursor of a search stays in the set. Nothing is ever there to help with. -/
def Search.Sound (P : NodeId → Prop) : Search → Prop
  | .enter => True
  | .read _ prev => P prev
  | .before _ c | .meeting _ c => P c.prev ∧ Within P c.raw.node
  | .helpBefore _ _ _ | .helpMeeting _ _ _ _ => False

structure IntervalGuard.Sound (P : NodeId → Prop) (guard : IntervalGuard) : Prop where
  locked_eq : guard.locked = guard.pred :: guard.locked.tail
  within : ∀ x ∈ guard.locked, P x

theorem IntervalGuard.Sound.pred (h : guard.Sound P) : P guard.pred := by
  apply h.within
  rw [h.locked_eq]
  exact mem_cons_self

theorem IntervalGuard.Sound.old (h : guard.Sound P) : ∀ x ∈ guard.locked.tail, P x :=
  fun x hx => h.within x (mem_of_mem_tail hx)

/-- What the nodes and levels of steps 1 and 2 have in common. -/
def UpperWork (P : NodeId → Prop) (work : List (NodeId × ℕ)) : Prop :=
  ∀ pair ∈ work, P pair.1 ∧ 0 < pair.2

def Wire.Sound (newNodes : List NodeId) : Wire → Prop
  | .link _ left right => left ∈ newNodes ∧ right ∈ newNodes
  | .last _ node => node ∈ newNodes

structure LockedList (P : NodeId → Prop) (locked : List NodeId) : Prop where
  ne_nil : locked ≠ []
  within : ∀ x ∈ locked, P x

def Resume.Sound (P : NodeId → Prop) : Resume → Prop
  | .done => True
  | .walk _ pred locked => P pred ∧ LockedList P locked

def Resume.held : Resume → List NodeId
  | .done => []
  | .walk _ _ locked => locked

theorem Resume.Sound.held {after : Resume} (h : after.Sound P) : ∀ x ∈ after.held, P x := by
  cases after with
  | done => exact nofun
  | walk r pred locked => exact h.2.within

namespace Pc

/-- What a thread knows between two accesses, with the public nodes in `P`. -/
def Sound (P : NodeId → Prop) : Pc → Prop
  | .idle => True
  | .search _ s => s.Sound P
  | .readPred _ node => P node
  | .casPred _ node raw => P node ∧ Within P raw.node ∧ raw.flag = 0
  | .walk _ pred locked => P pred ∧ LockedList P locked
  | .readNext _ pred _ next locked => P pred ∧ P next ∧ LockedList P locked
  | .casSkip _ _ _ _ _ => False
  | .casNext _ pred next nextRaw locked =>
    P pred ∧ P next ∧ Within P nextRaw.node ∧ nextRaw.flag = 0 ∧ LockedList P locked
  | .unlock rest after => (∀ x ∈ rest, P x) ∧ after.Sound P
  | .casUnlock node raw rest after =>
    P node ∧ Within P raw.node ∧ (∀ x ∈ rest, P x) ∧ after.Sound P
  | .holding guard => guard.Sound P
  | .mark swap work => swap.guard.Sound P ∧ UpperWork P work
  | .casMark swap node level raw work =>
    swap.guard.Sound P ∧ P node ∧ 0 < level ∧ Within P raw.node ∧ UpperWork P work
  | .unlink swap x work => swap.guard.Sound P ∧ P x ∧ UpperWork P work
  | .readUnlinked swap x _ node level work =>
    swap.guard.Sound P ∧ P x ∧ P node ∧ 0 < level ∧ UpperWork P work
  | .casUnlink swap x _ succ node level work =>
    swap.guard.Sound P ∧ P x ∧ Within P succ ∧ P node ∧ 0 < level ∧ UpperWork P work
  | .wire swap work => swap.guard.Sound P ∧ ∀ op ∈ work, op.Sound swap.newNodes
  | .wireLast swap _ node _ succ work =>
    swap.guard.Sound P ∧ node ∈ swap.newNodes ∧ Within P succ ∧
      ∀ op ∈ work, op.Sound swap.newNodes
  | .readCut swap => swap.guard.Sound P
  | .cut swap _ succ => swap.guard.Sound P ∧ Within P succ
  | .invalidate _ rest => ∀ x ∈ rest, P x
  | .storeInvalid _ node raw rest => P node ∧ Within P raw.node ∧ ∀ x ∈ rest, P x

def held : Pc → List NodeId
  | .walk _ _ locked | .readNext _ _ _ _ locked | .casSkip _ _ _ _ locked
  | .casNext _ _ _ _ locked => locked
  | .unlock rest after => rest ++ after.held
  | .casUnlock node _ rest after => node :: (rest ++ after.held)
  | .invalidate _ rest => rest
  | .storeInvalid _ node _ rest => node :: rest
  | pc => pc.outstanding

def pending : Pc → List NodeId
  | .mark swap _ | .casMark swap _ _ _ _ | .unlink swap _ _ | .readUnlinked swap _ _ _ _ _
  | .casUnlink swap _ _ _ _ _ _ | .wire swap _ | .wireLast swap _ _ _ _ _ => swap.newNodes
  | _ => []

def publishes : Pc → List NodeId
  | .wire swap [] => swap.newNodes
  | _ => []

end Pc

section Mono

variable (hPQ : ∀ x, P x → Q x)

include hPQ

theorem Search.Sound.mono {s : Search} (h : s.Sound P) : s.Sound Q := by
  cases s with
  | enter => trivial
  | read level prev => exact hPQ prev h
  | before level c | meeting level c => exact ⟨hPQ _ h.1, h.2.mono hPQ⟩
  | helpBefore level c raw | helpMeeting level c node raw => exact h

theorem IntervalGuard.Sound.mono {guard : IntervalGuard} (h : guard.Sound P) : guard.Sound Q :=
  ⟨h.locked_eq, fun x hx => hPQ x (h.within x hx)⟩

theorem LockedList.mono {locked : List NodeId} (h : LockedList P locked) : LockedList Q locked :=
  ⟨h.ne_nil, fun x hx => hPQ x (h.within x hx)⟩

theorem Resume.Sound.mono {after : Resume} (h : after.Sound P) : after.Sound Q := by
  cases after with
  | done => trivial
  | walk r pred locked => exact ⟨hPQ pred h.1, h.2.mono hPQ⟩

theorem Pc.Sound.mono {pc : Pc} (h : pc.Sound P) : pc.Sound Q := by
  cases pc <;> simp only [Pc.Sound, UpperWork] at h ⊢ <;>
    grind [Search.Sound.mono, IntervalGuard.Sound.mono, LockedList.mono, Resume.Sound.mono,
      Within.mono]

end Mono

theorem TaggedPtr.oddFlag_eq_false {nodeRaw : TaggedPtr} (hflag : nodeRaw.flag ≠ 3)
    (hinvalid : nodeRaw.flag ≠ invalidatedBit) : nodeRaw.oddFlag = false := by
  revert hflag hinvalid
  unfold oddFlag
  generalize nodeRaw.flag = flag
  revert flag
  decide

namespace Search

def Lands (P : NodeId → Prop) : Search ⊕ NodeId → Prop
  | .inl s => s.Sound P
  | .inr node => P node

theorem lands_finish (level : ℕ) {prev : NodeId} (h : P prev) : Lands P (finish level prev) := by
  cases level with
  | zero | succ level => exact h

theorem lands_leave (r : Interval) (m : VmaMap) (level : ℕ) {c : Cursor} (hprev : P c.prev)
    (hraw : Within P c.raw.node) : Lands P (leave r m level c) := by
  unfold leave
  cases hnode : c.raw.node with
  | none => exact lands_finish level hprev
  | some node =>
    dsimp only
    split_ifs
    · exact lands_finish level hprev
    · exact hraw node hnode
    · exact lands_finish level hprev

theorem advance_sound (hhead : P head) (hm : Closed P m) (r : Interval) {s : Search}
    (h : s.Sound P) : (s.advance r m).1 = m ∧ Lands P (s.advance r m).2 := by
  cases s with
  | enter => exact ⟨rfl, lands_finish _ hhead⟩
  | read level prev => exact ⟨rfl, h, hm.within prev h level⟩
  | helpBefore level c raw | helpMeeting level c node raw => exact h.elim
  | before level c =>
    obtain ⟨hprev, hraw⟩ := h
    simp only [advance]
    cases hnode : c.raw.node with
    | none => exact ⟨rfl, lands_finish level hprev⟩
    | some node =>
      dsimp only
      split_ifs with hinvalid hodd hlocked hstop
      · exact ⟨rfl, trivial⟩
      · rw [TaggedPtr.oddFlag_eq_false (hm.flags node level) hinvalid] at hodd
        cases hodd
      · exact ⟨rfl, hprev, hraw⟩
      · exact ⟨rfl, hraw node hnode⟩
      · exact ⟨rfl, hprev, hraw⟩
  | meeting level c =>
    obtain ⟨hprev, hraw⟩ := h
    have hleave := lands_leave r m level hprev hraw
    simp only [advance]
    cases hnode : c.raw.node with
    | none => exact ⟨rfl, lands_finish level hprev⟩
    | some node =>
      have hnodeP : P node := hraw node hnode
      dsimp only
      split_ifs with hinvalid hstart hodd
      · exact ⟨rfl, trivial⟩
      · exact ⟨rfl, hleave⟩
      · rw [TaggedPtr.oddFlag_eq_false (hm.flags node level) hinvalid] at hodd
        cases hodd
      · cases hnext : (m.load node level).node with
        | none => exact ⟨rfl, hleave⟩
        | some next =>
          dsimp only
          split_ifs
          · exact ⟨rfl, hleave⟩
          · exact ⟨rfl, hleave⟩
          · exact ⟨rfl, hnodeP, hm.within node hnodeP level⟩

end Search

theorem upperWork_upperLevels {nodes : List NodeId} (h : ∀ x ∈ nodes, P x) (m : VmaMap) :
    UpperWork P (m.upperLevels nodes) := by
  intro pair hpair
  obtain ⟨x, hx, hlevels⟩ := mem_flatMap.mp hpair
  obtain ⟨level, hlevel, rfl⟩ := mem_map.mp hlevels
  exact ⟨h x hx, (mem_upper.mp hlevel).1⟩

theorem sound_wireWork (m : VmaMap) (newNodes : List NodeId) :
    ∀ op ∈ m.wireWork newNodes, op.Sound newNodes := by
  intro op hop
  obtain ⟨level, -, hop⟩ := mem_flatMap.mp hop
  rcases mem_append.mp hop with hlink | hlast
  · obtain ⟨pair, hpair, rfl⟩ := mem_map.mp hlink
    have hzip := of_mem_zip (mem_of_mem_filter hpair)
    exact ⟨hzip.1, mem_of_mem_tail hzip.2⟩
  · obtain ⟨last, hfilter, rfl⟩ := mem_map.mp hlast
    have hmem := mem_of_mem_filter hfilter
    rw [Option.mem_toList] at hmem
    exact mem_of_getLast? hmem

theorem UpperWork.cons {node : NodeId} {level : ℕ} {work : List (NodeId × ℕ)} (hnode : P node)
    (hlevel : 0 < level) (h : UpperWork P work) : UpperWork P ((node, level) :: work) :=
  forall_mem_cons.mpr ⟨⟨hnode, hlevel⟩, h⟩

/-- What an access may do to the pointers: write a public node, or a new node of the thread's
own. -/
inductive Effect (P : NodeId → Prop) (own : List NodeId) (m m' : VmaMap) : Prop
  | read (hfresh : m'.fresh = m.fresh) (hload : ∀ y i, m'.load y i = m.load y i)
  | shared (x : NodeId) (level : ℕ) (ptr : TaggedPtr) (hfresh : m'.fresh = m.fresh)
      (hload : ∀ y i, m'.load y i = if y = x ∧ i = level then ptr else m.load y i)
      (hx : P x) (hptr : Within P ptr.node) (hflag : ptr.flag ≠ 3)
  | own (x : NodeId) (level : ℕ) (node : Option NodeId) (hfresh : m'.fresh = m.fresh)
      (hload : ∀ y i, m'.load y i = if y = x ∧ i = level then .clean node else m.load y i)
      (hx : x ∈ own) (hnode : Within (fun y => P y ∨ y ∈ own) node)

theorem casNext_cases (m : VmaMap) (x : NodeId) (level : ℕ) (old new : TaggedPtr) :
    (m.load x level = old ∧ m.casNext x level old new = (true, m.store x level new)) ∨
      m.casNext x level old new = (false, m) := by
  by_cases h : m.load x level = old
  · exact .inl ⟨h, if_pos h⟩
  · exact .inr (if_neg h)

section Move

variable {before after : List NodeId} {x : NodeId}

open Custody

theorem move_take {ptr : TaggedPtr} (hfree : (m.load x 0).flag = 0)
    (hflag : ptr.flag = lockedBit) (hheld : after.Perm (x :: before)) :
    Move (Locked m) (Locked (m.store x 0 ptr)) before after := by
  apply Move.take x
  · unfold Locked
    rw [hfree]
    decide
  · simp [Locked, hflag]
  · intro y hy hlocked
    simpa [Locked, hy] using hlocked
  · exact hheld

theorem move_drop (m : VmaMap) (ptr : TaggedPtr) (hheld : before.Perm (x :: after)) :
    Move (Locked m) (Locked (m.store x 0 ptr)) before after := by
  apply Move.drop x
  · intro y hy hlocked
    simpa [Locked, hy] using hlocked
  · exact hheld

theorem move_free (hfree : (m.load x 0).flag = 0) (level : ℕ) (ptr : TaggedPtr) :
    Move (Locked m) (Locked (m.store x level ptr)) before before := by
  apply Move.keep
  · intro y hlocked
    have hne : y ≠ x := by
      rintro rfl
      exact absurd (hfree.symm.trans hlocked) (by decide)
    simpa [Locked, hne] using hlocked
  · rfl

theorem move_upper {level : ℕ} (hlevel : 0 < level) (m : VmaMap) (x : NodeId) (ptr : TaggedPtr) :
    Move (Locked m) (Locked (m.store x level ptr)) before before := by
  apply Move.keep
  · intro y hlocked
    simpa [Locked, Nat.ne_of_lt hlevel] using hlocked
  · rfl

theorem move_read : Move (Locked m) (Locked m) before before :=
  .keep (fun _ hx => hx) rfl

end Move

namespace Pc

theorem Sound.held {pc : Pc} (h : pc.Sound P) : ∀ x ∈ pc.held, P x := by
  cases pc <;> simp only [Pc.Sound, Pc.held, outstanding] at h ⊢ <;>
    grind [IntervalGuard.Sound, LockedList, Resume.Sound.held]

open Custody

/-- What the next access of a thread does: what it tells the thread, what it writes, which lock
it takes or gives back, and whether the thread's new nodes become public. -/
structure Access (P : NodeId → Prop) (pc : Pc) (m m' : VmaMap) (next : Pc) : Prop where
  sound : next.Sound P
  effect : Effect P pc.pending m m'
  move : Move (Locked m) (Locked m') pc.held next.held
  pending : next.pending = if pc.publishes = [] then pc.pending else []

variable {pc next : Pc}

theorem publishes_cases (pc : Pc) : pc.publishes = [] ∨ pc.publishes = pc.pending := by
  cases pc with
  | wire swap work =>
    cases work with
    | nil => exact .inr rfl
    | cons op work => exact .inl rfl
  | _ => exact .inl rfl

theorem Access.read (hsound : next.Sound P) (hheld : next.held = pc.held)
    (hpending : next.pending = if pc.publishes = [] then pc.pending else []) :
    Access P pc m m next :=
  ⟨hsound, .read rfl fun _ _ => rfl, hheld ▸ move_read, hpending⟩

theorem Access.store {x : NodeId} {level : ℕ} {ptr : TaggedPtr} (hx : P x)
    (hptr : Within P ptr.node) (hflag : ptr.flag ≠ 3) (hsound : next.Sound P)
    (hmove : Move (Locked m) (Locked (m.store x level ptr)) pc.held next.held)
    (hpending : next.pending = if pc.publishes = [] then pc.pending else []) :
    Access P pc m (m.store x level ptr) next :=
  ⟨hsound, .shared x level ptr rfl (fun y i => load_store m x y level i _) hx hptr hflag, hmove,
    hpending⟩

theorem advance_access (hhead : P head) (hm : Closed P m) (h : pc.Sound P)
    (hclear : pc.readsClear m) (hown : ∀ x ∈ pc.pending, (m.load x 0).flag = 0)
    (hpublic : ∀ x ∈ pc.publishes, P x) : Access P pc m (pc.advance m).1 (pc.advance m).2 := by
  have hlocked : lockedBit ≠ 3 := by decide
  have hclean : (0 : BitVec 2) ≠ 3 := by decide
  cases pc with
  | idle | holding guard => exact .read h rfl rfl
  | search r s =>
    obtain ⟨hmap, hlands⟩ := Search.advance_sound hhead hm r h
    simp only [advance]
    split
    all_goals
      rename_i m' _ heq
      rw [heq] at hmap hlands
      obtain rfl : m' = m := hmap
      exact .read hlands rfl rfl
  | readPred r node =>
    simp only [advance]
    split_ifs with hflag
    · exact .read trivial rfl rfl
    · have hzero : (m.load node 0).flag = 0 := by
        by_contra hne
        exact hflag (.inr (.inr hne))
      exact .read ⟨h, hm.within node h 0, hzero⟩ rfl rfl
  | casPred r node raw =>
    rcases casNext_cases m node 0 raw ⟨raw.node, lockedBit⟩ with ⟨heq, hcas⟩ | hcas
    · simp only [advance, hcas, if_true]
      exact .store h.1 h.2.1 hlocked
        ⟨h.1, cons_ne_nil _ _, forall_mem_singleton.mpr h.1⟩
        (move_take (heq ▸ h.2.2) rfl (Perm.refl _)) rfl
    · simp only [advance, hcas]
      exact .read trivial rfl rfl
  | walk r pred locked =>
    have hguard : IntervalGuard.Sound P ⟨locked.headD head, locked⟩ := by
      obtain ⟨x, rest, rfl⟩ := exists_cons_of_ne_nil h.2.ne_nil
      exact ⟨rfl, h.2.within⟩
    simp only [advance]
    cases hnext : (m.load pred 0).node with
    | none => exact .read hguard rfl rfl
    | some next =>
      dsimp only
      split_ifs
      · exact .read hguard rfl rfl
      · exact .read ⟨h.1, hm.within pred h.1 0 next hnext, h.2⟩ rfl rfl
  | readNext r pred raw next locked =>
    have hzero : (m.load next 0).flag = 0 := of_decide_eq_true hclear
    have hfree : (m.load next 0).isInvalidated = false := by
      simp [isInvalidated, hzero]
    simp only [advance, hfree, hzero]
    exact .read ⟨h.1, h.2.1, hm.within next h.2.1 0, hzero, h.2.2⟩ rfl rfl
  | casSkip r pred raw nextRaw locked => exact h.elim
  | casNext r pred next nextRaw locked =>
    obtain ⟨hpred, hnext, hraw, hzero, hlist⟩ := h
    rcases casNext_cases m next 0 nextRaw ⟨nextRaw.node, lockedBit⟩ with
      ⟨heq, hcas⟩ | hcas
    · have hfree : (m.load next 0).flag = 0 := heq ▸ hzero
      have happend : LockedList P (locked ++ [next]) :=
        ⟨append_ne_nil_of_left_ne_nil hlist.ne_nil _,
          forall_mem_append.mpr ⟨hlist.within, forall_mem_singleton.mpr hnext⟩⟩
      simp only [advance, hcas, Bool.not_true, Bool.false_eq_true, if_false]
      split_ifs
      · -- the old predecessor is about to be unlocked, and counts until then
        obtain ⟨x, rest, rfl⟩ := exists_cons_of_ne_nil hlist.ne_nil
        have htail : LockedList P (rest ++ [next]) :=
          ⟨append_ne_nil_of_right_ne_nil _ (cons_ne_nil _ _),
            fun y hy => happend.within y (mem_cons_of_mem x hy)⟩
        exact .store hnext hraw hlocked
          ⟨forall_mem_singleton.mpr (hlist.within x mem_cons_self), hnext, htail⟩
          (move_take hfree rfl (perm_append_singleton next (x :: rest))) rfl
      · exact .store hnext hraw hlocked ⟨hnext, happend⟩
          (move_take hfree rfl (perm_append_singleton next locked)) rfl
    · simp only [advance, hcas]
      exact .read ⟨hpred, hlist⟩ rfl rfl
  | unlock rest after =>
    cases rest with
    | nil =>
      cases after with
      | done => exact .read trivial rfl rfl
      | walk r pred locked => exact .read h.2 rfl rfl
    | cons node rest =>
      obtain ⟨hnode, hrest⟩ := forall_mem_cons.mp h.1
      exact .read ⟨hnode, hm.within node hnode 0, hrest, h.2⟩ rfl rfl
  | casUnlock node raw rest after =>
    obtain ⟨hnode, hraw, hrest, hafter⟩ := h
    rcases casNext_cases m node 0 raw (.clean raw.node) with ⟨heq, hcas⟩ | hcas
    · simp only [advance, hcas, if_true]
      exact .store hnode hraw hclean ⟨hrest, hafter⟩ (move_drop m _ (Perm.refl _)) rfl
    · simp only [advance, hcas]
      exact .read ⟨forall_mem_cons.mpr ⟨hnode, hrest⟩, hafter⟩ rfl rfl
  | mark swap work =>
    cases work with
    | nil => exact .read ⟨h.1, hhead, upperWork_upperLevels h.1.old m⟩ rfl rfl
    | cons pair work =>
      obtain ⟨hpair, hwork⟩ := forall_mem_cons.mp h.2
      exact .read ⟨h.1, hpair.1, hpair.2, hm.within _ hpair.1 _, hwork⟩ rfl rfl
  | casMark swap node level raw work =>
    obtain ⟨hguard, hnode, hlevel, hraw, hwork⟩ := h
    rcases casNext_cases m node level raw ⟨raw.node, lockedBit⟩ with ⟨-, hcas⟩ | hcas
    · simp only [advance, hcas, if_true]
      exact .store hnode hraw hlocked ⟨hguard, hwork⟩ (move_upper hlevel m node _) rfl
    · simp only [advance, hcas]
      exact .read ⟨hguard, hwork.cons hnode hlevel⟩ rfl rfl
  | unlink swap x work =>
    obtain ⟨hguard, hx, hwork⟩ := h
    cases work with
    | nil =>
      simp only [advance]
      split_ifs with hnew
      · exact .read hguard rfl hnew.symm
      · exact .read ⟨hguard, sound_wireWork m swap.newNodes⟩ rfl rfl
    | cons pair work =>
      have hpair := forall_mem_cons.mp hwork
      simp only [advance]
      cases hnext : (m.load x pair.2).node with
      | none => exact .read ⟨hguard, hhead, hpair.2⟩ rfl rfl
      | some next =>
        dsimp only
        split_ifs
        · exact .read ⟨hguard, hx, hpair.1.1, hpair.1.2, hpair.2⟩ rfl rfl
        · exact .read ⟨hguard, hm.within x hx pair.2 next hnext, hwork⟩ rfl rfl
  | readUnlinked swap x xRaw node level work =>
    obtain ⟨hguard, hx, hnode, hlevel, hwork⟩ := h
    exact .read ⟨hguard, hx, hm.within node hnode level, hnode, hlevel, hwork⟩ rfl rfl
  | casUnlink swap x xRaw succ node level work =>
    obtain ⟨hguard, hx, hsucc, hnode, hlevel, hwork⟩ := h
    rcases casNext_cases m x level xRaw (.clean succ) with ⟨-, hcas⟩ | hcas
    · simp only [advance, hcas, if_true]
      exact .store hx hsucc hclean ⟨hguard, hhead, hwork⟩ (move_upper hlevel m x _) rfl
    · simp only [advance, hcas]
      exact .read ⟨hguard, hhead, hwork.cons hnode hlevel⟩ rfl rfl
  | wire swap work =>
    cases work with
    | nil =>
      -- the commit: the first new node is public from here on
      refine ⟨h.1.old, .shared swap.guard.pred 0 (.clean swap.newNodes.head?) rfl
        (fun y i => load_store _ _ _ _ _ _) h.1.pred
        (fun x hx => hpublic x (mem_of_head? hx)) hclean,
        move_drop _ _ (Perm.of_eq h.1.locked_eq), ?_⟩
      split_ifs with hnil
      · exact hnil.symm
      · rfl
    | cons op work =>
      obtain ⟨hop, hwork⟩ := forall_mem_cons.mp h.2
      cases op with
      | link level left right =>
        refine ⟨⟨h.1, hwork⟩, .own left level (some right) rfl
          (fun y i => load_store _ _ _ _ _ _) hop.1 ?_, move_free (hown left hop.1) level _, rfl⟩
        rintro x ⟨⟩
        exact .inr hop.2
      | last level node => exact .read ⟨h.1, hop, hm.within _ h.1.pred 0, hwork⟩ rfl rfl
  | wireLast swap level node count succ work =>
    obtain ⟨hguard, hnode, hsucc, hwork⟩ := h
    cases count with
    | zero =>
      exact ⟨⟨hguard, hwork⟩, .own node level succ rfl (fun y i => load_store _ _ _ _ _ _) hnode
        (hsucc.mono fun x hx => .inl hx), move_free (hown node hnode) level _, rfl⟩
    | succ count => exact .read ⟨hguard, hnode, hm.within_bind hsucc level, hwork⟩ rfl rfl
  | readCut swap => exact .read ⟨h, hm.within _ h.pred 0⟩ rfl rfl
  | cut swap count succ =>
    cases count with
    | zero =>
      exact ⟨h.1.old, .shared swap.guard.pred 0 (.clean succ) rfl
        (fun y i => load_store _ _ _ _ _ _) h.1.pred h.2 hclean,
        move_drop _ _ (Perm.of_eq h.1.locked_eq), rfl⟩
    | succ count => exact .read ⟨h.1, hm.within_bind h.2 0⟩ rfl rfl
  | invalidate old rest =>
    cases rest with
    | nil =>
      show Access P _ m (old.foldl pushRetired m) _
      rw [foldl_pushRetired]
      exact ⟨trivial, .read rfl fun y i => rfl, move_read, rfl⟩
    | cons node rest =>
      obtain ⟨hnode, hrest⟩ := forall_mem_cons.mp h
      exact .read ⟨hnode, hm.within node hnode 0, hrest⟩ rfl rfl
  | storeInvalid old node raw rest =>
    have hinvalid : invalidatedBit ≠ 3 := by decide
    exact .store h.1 h.2.1 hinvalid h.2.2 (move_drop m _ (Perm.refl _)) rfl

end Pc

end EchOS.Memory.VmaMap
