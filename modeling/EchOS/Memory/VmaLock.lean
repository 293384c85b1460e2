import EchOS.Memory.VmaLevels

/-! What locking a range of a VMA map finds. The search steps into the nodes that meet the
range, so that of several only the last one is locked and the one before it serves as
predecessor. -/

namespace EchOS.Memory.VmaMap

open Loop TaggedPtr List Option

/-- A chain falls apart at a range into the nodes before it, those that meet it and those
behind it. -/
structure Range (m : VmaMap) (start stop : ℕ) (before meeting behind : List NodeId) : Prop where
  before : ∀ x ∈ before, (m.nodes x).stop ≤ start
  meeting : ∀ x ∈ meeting, start < (m.nodes x).stop ∧ (m.nodes x).start < stop
  behind : ∀ x ∈ behind, stop ≤ (m.nodes x).start

variable {m : VmaMap} {rounds start level : ℕ} {x : NodeId}

theorem Ordered.split_range {ids : List NodeId} (h : Ordered m ids) (start stop : ℕ) :
    ∃ before meeting behind, ids = before ++ (meeting ++ behind) ∧
      Range m start stop before meeting behind := by
  induction ids with
  | nil => exact ⟨[], [], [], rfl, by simp, by simp, by simp⟩
  | cons x ids ih =>
    obtain ⟨before, meeting, behind, rfl, hr⟩ := ih (h.sublist (sublist_cons_self x ids))
    have hlater := (pairwise_cons.mp h.sorted).1
    have hx := h.nonempty x mem_cons_self
    by_cases hbefore : (m.nodes x).stop ≤ start
    · exact ⟨x :: before, meeting, behind, rfl, forall_mem_cons.mpr ⟨hbefore, hr.before⟩,
        hr.meeting, hr.behind⟩
    have hnone : before = [] := by
      refine eq_nil_iff_forall_not_mem.mpr fun y hy => ?_
      have h1 := hr.before y hy
      have h2 := hlater y (mem_append_left _ hy)
      have h3 := h.nonempty y (mem_cons_of_mem x (mem_append_left _ hy))
      omega
    subst hnone
    by_cases hmeets : (m.nodes x).start < stop
    · exact ⟨[], x :: meeting, behind, rfl, hr.before,
        forall_mem_cons.mpr ⟨⟨by omega, hmeets⟩, hr.meeting⟩, hr.behind⟩
    · refine ⟨[], [], x :: (meeting ++ behind), rfl, by simp, by simp,
        forall_mem_cons.mpr ⟨by omega, fun y hy => ?_⟩⟩
      have := hlater y hy
      omega

def cursorAt (m : VmaMap) (level : ℕ) (x : NodeId) : Cursor := ⟨x, m.load x level⟩

theorem run_passBefore {before rest : List NodeId}
    (hlinks : LinkedList.Seg (m.nextPtr · level) (some x) (x :: (before ++ rest)) none)
    (hflags : ∀ y ∈ before ++ rest, (m.load y level).flag = 0)
    (hbefore : ∀ y ∈ before, (m.nodes y).stop ≤ start)
    (hrest : ∀ y ∈ rest, start < (m.nodes y).stop) (hr : before.length < rounds) :
    run (passBefore start level) rounds (m, m.cursorAt level x) =
      some (m, some (m.cursorAt level (before.getLastD x))) := by
  have hlast : (m.cursorAt level (before.getLastD x)).raw.node = rest.head? :=
    hlinks.from_last.2.head_eq.trans or_none
  refine hlinks.run_walk (f := fun x => (m, m.cursorAt level x)) (fun y _ z hz hnext => ?_) ?_ hr
  · have hnext : (m.cursorAt level y).raw.node = some z := hnext
    have hflag := hflags z (mem_append_left _ hz)
    simp [passBefore, hnext, hflag, hbefore z hz, oddFlag, invalidatedBit, lockedBit]
    rfl
  · generalize before.getLastD x = last at hlast ⊢
    unfold passBefore
    cases hrest' : rest.head? with
    | none => simp [hlast, hrest']
    | some y =>
      have hy : y ∈ rest := mem_of_mem_head? (mem_def.mpr hrest')
      have hflag := hflags y (mem_append_right _ hy)
      simp [hlast, hrest', hflag, oddFlag, invalidatedBit, lockedBit,
        Nat.not_le.mpr (hrest y hy)]

theorem run_passMeeting {stop : ℕ} {meeting behind : List NodeId}
    (hlinks : LinkedList.Seg (m.nextPtr · level) (some x) (x :: (meeting ++ behind)) none)
    (hflags : ∀ y ∈ meeting ++ behind, (m.load y level).flag = 0)
    (hmeeting : ∀ y ∈ meeting, start < (m.nodes y).stop ∧ (m.nodes y).start < stop)
    (hbehind : ∀ y ∈ behind, stop ≤ (m.nodes y).start) (hr : meeting.length < rounds) :
    run (passMeeting start stop level) rounds (m, m.cursorAt level x) =
      some (m, some (m.cursorAt level (meeting.dropLast.getLastD x))) := by
  induction meeting generalizing x rounds with
  | nil =>
    have hnext : (m.cursorAt level x).raw.node = behind.head? :=
      hlinks.2.head_eq.trans or_none
    refine run_done ?_ (by omega)
    unfold passMeeting
    cases hbehind' : behind.head? with
    | none => simp [hnext, hbehind']
    | some y =>
      have hy : y ∈ behind := mem_of_mem_head? (mem_def.mpr hbehind')
      have hflag := hflags y hy
      have hle := hbehind y hy
      simp [hnext, hbehind', hflag, invalidatedBit, hle]
  | cons y meeting ih =>
    obtain ⟨-, hnext, hlinks⟩ := hlinks
    have hnext : (m.cursorAt level x).raw.node = some y := hnext
    have hflag := hflags y (by simp)
    obtain ⟨hy, hlt⟩ := hmeeting y mem_cons_self
    cases meeting with
    | nil =>
      have hlast : (m.load y level).node = behind.head? := hlinks.head_eq.trans or_none
      refine run_done ?_ (by omega)
      cases hbehind' : behind.head? with
      | none =>
        simp [passMeeting, hnext, hflag, invalidatedBit, Nat.not_le.mpr hlt, hlast,
          hbehind']
      | some z =>
        have hz : z ∈ behind := mem_of_mem_head? (mem_def.mpr hbehind')
        have hle := hbehind z hz
        simp [passMeeting, hnext, hflag, invalidatedBit, Nat.not_le.mpr hlt, hlast,
          hbehind', hle]
    | cons z meeting =>
      have hz : (m.load y level).node = some z := hlinks.1
      obtain ⟨hzs, hzlt⟩ := hmeeting z (by simp)
      obtain ⟨rounds, rfl⟩ : ∃ k, rounds = k + 1 := ⟨rounds - 1, by simp at hr; omega⟩
      have hstep : passMeeting start stop level (m, m.cursorAt level x) =
          some (.inl (m, m.cursorAt level y)) := by
        simp [passMeeting, hnext, hflag, invalidatedBit, Nat.not_le.mpr hlt, hz,
          Nat.not_le.mpr hzlt, Nat.not_le.mpr hzs, oddFlag]
        rfl
      rw [run_next hstep, dropLast_cons_cons, getLastD_cons]
      refine ih ⟨rfl, hlinks⟩ (fun w hw => hflags w (mem_cons_of_mem y hw))
        (fun w hw => hmeeting w (mem_cons_of_mem y hw)) ?_
      simp at hr ⊢
      omega

/-- The predecessor a search ends at: it passes all but the last of the nodes that meet the
range. -/
def lockPred (before meeting : List NodeId) : NodeId :=
  meeting.dropLast.getLastD (before.getLastD head)

section

variable {m : VmaMap} {start stop : ℕ} {before meeting behind : List NodeId} {y pred : NodeId}
  {level : ℕ}

theorem Range.start_lt (hr : Range m start stop before meeting behind)
    (ho : Ordered m (before ++ (meeting ++ behind))) (hlt : start < stop)
    (hy : y ∈ meeting ++ behind) : start < (m.nodes y).stop := by
  rcases mem_append.mp hy with hm | hb
  · exact (hr.meeting y hm).1
  · have h1 := hr.behind y hb
    have h2 := ho.nonempty y (mem_append_right _ hy)
    omega

variable {x : NodeId} {levels : ℕ → List NodeId} {locked : List NodeId}

theorem eq_concat_of_mem {l : List NodeId} (h : x ∈ l) : ∃ init last, l = init ++ [last] := by
  rcases eq_nil_or_concat' l with rfl | hconcat
  · cases h
  · exact hconcat

theorem dropLast_append_last (meeting behind : List NodeId) :
    meeting.dropLast ++ (meeting.getLast?.toList ++ behind) = meeting ++ behind := by
  obtain rfl | ⟨others, y, rfl⟩ := eq_nil_or_concat' meeting <;> simp

theorem from_lockPred {next : NodeId → Option NodeId}
    (h : LinkedList.Seg next (some head) (head :: (before ++ (meeting ++ behind))) none) :
    LinkedList.Seg next (some (lockPred before meeting))
      (lockPred before meeting :: (meeting.getLast?.toList ++ behind)) none := by
  have hlinks := h.from_last
  rw [← dropLast_append_last meeting behind] at hlinks
  exact hlinks.from_last

theorem exists_way (behind : List NodeId) (hx : x ∈ head :: (before ++ meeting.dropLast)) :
    ∃ earlier before' meeting',
      head :: (before ++ (meeting ++ behind)) = earlier ++ x :: (before' ++ (meeting' ++ behind)) ∧
      (∀ y ∈ before', y ∈ before) ∧ (∀ y ∈ meeting', y ∈ meeting) ∧
      meeting'.dropLast.getLastD (before'.getLastD x) = lockPred before meeting := by
  have hlast : ∀ (a d : NodeId) (l r : List NodeId), (l ++ a :: r).getLastD d = r.getLastD a := by
    intro a d l r
    simp [getLastD_eq_getLast?, List.getLast?_append, List.getLast?_cons]
  rw [← cons_append, mem_append] at hx
  rcases hx with hx | hx
  · obtain ⟨l, r, hsplit⟩ := append_of_mem hx
    refine ⟨l, r, meeting, ?_, fun y hy => ?_, fun y hy => hy, ?_⟩
    · rw [← cons_append, hsplit, append_assoc, cons_append]
    · cases l with
      | nil | cons a l => simp [(cons.inj hsplit).2, hy]
    · have hsame : before.getLastD head = r.getLastD x := by
        have h := congrArg (getLastD · head) hsplit
        rwa [getLastD_cons, hlast] at h
      rw [lockPred, hsame]
  · obtain ⟨init, last, rfl⟩ := eq_concat_of_mem ((dropLast_sublist _).subset hx)
    rw [dropLast_concat] at hx
    obtain ⟨l, r, rfl⟩ := append_of_mem hx
    refine ⟨head :: (before ++ l), [], r ++ [last], by simp, by simp, fun y hy => ?_, ?_⟩
    · simp only [mem_append, mem_cons] at hy ⊢
      tauto
    · rw [lockPred, dropLast_concat, dropLast_concat, hlast]
      rfl

theorem Leveled.flag_zero (h : Leveled m levels []) {i : ℕ} (hx : x ∈ head :: levels i) :
    (m.load x i).flag = 0 := by
  cases i with
  | zero => simpa using h.flags x hx
  | succ i => exact h.clean (i + 1) (Nat.succ_pos i) x hx

theorem searchLevel_eq (h : Leveled m levels [])
    (hlevel : levels level = before ++ (meeting ++ behind))
    (ho : Ordered m (before ++ (meeting ++ behind)))
    (hr : Range m start stop before meeting behind) (hlt : start < stop)
    (hx : x ∈ head :: (before ++ meeting.dropLast)) :
    searchLevel start stop level (m, m.cursorAt level x) =
      some (.inr (m, some (m.cursorAt level (lockPred before meeting)))) := by
  obtain ⟨earlier, before', meeting', hsplit, hbefore', hmeeting', hend⟩ :=
    exists_way behind hx
  have hseg := h.seg level
  rw [hlevel] at hseg
  have hafter := (from_lockPred hseg).2.head_eq.trans or_none
  rw [hsplit] at hseg
  obtain ⟨_, -, -, hrest⟩ := LinkedList.seg_append.mp hseg
  have hway : LinkedList.Seg (m.nextPtr · level) (some x)
      (x :: (before' ++ (meeting' ++ behind))) none := ⟨rfl, hrest⟩
  have hmem : ∀ y ∈ before' ++ (meeting' ++ behind), y ∈ head :: levels level := by
    intro y hy
    rw [hlevel, hsplit]
    simp [hy]
  have hlen : before'.length + (meeting'.length + behind.length) < m.rounds := by
    have hnodes := Sublist.length_le (h.sublist level)
    have hall := congrArg length hsplit
    have hfew := h.threaded.length_lt
    rw [hlevel] at hnodes
    simp only [length_cons, length_append] at hall hnodes
    unfold rounds
    omega
  have hflags : ∀ y ∈ before' ++ (meeting' ++ behind), (m.load y level).flag = 0 :=
    fun y hy => h.flag_zero (hmem y hy)
  have hlater : ∀ y ∈ meeting' ++ behind, start < (m.nodes y).stop := by
    intro y hy
    refine hr.start_lt ho hlt ?_
    rcases mem_append.mp hy with hy | hy
    · exact mem_append_left _ (hmeeting' y hy)
    · exact mem_append_right _ hy
  have hphase1 := run_passBefore hway hflags (fun y hy => hr.before y (hbefore' y hy)) hlater
    (show before'.length < m.rounds by omega)
  have hphase2 := run_passMeeting hway.from_last
    (fun y hy => hflags y (mem_append_right _ hy))
    (fun y hy => hr.meeting y (hmeeting' y hy)) hr.behind
    (show meeting'.length < m.rounds by omega)
  rw [hend] at hphase2
  have hnext : (m.cursorAt level (lockPred before meeting)).raw.node =
      (meeting.getLast?.toList ++ behind).head? := hafter
  simp only [searchLevel, hphase1, hphase2, bind_eq_bind, bind_some, hnext]
  cases hfound : (meeting.getLast?.toList ++ behind).head? with
  | none => rfl
  | some y =>
    have hy := mem_of_mem_head? (mem_def.mpr hfound)
    have hstop : start < (m.nodes y).stop := by
      refine hr.start_lt ho hlt ?_
      rcases mem_append.mp hy with hlast | hb
      · exact mem_append_left _ (mem_of_mem_getLast? (by simpa using hlast))
      · exact mem_append_right _ hb
    simp only [Nat.not_le.mpr hstop, and_false, if_false]
    split_ifs <;> rfl

/-- Where the search of a range may enter a level: at the sentinel, before the range, or at a
node with one behind it that starts before the end of the range. -/
def Enters (m : VmaMap) (start stop : ℕ) (ids : List NodeId) (x : NodeId) : Prop :=
  x = head ∨ x ∈ ids ∧ ((m.nodes x).stop ≤ start ∨
    ∃ y ∈ ids, (m.nodes x).stop ≤ (m.nodes y).start ∧ (m.nodes y).start < stop)

theorem Enters.mono {ids ids' : List NodeId} (h : Enters m start stop ids x) (hsub : ids ⊆ ids') :
    Enters m start stop ids' x := by
  rcases h with rfl | ⟨hx, hstop | ⟨y, hy, hxy⟩⟩
  · exact .inl rfl
  · exact .inr ⟨hsub hx, .inl hstop⟩
  · exact .inr ⟨hsub hx, .inr ⟨y, hsub hy, hxy⟩⟩

theorem enters_iff (ho : Ordered m (before ++ (meeting ++ behind)))
    (hr : Range m start stop before meeting behind) (hlt : start < stop) :
    Enters m start stop (before ++ (meeting ++ behind)) x ↔
      x ∈ head :: (before ++ meeting.dropLast) := by
  obtain ⟨-, htail, -⟩ := pairwise_append.mp ho.sorted
  obtain ⟨hsorted, -, -⟩ := pairwise_append.mp htail
  rw [mem_cons, mem_append]
  constructor
  · rintro (rfl | ⟨hx, hends⟩)
    · exact .inl rfl
    have hxlt := ho.nonempty x hx
    by_cases hbefore : (m.nodes x).stop ≤ start
    · rcases mem_append.mp hx with hx | hx
      · exact .inr (.inl hx)
      · have := hr.start_lt ho hlt hx
        omega
    · obtain ⟨y, hy, hxy, hylt⟩ := hends.resolve_left hbefore
      -- both nodes meet the range, and the first is not the last of those that do
      have hmeets : ∀ z ∈ before ++ (meeting ++ behind), start < (m.nodes z).stop →
          (m.nodes z).start < stop → z ∈ meeting := by
        intro z hz hzstart hzstop
        simp only [mem_append] at hz
        rcases hz with hz | hz | hz
        · have := hr.before z hz
          omega
        · exact hz
        · have := hr.behind z hz
          omega
      have hylen := ho.nonempty y hy
      have hxm := hmeets x hx (by omega) (by omega)
      have hym := hmeets y hy (by omega) hylt
      refine .inr (.inr ?_)
      obtain ⟨init, last, rfl⟩ := eq_concat_of_mem hxm
      rw [dropLast_concat]
      rcases mem_append.mp hxm with hinit | hlast
      · exact hinit
      · obtain rfl := mem_singleton.mp hlast
        rcases mem_append.mp hym with hinit | hlast
        · have := (pairwise_append.mp hsorted).2.2 y hinit x (by simp)
          omega
        · obtain rfl := mem_singleton.mp hlast
          omega
  · rintro (rfl | hx | hx)
    · exact .inl rfl
    · exact .inr ⟨by simp [hx], .inl (hr.before x hx)⟩
    · obtain ⟨init, last, rfl⟩ := eq_concat_of_mem ((dropLast_sublist _).subset hx)
      rw [dropLast_concat] at hx
      have hxy := (pairwise_append.mp hsorted).2.2 x hx last (by simp)
      exact .inr ⟨by simp [hx], .inr ⟨last, by simp, hxy, (hr.meeting last (by simp)).2⟩⟩

theorem lockPred_mem (before meeting : List NodeId) :
    lockPred before meeting ∈ head :: (before ++ meeting.dropLast) := by
  unfold lockPred
  obtain hnil | ⟨init, last, hlast⟩ := eq_nil_or_concat' meeting.dropLast
  · rw [hnil]
    obtain rfl | ⟨l, y, rfl⟩ := eq_nil_or_concat' before <;> simp
  · rw [hlast]
    simp

section

variable (h : Leveled m levels []) (hzero : levels 0 = before ++ (meeting ++ behind))
  (ho : Ordered m (levels 0)) (hr : Range m start stop before meeting behind) (hlt : start < stop)
include h hzero ho hr hlt

theorem predSuccBelow_spec (hx : Enters m start stop (levels level) x) (ps : PredSucc) :
    ∃ ps', predSuccBelow start stop (level + 1) m x ps = some (m, some ps') ∧
      ps'.preds 0 = lockPred before meeting := by
  induction level generalizing x ps with
  | zero =>
    have htall : ¬ m.height ≤ 0 := by
      have := h.threaded.tall
      omega
    rw [hzero] at ho hx
    have hsearch := searchLevel_eq h hzero ho hr hlt ((enters_iff ho hr hlt).mp hx)
    refine ⟨ps.set 0 (lockPred before meeting) (m.succ (lockPred before meeting)), ?_, rfl⟩
    rw [predSuccBelow, if_neg htall]
    have hrun : run (searchLevel start stop 0) m.rounds (m, ⟨x, m.load x 0⟩) =
        some (m, some (m.cursorAt 0 (lockPred before meeting))) :=
      run_done hsearch m.rounds_pos
    rw [hrun]
    rfl
  | succ level ih =>
    rw [predSuccBelow]
    split_ifs
    · exact ih (hx.mono (h.nested level).subset) _
    · obtain ⟨before', meeting', behind', hlevel, hr'⟩ :=
        (ho.sublist (h.sublist (level + 1))).split_range start stop
      have ho' := ho.sublist (h.sublist (level + 1))
      rw [hlevel] at ho' hx
      have hsearch := searchLevel_eq h hlevel ho' hr' hlt ((enters_iff ho' hr' hlt).mp hx)
      have hrun : run (searchLevel start stop (level + 1)) m.rounds
          (m, ⟨x, m.load x (level + 1)⟩) =
          some (m, some (m.cursorAt (level + 1) (lockPred before' meeting'))) :=
        run_done hsearch m.rounds_pos
      rw [hrun]
      have hnext := (enters_iff ho' hr' hlt).mpr (lockPred_mem before' meeting')
      rw [← hlevel] at hnext
      exact ih (hnext.mono (h.nested level).subset) _

theorem getPredSuccConcurrent_spec :
    ∃ ps, m.getPredSuccConcurrent start stop = some (m, ps) ∧
      ps.preds 0 = lockPred before meeting := by
  have hhead : Enters m start stop (levels 15) head := .inl rfl
  obtain ⟨ps, hps, hpred⟩ :=
    predSuccBelow_spec h hzero ho hr hlt hhead ⟨fun _ => head, fun _ => none⟩
  refine ⟨ps, run_done ?_ m.rounds_pos, hpred⟩
  rw [show maxHeight = 15 + 1 from rfl, hps]
  rfl

end

theorem exists_lockPred_split (before meeting : List NodeId) :
    ∃ earlier, ∀ tail, head :: (before ++ (meeting.dropLast ++ tail)) =
      earlier ++ lockPred before meeting :: tail := by
  obtain ⟨l₁, h₁⟩ := LinkedList.exists_split_getLastD head before
  obtain ⟨l₂, h₂⟩ := LinkedList.exists_split_getLastD (before.getLastD head) meeting.dropLast
  refine ⟨l₁ ++ l₂, fun tail => ?_⟩
  rw [h₁, h₂, append_assoc]
  rfl

theorem lockPred_split {earlier : List NodeId}
    (h : ∀ tail, head :: (before ++ (meeting.dropLast ++ tail)) =
      earlier ++ lockPred before meeting :: tail) (behind : List NodeId) :
    head :: (before ++ (meeting ++ behind)) =
      earlier ++ lockPred before meeting :: (meeting.getLast?.toList ++ behind) := by
  rw [← h, dropLast_append_last]

def setFlag (m : VmaMap) (x : NodeId) (flag : BitVec 2) : VmaMap :=
  m.store x 0 ⟨m.nextPtr x 0, flag⟩

theorem Frame.setFlag (m : VmaMap) (x : NodeId) (flag : BitVec 2) : Frame m (m.setFlag x flag) :=
  Frame.store m x 0 _

theorem Writes.setFlag {S : NodeId → ℕ → Prop} (hS : S x 0) (m : VmaMap) (flag : BitVec 2) :
    Writes S m (m.setFlag x flag) :=
  Writes.store hS m _

theorem succ_setFlag (m : VmaMap) (x : NodeId) (flag : BitVec 2) :
    (m.setFlag x flag).succ = m.succ := by
  funext y
  simp only [succ, nextPtr, setFlag, load_store]
  split_ifs with h
  · rw [h.1]
  · rfl

def SameTally (m m' : VmaMap) : Prop := m'.len = m.len ∧ m'.retired = m.retired

theorem SameTally.refl (m : VmaMap) : SameTally m m := ⟨rfl, rfl⟩

theorem SameTally.trans {m₁ m₂ m₃ : VmaMap} (h : SameTally m₁ m₂) (h' : SameTally m₂ m₃) :
    SameTally m₁ m₃ := ⟨h'.1.trans h.1, h'.2.trans h.2⟩

theorem Leveled.setFlag {locked' : List NodeId} (h : Leveled m levels locked) {flag : BitVec 2}
    (hflags : ∀ y ∈ head :: levels 0,
      (if y = x then flag else (m.load y 0).flag) =
      if y ∈ locked' then lockedBit else 0) : Leveled (m.setFlag x flag) levels locked' where
  threaded := by
    refine ⟨?_, h.threaded.nodup, h.threaded.allocated, h.threaded.tall⟩
    rw [succ_setFlag]
    exact h.threaded.links
  flags y hy := by
    rw [← hflags y hy]
    simp only [VmaMap.setFlag, load_store]
    by_cases hyx : y = x <;> simp [hyx]
  links i hi := (h.links i hi).congr fun y _ => by
    simp only [nextPtr, VmaMap.setFlag, load_store]
    rw [if_neg (by omega)]
  clean i hi y hy := by
    simp only [VmaMap.setFlag, load_store]
    rw [if_neg (by omega)]
    exact h.clean i hi y hy
  nested := h.nested
  towers i hi y hy := by
    rw [(Frame.setFlag m x flag).tower]
    exact h.towers i hi y hy

theorem lockNext_done (h : ∀ y ∈ m.succ pred, stop ≤ (m.nodes y).start) :
    lockNext start stop (m, pred, locked) = some (.inr (m, locked)) := by
  simp only [lockNext]
  cases hnext : (m.load pred 0).node with
  | none => rfl
  | some y => exact if_pos (h y (mem_def.mpr hnext))

theorem lockNext_lock (hnext : m.succ pred = some y)
    (hflag : (m.load y 0).flag = 0) (hmeets : start < (m.nodes y).stop ∧ (m.nodes y).start < stop) :
    lockNext start stop (m, pred, locked) =
      some (.inl (m.setFlag y lockedBit, y, locked ++ [y])) := by
  have hnext : (m.load pred 0).node = some y := hnext
  have hstop : ¬ ((m.setFlag y lockedBit).nodes y).stop ≤ start := by
    rw [(Frame.setFlag m y _).stop]
    omega
  have hcas : m.casNext y 0 (m.load y 0) ⟨(m.load y 0).node, lockedBit⟩ =
      (true, m.setFlag y lockedBit) := if_pos rfl
  simp only [lockNext, hnext, hcas]
  simp [Nat.not_le.mpr hmeets.2, isInvalidated, hflag, hstop]

theorem Range.frame {m' : VmaMap} (h : Range m start stop before meeting behind)
    (hf : Frame m m') : Range m' start stop before meeting behind where
  before x hx := by rw [hf.stop]; exact h.before x hx
  meeting x hx := by rw [hf.stop, hf.start]; exact h.meeting x hx
  behind x hx := by rw [hf.start]; exact h.behind x hx

theorem run_lockNext (h : Leveled m levels [lockPred before meeting])
    (hzero : levels 0 = before ++ (meeting ++ behind))
    (hr : Range m start stop before meeting behind) :
    ∃ m', run (lockNext start stop) m.rounds
        (m, lockPred before meeting, [lockPred before meeting]) =
        some (m', lockPred before meeting :: meeting.getLast?.toList) ∧
      Writes (fun y i => y ∈ lockPred before meeting :: meeting.getLast?.toList ∧ i = 0) m m' ∧
      SameTally m m' ∧
      Leveled m' levels (lockPred before meeting :: meeting.getLast?.toList) := by
  have hlinks := h.threaded.links
  rw [hzero] at hlinks
  have hlinks := from_lockPred hlinks
  have hbehind : ∀ y ∈ behind.head?, stop ≤ (m.nodes y).start :=
    fun y hy => hr.behind y (mem_of_mem_head? hy)
  cases hlast : meeting.getLast? with
  | none =>
    rw [hlast] at hlinks
    have hsucc := hlinks.2.head_eq.trans or_none
    exact ⟨m, run_done (lockNext_done fun y hy => hbehind y (hsucc ▸ hy)) m.rounds_pos,
      Writes.refl _ m, SameTally.refl m, h⟩
  | some y =>
    rw [hlast] at hlinks
    obtain ⟨-, hsucc, hrest⟩ := hlinks
    have hy : y ∈ meeting := mem_of_mem_getLast? (mem_def.mpr hlast)
    have hmem : y ∈ head :: levels 0 := by simp [hzero, hy]
    have hne : y ≠ lockPred before meeting := by
      obtain ⟨earlier, hsplit⟩ := exists_lockPred_split before meeting
      have hnodup := h.threaded.nodup
      rw [hzero, lockPred_split hsplit, hlast] at hnodup
      have := (nodup_append.mp hnodup).2.1
      rintro rfl
      simp at this
    have hflag : (m.load y 0).flag = 0 := by simpa [hne] using h.flags y hmem
    have hsucc' : (m.setFlag y lockedBit).succ y = behind.head? := by
      rw [succ_setFlag]
      exact hrest.head_eq.trans or_none
    have hwrites : Writes (fun z i => z ∈ [lockPred before meeting, y] ∧ i = 0) m
        (m.setFlag y lockedBit) := Writes.setFlag ⟨by simp, rfl⟩ m _
    refine ⟨m.setFlag y lockedBit, ?_, hwrites, ⟨rfl, rfl⟩,
      h.setFlag fun z hz => ?_⟩
    · obtain ⟨k, hk⟩ : ∃ k, m.fresh = k + 1 :=
        Nat.exists_eq_add_one.mpr (Nat.zero_lt_of_lt h.threaded.length_lt)
      have hk : m.rounds = k + 1 + 1 := congrArg (· + 1) hk
      rw [hk, run_next (lockNext_lock hsucc hflag (hr.meeting y hy))]
      refine run_done (lockNext_done fun z hz => ?_) (Nat.succ_pos k)
      rw [hwrites.frame.start]
      exact hbehind z (hsucc' ▸ hz)
    · have := h.flags z hz
      by_cases hzy : z = y <;> simp_all

theorem Leveled.unlockList {xs : List NodeId} (h : Leveled m levels locked)
    (hsub : ∀ y ∈ locked, y ∈ xs) :
    Frame m (m.unlockList xs) ∧ SameTally m (m.unlockList xs) ∧
      Leveled (m.unlockList xs) levels [] := by
  induction xs generalizing m locked with
  | nil =>
    obtain rfl : locked = [] :=
      eq_nil_iff_forall_not_mem.mpr fun y hy => by simpa using hsub y hy
    exact ⟨Frame.refl m, SameTally.refl m, h⟩
  | cons x xs ih =>
    have hfirst : Leveled (m.setFlag x 0) levels (locked.filter (· ≠ x)) := by
      refine h.setFlag fun y hy => ?_
      have := h.flags y hy
      by_cases hyx : y = x <;> simp_all
    have hframe := Frame.setFlag m x 0
    obtain ⟨hframe', htally, hleveled⟩ := ih hfirst fun y hy => by
      obtain ⟨hy, hne⟩ := mem_filter.mp hy
      simpa [of_decide_eq_true hne] using hsub y hy
    exact ⟨hframe.trans hframe', htally, hleveled⟩

end

end EchOS.Memory.VmaMap
