import EchOS.Lib.Run
import EchOS.Memory.VmaClone
import EchOS.Memory.VmaOverwrite

/-! The links of a VMA map over whole runs: which nodes a reader can come to, and what it
finds. -/

namespace EchOS.Memory.VmaMap

open List

/-- The updates of a map, with what the generator holds when they begin. A copy takes the place
of the map. -/
inductive Op
  | insert (seed : BitVec 64) (vma : Vma)
  | remove (start stop : ℕ)
  | updateFlags (seed : BitVec 64) (start stop : ℕ) (flags : BitVec 64)
  | insertOrUpdate (seed : BitVec 64) (start stop : ℕ) (vma : Vma)
  | clone (seed : BitVec 64)

def apply (m : VmaMap) : Op → Option VmaMap
  | .insert seed vma => (m.insert seed vma).map Prod.snd
  | .remove start stop => m.remove start stop
  | .updateFlags seed start stop flags => m.updateFlags seed start stop flags
  | .insertOrUpdate seed start stop vma => (m.insertOrUpdate seed start stop vma).map Prod.snd
  | .clone seed => m.clone seed

def step (m : Option VmaMap) (op : Op) : Option VmaMap := m.bind (·.apply op)

/-- Whatever a reader comes to on any level is a node of the chain that is not retired, and both
lookups find the VMA of the chain that contains the address. -/
def LinksSound (m : VmaMap) : Prop :=
  ∃ ids, LinkedList.Seg m.succ (m.succ head) ids none ∧
    (∀ level x, Reaches m level x → x ∉ m.retired ∧ (x = head ∨ x ∈ ids)) ∧
    ∀ addr, m.find addr = some (m.lookup ids addr) ∧
      m.findVmaCils addr = some (m.lookup ids addr)

/-- An insertion that is taken does not unlink a successor that is on a level above 0, and an
overwritten range meets at most one VMA, which ends in it. -/
def KeepsLinks (m : VmaMap) : Op → Prop
  | .insert _ vma => vma.start < vma.stop → ∀ vmas, m.collectAll = some vmas →
      ∀ x, x ≠ head → Reaches m 1 x → vma.canMergeWith (m.nodes x).vma →
        ∃ w ∈ vmas, w.meets vma.start vma.stop ∨ w.canMergeWith vma
  | .insertOrUpdate _ start stop _ => start < stop → ∀ vmas, m.collectAll = some vmas →
      EndsInside vmas start stop
  | _ => True

variable {m : VmaMap} {levels : ℕ → List NodeId}

theorem Settled.linksSound (h : Settled m levels) : LinksSound m := by
  have hleveled := h.sound.leveled
  refine ⟨levels 0, hleveled.threaded.links.2, fun level x hx => ?_, fun addr => ?_⟩
  · have hmem : x ∈ head :: levels 0 :=
      ((hleveled.sublist level).cons_cons head).subset (hleveled.mem_of_reaches hx)
    exact ⟨fun hretired => (h.sound.retired x hretired).2 hmem, mem_cons.mp hmem⟩
  · exact ⟨h.find_eq addr,
      findVmaCils_eq hleveled.threaded (hleveled.forward h.ordered) h.ordered addr⟩

theorem Leveled.reaches {locked : List NodeId} (h : Leveled m levels locked) {i : ℕ} {x : NodeId}
    (hx : x ∈ levels i) : Reaches m i x := by
  have hseg : ∀ (ids : List NodeId) {y : NodeId}, Reaches m i y →
      LinkedList.Seg (m.nextPtr · i) (m.nextPtr y i) ids none → ∀ x ∈ ids, Reaches m i x := by
    intro ids
    induction ids with
    | nil => exact fun _ _ x hx => nomatch hx
    | cons z ids ih =>
      intro y hy hseg x hx
      have hz := hy.next hseg.1
      rcases mem_cons.mp hx with rfl | hx
      · exact hz
      · exact ih hz hseg.2 x hx
  exact hseg (levels i) (.head i) (h.seg i).2 x hx

theorem Settled.apply (h : Settled m levels) {op : Op} (hop : KeepsLinks m op) :
    ∃ m' levels', m.apply op = some m' ∧ Settled m' levels' := by
  cases op with
  | insert seed vma =>
    have hclean : vma.start < vma.stop →
        (∀ w ∈ m.vmas (levels 0), ¬ w.meets vma.start vma.stop) → MergesCleanly m levels vma := by
      intro hlt hfree x hx hmerge
      have hhead : x ≠ head := fun heq => (nodup_cons.mp (h.sound.leveled.nodup 1)).1 (heq ▸ hx)
      obtain ⟨w, hw, hw'⟩ :=
        hop hlt _ h.collectAll_eq x hhead (h.sound.leveled.reaches hx) hmerge
      obtain ⟨y, hy, rfl⟩ := mem_map.mp hw
      exact ⟨y, hy, hw'.resolve_left (hfree _ hw)⟩
    obtain ⟨taken, m', levels', hinsert, h', -, -⟩ := h.insert hclean seed
    exact ⟨m', levels', by rw [VmaMap.apply, hinsert]; rfl, h'⟩
  | remove start stop =>
    by_cases hlt : start < stop
    · obtain ⟨before, meeting, behind, hzero, hr⟩ := h.ordered.split_range start stop
      obtain ⟨m', levels', hremove, -, h', -⟩ := h.remove hzero hr hlt
      exact ⟨m', levels', hremove, h'⟩
    · exact ⟨m, levels, if_pos (Nat.not_lt.mp hlt), h⟩
  | updateFlags seed start stop flags =>
    by_cases hlt : start < stop
    · obtain ⟨before, meeting, behind, hzero, hr⟩ := h.ordered.split_range start stop
      obtain ⟨m', levels', hupdate, h', -⟩ := h.updateFlags hzero hr hlt seed flags
      exact ⟨m', levels', hupdate, h'⟩
    · exact ⟨m, levels, if_pos (Nat.not_lt.mp hlt), h⟩
  | insertOrUpdate seed start stop vma =>
    by_cases hlt : start < stop
    · obtain ⟨m', levels', hupdate, -, -, hends⟩ := h.insertOrUpdate hlt seed vma
      refine ⟨m', levels', by rw [VmaMap.apply, hupdate]; rfl, (hends ?_).1⟩
      exact hop hlt _ h.collectAll_eq
    · refine ⟨m, levels, ?_, h⟩
      rw [VmaMap.apply, VmaMap.insertOrUpdate, if_pos (Nat.not_lt.mp hlt)]
      rfl
  | clone seed =>
    obtain ⟨m', levels', hclone, h', -⟩ := h.clone seed
    exact ⟨m', levels', hclone, h'⟩

/-- In every state of a run whose updates keep the links, the links are sound. -/
theorem linksSound_along (ops : List Op)
    (h : Run.Along step (fun s op => ∀ m, s = some m → KeepsLinks m op) (some new) ops) :
    ∀ l r, ops = l ++ r → ∃ m, Run.exec step (some new) l = some m ∧ LinksSound m := by
  rintro l r rfl
  have hkeep : ∀ s op, (∃ m levels, s = some m ∧ Settled m levels) →
      (∀ m, s = some m → KeepsLinks m op) →
      ∃ m levels, step s op = some m ∧ Settled m levels := by
    rintro s op ⟨m, levels, rfl, hm⟩ hop
    exact hm.apply (hop m rfl)
  obtain ⟨m, levels, hexec, hm⟩ := Run.Along.invariant hkeep ⟨new, _, rfl, settled_new⟩
    ((Run.along_append (some new) l r).mp h).1
  exact ⟨m, hexec, hm.linksSound⟩

theorem linksSound_along_copied_page :
    ∃ m, Run.exec step (some new)
        [.insert 7 ⟨0x1000, 0x4000, 3, .anonymous 1, false, false, false⟩, .clone 2,
          .updateFlags 5 0x2000 0x3000 1, .remove 0x1000 0x2000] = some m ∧ LinksSound m := by
  have hsteps : Run.Along step (fun s op => ∀ m, s = some m → KeepsLinks m op) (some new)
      [.insert 7 ⟨0x1000, 0x4000, 3, .anonymous 1, false, false, false⟩, .clone 2,
        .updateFlags 5 0x2000 0x3000 1, .remove 0x1000 0x2000] := by
    refine ⟨?_, fun _ _ => trivial, fun _ _ => trivial, fun _ _ => trivial, trivial⟩
    intro m hm _ vmas _ x hne hreaches
    obtain rfl : new = m := Option.some.inj hm
    -- nothing is linked in an empty map
    exact absurd (mem_singleton.mp (settled_new.sound.leveled.mem_of_reaches hreaches)) hne
  exact linksSound_along _ hsteps _ [] (append_nil _).symm

/-- The copy of a VMA is linked on level 1. A VMA inserted right before it takes it over and
retires it, and it stays linked there; and the VMA put over the middle page of three is on the
chain and is not found. -/
theorem retired_copy_reached_and_middle_page_hidden :
    (∃ m, Run.exec step (some new)
        [.insert 7 ⟨0x2000, 0x3000, 3, .anonymous 1, false, false, false⟩, .clone 2,
          .insert 9 ⟨0x1000, 0x2000, 3, .anonymous 1, false, false, false⟩] = some m ∧
      ∃ x ∈ m.retired, Reaches m 1 x) ∧
    ((Run.exec step (some new)
        [.insert 7 ⟨0x1000, 0x4000, 3, .anonymous 1, false, false, false⟩,
          .insertOrUpdate 9 0x2000 0x3000 ⟨0, 0, 1, .anonymous 2, false, false, false⟩]).map
        fun m => (m.collectAll.map (·.map Vma.start), m.find 0x2000)) =
      some (some [0x1000, 0x3000, 0x2000], some none) := by
  refine ⟨?_, by decide +kernel⟩
  obtain ⟨m, hm, x, hretired, hnext⟩ : ∃ m ∈ Run.exec step (some new)
      [.insert 7 ⟨0x2000, 0x3000, 3, .anonymous 1, false, false, false⟩, .clone 2,
        .insert 9 ⟨0x1000, 0x2000, 3, .anonymous 1, false, false, false⟩],
      ∃ x ∈ m.retired, m.nextPtr head 1 = some x := by decide +kernel
  exact ⟨m, hm, x, hretired, (Reaches.head 1).next hnext⟩

end EchOS.Memory.VmaMap
