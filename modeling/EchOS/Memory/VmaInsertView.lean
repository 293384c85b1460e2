import EchOS.Memory.VmaRemove

/-! What an insertion does to the addresses of a VMA map, and to the number of its VMAs. -/

namespace EchOS.Memory.VmaMap

def view (m : VmaMap) (addr : ℕ) : Option (Option View) :=
  (m.mapping addr).map fun found => found.map Mapping.view

namespace Settled

variable {m : VmaMap} {levels : ℕ → List NodeId}

theorem view_eq (h : Settled m levels) (addr : ℕ) :
    m.view addr = some (viewOf (m.vmas (levels 0)) addr) := by
  rw [view, h.mapping_eq, Option.map_some, Option.map_map]
  rfl

theorem len_eq (h : Settled m levels) (hfits : ∀ v ∈ m.vmas (levels 0), v.Fits) :
    m.len.toNat = (m.vmas (levels 0)).length := by
  have hle := h.ordered.tidy.length_le fun v hv => Nat.le_sub_one_of_lt (hfits v hv).stop_lt
  have hlen : (m.vmas (levels 0)).length = (levels 0).length := List.length_map _
  rw [h.sound.counted, hlen]
  exact Nat.mod_eq_of_lt (by omega)

end Settled

/-- Insertion after any insertions: a VMA is taken just when it is not empty and meets no other;
if it is taken its addresses get what it says, and all others keep what they have; the number of
VMAs is kept. -/
theorem insert_exact (inserts : List (BitVec 64 × Vma))
    (hinserts : ∀ insert ∈ inserts, insert.2.Fits)
    (seed : BitVec 64) {v : Vma} (hv : v.Fits) :
    ∃ m vmas taken m' vmas', new.insertAll inserts = some m ∧ m.collectAll = some vmas ∧
      m.insert seed v = some (taken, m') ∧ m'.collectAll = some vmas' ∧
      (taken = true ↔ v.start < v.stop ∧ ∀ w ∈ vmas, ¬ w.meets v.start v.stop) ∧
      (∀ addr, m'.view addr = if taken = true ∧ v.start ≤ addr ∧ addr < v.stop then
        some (some (v.viewAt addr)) else m.view addr) ∧
      m'.len.toNat = vmas'.length := by
  obtain ⟨m, levels, hall, h, hflat, hfits⟩ :=
    insertAll_invariant (P := fun vmas => ∀ v ∈ vmas, v.Fits)
      (fun insert hin _ _ _ hvmas hinsert => hinsert.fits (hinserts insert hin) hvmas)
      settled_new rfl (fun v hv => nomatch hv)
  obtain ⟨taken, m', levels', hinsert, h', -, hspec⟩ :=
    h.insert (fun _ _ => mergesCleanly_of_flat hflat v) seed
  refine ⟨m, _, taken, m', _, hall, h.collectAll_eq, hinsert, h'.collectAll_eq, hspec.taken_iff,
    fun addr => ?_, h'.len_eq (hspec.fits hv hfits)⟩
  rw [h'.view_eq, h.view_eq, hspec.viewOf_eq hv hfits]
  split_ifs <;> rfl

theorem insert_exact_adjacent_pages :
    ∃ m vmas taken m' vmas',
      new.insertAll [(7, ⟨0x1000, 0x2000, 3, .file 5 0 0x3000, false, false, false⟩)] = some m ∧
      m.collectAll = some vmas ∧
      m.insert 9 ⟨0x2000, 0x3000, 3, .file 5 0x1000 0x3000, false, false, false⟩ =
        some (taken, m') ∧
      m'.collectAll = some vmas' ∧
      (taken = true ↔ 0x2000 < 0x3000 ∧ ∀ w ∈ vmas, ¬ w.meets 0x2000 0x3000) ∧
      (∀ addr, m'.view addr = if taken = true ∧ 0x2000 ≤ addr ∧ addr < 0x3000 then
        some (some (Vma.viewAt
          ⟨0x2000, 0x3000, 3, .file 5 0x1000 0x3000, false, false, false⟩ addr))
        else m.view addr) ∧
      m'.len.toNat = vmas'.length :=
  insert_exact [(7, ⟨0x1000, 0x2000, 3, .file 5 0 0x3000, false, false, false⟩)]
    (by
      intro insert hin
      obtain rfl := List.mem_singleton.mp hin
      exact ⟨by decide, by decide⟩)
    9 ⟨by decide, by decide⟩

end EchOS.Memory.VmaMap
