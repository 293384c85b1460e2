import EchOS.Memory.VmaInterval

/-! What a VMA map stands for: its VMAs in order, and what they say about an address. -/

namespace EchOS.Memory

open Vma List VmaKind

def VmaKind.advance : VmaKind → ℕ → VmaKind
  | .anonymous id, _ => .anonymous id
  | .image segStart fileOffset fileSize, bytes => .image segStart (fileOffset + bytes) fileSize
  | .file inode fileOffset fileSize, bytes => .file inode (fileOffset + bytes) fileSize

/-- What a VMA says about one of its addresses. -/
structure Mapping where
  flags : BitVec 64
  kind : VmaKind
  cow : Bool
  shared : Bool
  locked : Bool
  deriving DecidableEq

namespace Vma

def mappingAt (vma : Vma) (addr : ℕ) : Mapping :=
  ⟨vma.flags, vma.kind.advance (addr - vma.start), vma.cow, vma.shared, vma.locked⟩

def meets (vma : Vma) (start stop : ℕ) : Bool := vma.start < stop && start < vma.stop

def covers (vma : Vma) (addr : ℕ) : Bool := vma.start ≤ addr && addr < vma.stop

end Vma

inductive VmaKind.Identity
  | anonymous (id : ℕ)
  | image (segStart : ℕ)
  | file (inode : ℕ)
  deriving DecidableEq

def VmaKind.identity : VmaKind → Identity
  | .anonymous id => .anonymous id
  | .image segStart _ _ => .image segStart
  | .file inode _ _ => .file inode

def VmaKind.fileOffset : VmaKind → ℕ
  | .anonymous _ => 0
  | .image _ fileOffset _ => fileOffset
  | .file _ fileOffset _ => fileOffset

/-- A mapping without the size of the backing object. -/
structure View where
  flags : BitVec 64
  identity : Identity
  fileOffset : ℕ
  cow : Bool
  shared : Bool
  locked : Bool
  deriving DecidableEq

def Mapping.view (mapping : Mapping) : View :=
  ⟨mapping.flags, mapping.kind.identity, mapping.kind.fileOffset, mapping.cow, mapping.shared,
    mapping.locked⟩

def Vma.viewAt (vma : Vma) (addr : ℕ) : View := (vma.mappingAt addr).view

/-- The offsets of the bytes of a VMA are below `2 ^ 64`, as its bounds are. -/
structure Vma.Fits (vma : Vma) : Prop where
  stop_lt : vma.stop < 2 ^ 64
  offset_lt : vma.kind.fileOffset + (vma.stop - vma.start) < 2 ^ 64

/-- VMAs that are not empty, ascend and do not meet. -/
structure Tidy (vmas : List Vma) : Prop where
  nonempty : ∀ vma ∈ vmas, vma.start < vma.stop
  sorted : vmas.Pairwise fun v w => v.stop ≤ w.start

def vmaAt (vmas : List Vma) (addr : ℕ) : Option Vma := vmas.find? (·.covers addr)

/-- At most one pair of neighbours is merged. -/
inductive Merges : List Vma → List Vma → Prop
  | none (vmas : List Vma) : Merges vmas vmas
  | pair (before behind : List Vma) {left right : Vma} (h : left.canMergeWith right) :
    Merges (before ++ left :: right :: behind)
      (before ++ VmaMap.mergedVma left right :: behind)

/-- Insertion of a VMA: whether it is taken, and the VMAs then. -/
inductive Inserts (vma : Vma) : List Vma → Bool → List Vma → Prop
  | refused {vmas : List Vma}
    (h : vma.stop ≤ vma.start ∨ ∃ w ∈ vmas, w.meets vma.start vma.stop) :
    Inserts vma vmas false vmas
  | taken {before behind vmas' : List Vma} (htidy : Tidy (before ++ vma :: behind))
    (hmerges : Merges (before ++ vma :: behind) vmas') :
    Inserts vma (before ++ behind) true vmas'

theorem vmaAt_append (vmas vmas' : List Vma) (addr : ℕ) :
    vmaAt (vmas ++ vmas') addr = (vmaAt vmas addr).or (vmaAt vmas' addr) :=
  List.find?_append

variable {vmas : List Vma} {vma : Vma}

theorem vmaAt_eq_none {addr : ℕ} (h : ∀ v ∈ vmas, ¬ v.covers addr) : vmaAt vmas addr = none :=
  List.find?_eq_none.mpr h

theorem vmaAt_cons (vma : Vma) (vmas : List Vma) (addr : ℕ) :
    vmaAt (vma :: vmas) addr = if vma.covers addr then some vma else vmaAt vmas addr := by
  unfold vmaAt
  cases h : vma.covers addr <;> simp [h]

theorem Vma.covers_iff (vma : Vma) (addr : ℕ) :
    vma.covers addr ↔ vma.start ≤ addr ∧ addr < vma.stop := by
  simp [covers]

theorem Vma.meets_iff (vma : Vma) (start stop : ℕ) :
    vma.meets start stop ↔ vma.start < stop ∧ start < vma.stop := by
  simp [meets]

section

variable {left right : Vma}

theorem Vma.canMergeWith_iff : left.canMergeWith right ↔
    left.stop = right.start ∧ left.flags = right.flags ∧ left.cow = right.cow ∧
      left.shared = right.shared ∧ left.locked = right.locked ∧
      left.kind.identity = right.kind.identity ∧
      (right.kind.fileOffset = left.expectedOffset left.kind.fileOffset ∨
        ∃ id, left.kind = .anonymous id) := by
  unfold canMergeWith
  cases left.kind <;> cases right.kind <;>
    simp [identity, fileOffset, and_assoc]

theorem VmaKind.identity_advance (kind : VmaKind) (bytes : ℕ) :
    (kind.advance bytes).identity = kind.identity := by
  cases kind <;> rfl

theorem viewAt_mergedVma_left (h : left.canMergeWith right) (addr : ℕ) :
    (VmaMap.mergedVma left right).viewAt addr = left.viewAt addr := by
  obtain ⟨-, -, hcow, hshared, hlocked, -⟩ := canMergeWith_iff.mp h
  simp [viewAt, mappingAt, Mapping.view, VmaMap.mergedVma, ← hcow, ← hshared, ← hlocked]

theorem viewAt_mergedVma_right (h : left.canMergeWith right) (hleft : left.Fits)
    (hne : left.start < left.stop) {addr : ℕ} (haddr : right.start ≤ addr) :
    (VmaMap.mergedVma left right).viewAt addr = right.viewAt addr := by
  obtain ⟨hadjacent, hflags, hcow, hshared, hlocked, hidentity, hoffset⟩ :=
    canMergeWith_iff.mp h
  have hexpected : left.expectedOffset left.kind.fileOffset =
      left.kind.fileOffset + (left.stop - left.start) := by
    have := hleft.offset_lt
    unfold expectedOffset saturatingAdd
    omega
  rw [hexpected] at hoffset
  have hfile : (left.kind.advance (addr - left.start)).fileOffset =
      (right.kind.advance (addr - right.start)).fileOffset := by
    cases hl : left.kind <;> cases hr : right.kind <;>
      simp only [hl, hr, identity, fileOffset, advance, reduceCtorEq,
        exists_false, or_false] at hidentity hoffset ⊢ <;> omega
  simp only [viewAt, mappingAt, Mapping.view, VmaMap.mergedVma, hflags, hcow, hshared,
    hlocked, Bool.and_self, hfile, identity_advance, hidentity]

theorem Vma.Fits.mergedVma (h : left.canMergeWith right) (hright : right.Fits)
    (hne : left.start < left.stop) (hne' : right.start < right.stop) :
    (VmaMap.mergedVma left right).Fits where
  stop_lt := hright.stop_lt
  offset_lt := by
    obtain ⟨hadjacent, -, -, -, -, -, hoffset⟩ := canMergeWith_iff.mp h
    have h₂ := hright.offset_lt
    have h₃ := hright.stop_lt
    change left.kind.fileOffset + (right.stop - left.start) < 2 ^ 64
    rcases hoffset with hoffset | ⟨id, hanonymous⟩
    · unfold expectedOffset saturatingAdd at hoffset
      omega
    · rw [hanonymous]
      simp only [fileOffset]
      omega

end

def viewOf (vmas : List Vma) (addr : ℕ) : Option View :=
  (vmaAt vmas addr).map (·.viewAt addr)

theorem viewOf_append (vmas vmas' : List Vma) (addr : ℕ) :
    viewOf (vmas ++ vmas') addr = (viewOf vmas addr).or (viewOf vmas' addr) := by
  rw [viewOf, vmaAt_append, Option.map_or]
  rfl

theorem viewOf_cons (vma : Vma) (vmas : List Vma) (addr : ℕ) :
    viewOf (vma :: vmas) addr =
      if vma.covers addr then some (vma.viewAt addr) else viewOf vmas addr := by
  rw [viewOf, vmaAt_cons]
  split_ifs <;> rfl

variable {before behind : List Vma}

theorem viewOf_place (h : Tidy (before ++ vma :: behind)) (addr : ℕ) :
    viewOf (before ++ vma :: behind) addr =
      if vma.covers addr then some (vma.viewAt addr) else viewOf (before ++ behind) addr := by
  rw [viewOf_append, viewOf_append, viewOf_cons]
  split_ifs with hcovers
  · have hbefore : viewOf before addr = none := by
      rw [viewOf, vmaAt_eq_none, Option.map_none]
      intro v hv hv'
      have hle := (pairwise_append.mp h.sorted).2.2 v hv vma mem_cons_self
      rw [covers_iff] at hv' hcovers
      omega
    rw [hbefore, Option.none_or]
  · rfl

namespace Merges

variable {vmas vmas' : List Vma}

theorem viewOf_eq (h : Merges vmas vmas') (ht : Tidy vmas) (hfits : ∀ v ∈ vmas, v.Fits)
    (addr : ℕ) : viewOf vmas' addr = viewOf vmas addr := by
  cases h with
  | none => rfl
  | @pair before behind left right h =>
    have hleft := ht.nonempty left (by simp)
    have hright := ht.nonempty right (by simp)
    obtain ⟨hadjacent, -⟩ := canMergeWith_iff.mp h
    rw [viewOf_append, viewOf_append, viewOf_cons, viewOf_cons, viewOf_cons]
    have hcovers : (VmaMap.mergedVma left right).covers addr ↔
        left.covers addr ∨ right.covers addr := by
      simp only [covers_iff, VmaMap.mergedVma]
      omega
    by_cases hl : left.covers addr
    · rw [if_pos (hcovers.mpr (.inl hl)), if_pos hl, viewAt_mergedVma_left h]
    · by_cases hr : right.covers addr
      · rw [if_pos (hcovers.mpr (.inr hr)), if_neg hl, if_pos hr,
          viewAt_mergedVma_right h (hfits left (by simp)) hleft ((covers_iff _ _).mp hr).1]
      · rw [if_neg (fun h => (hcovers.mp h).elim hl hr), if_neg hl, if_neg hr]

theorem fits (h : Merges vmas vmas') (ht : Tidy vmas) (hfits : ∀ v ∈ vmas, v.Fits) :
    ∀ v ∈ vmas', v.Fits := by
  cases h with
  | none => exact hfits
  | @pair before behind left right h =>
    intro v hv
    rcases mem_append.mp hv with hv | hv
    · exact hfits v (mem_append_left _ hv)
    · rcases mem_cons.mp hv with rfl | hv
      · exact Fits.mergedVma h (hfits right (by simp))
          (ht.nonempty left (by simp)) (ht.nonempty right (by simp))
      · exact hfits v (by simp [hv])

end Merges

theorem fits_place (hvma : vma.Fits) (h : ∀ v ∈ before ++ behind, v.Fits) :
    ∀ v ∈ before ++ vma :: behind, v.Fits := by
  intro v hv
  rcases mem_append.mp hv with hv | hv
  · exact h v (mem_append_left _ hv)
  · rcases mem_cons.mp hv with rfl | hv
    · exact hvma
    · exact h v (mem_append_right _ hv)

theorem Tidy.not_meets (h : Tidy (before ++ vma :: behind)) :
    ∀ w ∈ before ++ behind, ¬ w.meets vma.start vma.stop := by
  intro w hw hmeets
  obtain ⟨-, htail, hcross⟩ := pairwise_append.mp h.sorted
  rw [meets_iff] at hmeets
  rcases mem_append.mp hw with hw | hw
  · have := hcross w hw vma mem_cons_self
    omega
  · have := (pairwise_cons.mp htail).1 w hw
    omega

namespace Inserts

variable {vma : Vma} {vmas vmas' : List Vma} {taken : Bool}

theorem taken_iff (h : Inserts vma vmas taken vmas') :
    taken = true ↔ vma.start < vma.stop ∧ ∀ w ∈ vmas, ¬ w.meets vma.start vma.stop := by
  cases h with
  | refused h =>
    refine ⟨fun h => Bool.noConfusion h, fun ⟨hlt, hfree⟩ => ?_⟩
    rcases h with h | ⟨w, hw, hmeets⟩
    · exact absurd hlt (Nat.not_lt.mpr h)
    · exact absurd hmeets (hfree w hw)
  | @taken before behind _ htidy =>
    exact ⟨fun _ => ⟨htidy.nonempty vma (by simp), htidy.not_meets⟩, fun _ => rfl⟩

theorem viewOf_eq (h : Inserts vma vmas taken vmas') (hvma : vma.Fits)
    (hfits : ∀ v ∈ vmas, v.Fits) (addr : ℕ) :
    viewOf vmas' addr = if taken = true ∧ vma.start ≤ addr ∧ addr < vma.stop then
      some (vma.viewAt addr) else viewOf vmas addr := by
  cases h with
  | refused => simp
  | @taken before behind _ htidy hmerges =>
    rw [hmerges.viewOf_eq htidy (fits_place hvma hfits), viewOf_place htidy]
    simp only [covers_iff, true_and]

theorem fits (h : Inserts vma vmas taken vmas') (hvma : vma.Fits) (hfits : ∀ v ∈ vmas, v.Fits) :
    ∀ v ∈ vmas', v.Fits := by
  cases h with
  | refused => exact hfits
  | @taken before behind _ htidy hmerges =>
    exact hmerges.fits htidy (fits_place hvma hfits)

end Inserts

theorem Tidy.length_le (h : Tidy vmas) {bound : ℕ}
    (hbound : ∀ v ∈ vmas, v.stop ≤ bound) : vmas.length ≤ bound := by
  have hfrom : ∀ low, (∀ v ∈ vmas, low ≤ v.start) → vmas.length ≤ bound - low := by
    -- each VMA takes at least the address it starts at
    induction vmas with
    | nil => exact fun low _ => Nat.zero_le _
    | cons v vmas ih =>
      intro low hlow
      obtain ⟨hnext, hsorted⟩ := pairwise_cons.mp h.sorted
      have hrest := ih ⟨fun w hw => h.nonempty w (mem_cons_of_mem v hw), hsorted⟩
        (fun w hw => hbound w (mem_cons_of_mem v hw)) v.stop hnext
      have h₁ := h.nonempty v mem_cons_self
      have h₂ := hbound v mem_cons_self
      have h₃ := hlow v mem_cons_self
      rw [length_cons]
      omega
  exact hfrom 0 fun v _ => Nat.zero_le _

section

variable {vmas : List Vma} {vma : Vma} {addr : ℕ}

theorem Tidy.vmaAt_eq (h : Tidy vmas) (hvma : vma ∈ vmas) (hcovers : vma.covers addr) :
    vmaAt vmas addr = some vma := by
  obtain ⟨before, behind, rfl⟩ := append_of_mem hvma
  have hbefore : vmaAt before addr = none := by
    refine vmaAt_eq_none fun v hv hv' => ?_
    have hle := (pairwise_append.mp h.sorted).2.2 v hv vma mem_cons_self
    rw [covers_iff] at hv' hcovers
    omega
  rw [vmaAt_append, hbefore, vmaAt_cons, if_pos hcovers]
  rfl

theorem Tidy.sublist {vmas' : List Vma} (h : Tidy vmas) (hs : vmas'.Sublist vmas) : Tidy vmas' :=
  ⟨fun v hv => h.nonempty v (hs.subset hv), h.sorted.sublist hs⟩

end

/-- The VMAs before a range, those that meet it and those behind it. -/
structure Around (start stop : ℕ) (before meeting behind : List Vma) : Prop where
  tidy : Tidy (before ++ (meeting ++ behind))
  before : ∀ v ∈ before, v.stop ≤ start
  meeting : ∀ v ∈ meeting, v.start < stop ∧ start < v.stop
  behind : ∀ v ∈ behind, stop ≤ v.start

theorem Around.filter_meets {start stop : ℕ} {before meeting behind : List Vma}
    (h : Around start stop before meeting behind) :
    (before ++ (meeting ++ behind)).filter (·.meets start stop) = meeting := by
  have hbefore : before.filter (·.meets start stop) = [] := by
    refine filter_eq_nil_iff.mpr fun v hv => ?_
    have := h.before v hv
    rw [meets_iff]
    omega
  have hbehind : behind.filter (·.meets start stop) = [] := by
    refine filter_eq_nil_iff.mpr fun v hv => ?_
    have := h.behind v hv
    rw [meets_iff]
    omega
  have hmeeting := filter_eq_self.mpr fun v hv => (meets_iff _ _ _).mpr (h.meeting v hv)
  rw [filter_append, filter_append, hbefore, hmeeting, hbehind, nil_append,
    append_nil]

end EchOS.Memory
