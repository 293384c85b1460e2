import EchOS.Lib.Span
import EchOS.Memory.BitmapPmm

/-! The frame allocator used at boot, `memory/frame_allocator.rs`. Addresses have 64 bits: sums
wrap in `align_up` and saturate elsewhere. `none` is a panic, or a loop that is not done in the
rounds given. -/

namespace EchOS.Memory

open List

inductive MemoryRegionKind
  | usable | reserved | acpiReclaim | acpiNvs | framebuffer | kernel | bootloaderReclaimable
  | unknown

structure MemoryRegion where
  base : ℕ
  len : ℕ
  kind : MemoryRegionKind

namespace MemoryRegion

def span (region : MemoryRegion) : Span := ⟨region.base, region.len⟩

def isUsable (region : MemoryRegion) : Bool :=
  match region.kind with
  | .usable | .acpiReclaim | .bootloaderReclaimable => true
  | _ => false

def stop (region : MemoryRegion) : ℕ := min (region.base + region.len) (2 ^ 64 - 1)

end MemoryRegion

def alignUp (addr align : ℕ) : ℕ :=
  if align = 0 then addr else (addr + align - 1) % 2 ^ 64 / align * align

structure Multiboot2FrameAllocator where
  regions : List MemoryRegion
  nextFrame : ℕ
  kernelStartPhys : ℕ
  kernelEndPhys : ℕ

namespace Multiboot2FrameAllocator

abbrev Next := Multiboot2FrameAllocator ⊕ (Option PhysFrame × Multiboot2FrameAllocator)

variable (a : Multiboot2FrameAllocator)

def advanceToNextUsableRegion : List MemoryRegion → Multiboot2FrameAllocator
  | [] => { a with regions := [] }
  | region :: rest =>
    if region.isUsable ∧ alignUp region.base 4096 < region.stop then
      { a with regions := region :: rest, nextFrame := alignUp region.base 4096 }
    else advanceToNextUsableRegion rest

def advanceRegion : Multiboot2FrameAllocator := a.advanceToNextUsableRegion a.regions.tail

def fromRegionsWithKernelRange (regions : List MemoryRegion)
    (kernelStartPhys kernelEndPhys : ℕ) : Multiboot2FrameAllocator :=
  advanceToNextUsableRegion ⟨regions, 0, kernelStartPhys, kernelEndPhys⟩ regions

def overlapsKernel (start stop : ℕ) : Bool :=
  start < a.kernelEndPhys ∧ stop > a.kernelStartPhys

/-- A round of the loop of `allocate_contiguous`. -/
def contiguousRound [PhysAddr] (size : ℕ) : Option Next :=
  match a.regions with
  | [] => some (.inr (none, a))
  | region :: _ =>
    if !region.isUsable then some (.inl a.advanceRegion)
    else
      let start := alignUp a.nextFrame 4096
      let stop := min (start + size) (2 ^ 64 - 1)
      if stop > region.stop then some (.inl a.advanceRegion)
      else if a.overlapsKernel start stop then
        some (.inl { a with nextFrame := alignUp a.kernelEndPhys 4096 })
      else (containingAddress start).map fun frame =>
        .inr (some frame, { a with nextFrame := stop })

/-- A round of the loop of `allocate_frame_internal`, which moves on before it looks for the
kernel. -/
def frameRound [PhysAddr] : Option Next :=
  match a.regions with
  | [] => some (.inr (none, a))
  | region :: _ =>
    if !region.isUsable then some (.inl a.advanceRegion)
    else
      let frameStart := alignUp a.nextFrame 4096
      let frameEnd := min (frameStart + 4096) (2 ^ 64 - 1)
      if frameEnd > region.stop then some (.inl a.advanceRegion)
      else
        let a := { a with nextFrame := frameEnd }
        if a.overlapsKernel frameStart frameEnd then
          some (.inl { a with nextFrame := alignUp a.kernelEndPhys 4096 })
        else (containingAddress frameStart).map fun frame => .inr (some frame, a)

inductive Call
  | allocateFrame
  | allocateContiguous (pages : ℕ)

def Call.pages : Call → ℕ
  | allocateFrame => 1
  | allocateContiguous pages => pages

def call [PhysAddr] (rounds : ℕ) : Call → Option (Option PhysFrame × Multiboot2FrameAllocator)
  | .allocateFrame => Loop.run (·.frameRound) rounds a
  | .allocateContiguous pages =>
    if pages = 0 then some (none, a)
    else Loop.run (contiguousRound · (min (pages * 4096) (2 ^ 64 - 1))) rounds a

def blocks (frame : Option PhysFrame) (pages : ℕ) : List Span :=
  (frame.map fun frame => ⟨frame * 4096, pages * 4096⟩).toList

def serve [PhysAddr] (rounds : ℕ) : Multiboot2FrameAllocator → List Call → Option (List Span)
  | _, [] => some []
  | a, c :: calls => do
    let (frame, a) ← a.call rounds c
    let rest ← a.serve rounds calls
    some (blocks frame c.pages ++ rest)

section Invariant

/-- Usable regions do not share an address. -/
def Apart (regions : List MemoryRegion) : Prop :=
  regions.Pairwise fun r s =>
    r.isUsable → s.isUsable → ∀ x, r.span.Contains x → ¬ s.span.Contains x

/-- A block of pages of one usable region, off the kernel. -/
def Placed (regions : List MemoryRegion) (kernelStart kernelEnd : ℕ) (block : Span) : Prop :=
  4096 ∣ block.start ∧ (∃ r ∈ regions, r.isUsable ∧ block.Within r.span) ∧
    (kernelEnd ≤ block.start ∨ block.stop ≤ kernelStart)

/-- No page that could be handed out is beyond the physical addresses. Usable regions end before
the last page of the address space, and so does a kernel that begins before the end of one. -/
structure Fits (kernelStart kernelEnd : ℕ) (regions : List MemoryRegion) : Prop where
  physical : ∀ frame, Placed regions kernelStart kernelEnd ⟨frame * 4096, 4096⟩ →
    frame * 4096 < 2 ^ 52
  ends : ∀ r ∈ regions, r.isUsable → r.base + r.len ≤ 2 ^ 64 - 4096 ∧
    (kernelEnd ≤ 2 ^ 64 - 4096 ∨ r.base + r.len ≤ kernelStart)

structure BootMap where
  regions : List MemoryRegion
  kernelStart : ℕ
  kernelEnd : ℕ
  apart : Apart regions
  fits : Fits kernelStart kernelEnd regions

variable {a b : Multiboot2FrameAllocator} {m : BootMap} {pages rounds : ℕ}

/-- The addresses that are still to be handed out. -/
def Ahead (a : Multiboot2FrameAllocator) (x : ℕ) : Prop :=
  match a.regions with
  | [] => False
  | r :: rest => (a.nextFrame ≤ x ∧ r.span.Contains x) ∨
      ∃ s ∈ rest, s.isUsable ∧ s.span.Contains x

/-- How many rounds are left at most: two for a region, and one to get past the kernel. -/
def roundsLeft (a : Multiboot2FrameAllocator) : ℕ :=
  2 * a.regions.length + if a.nextFrame < a.kernelEndPhys then 1 else 0

structure Sound (m : BootMap) (a : Multiboot2FrameAllocator) : Prop where
  start : a.kernelStartPhys = m.kernelStart
  stop : a.kernelEndPhys = m.kernelEnd
  regions : a.regions <:+ m.regions
  current : ∀ r ∈ a.regions.head?, r.isUsable ∧ r.base ≤ a.nextFrame ∧
    a.nextFrame ≤ 2 ^ 64 - 4096

/-- What a call returns is placed well, was ahead before the call and is not ahead after it. -/
structure Returned (m : BootMap) (pages : ℕ) (a : Multiboot2FrameAllocator)
    (frame : Option PhysFrame) (b : Multiboot2FrameAllocator) : Prop where
  sound : Sound m b
  shrinks : ∀ x, b.Ahead x → a.Ahead x
  placed : ∀ block ∈ blocks frame pages, Placed m.regions m.kernelStart m.kernelEnd block
  taken : ∀ block ∈ blocks frame pages, ∀ x, block.Contains x → a.Ahead x ∧ ¬ b.Ahead x

def Goes (m : BootMap) (pages : ℕ) (a : Multiboot2FrameAllocator) : Next → Prop
  | .inl b => Sound m b ∧ (∀ x, b.Ahead x → a.Ahead x) ∧ b.roundsLeft < a.roundsLeft
  | .inr (frame, b) => Returned m pages a frame b

theorem roundsLeft_bounds (a : Multiboot2FrameAllocator) :
    2 * a.regions.length ≤ a.roundsLeft ∧ a.roundsLeft ≤ 2 * a.regions.length + 1 := by
  unfold roundsLeft
  split_ifs <;> omega

theorem alignUp_page {addr : ℕ} (h : addr ≤ 2 ^ 64 - 4096) :
    alignUp addr 4096 = (addr + 4095) / 4096 * 4096 := by
  rw [alignUp, if_neg (by decide)]
  omega

theorem frameRound_eq [PhysAddr] (a : Multiboot2FrameAllocator) :
    a.frameRound = a.contiguousRound 4096 := by
  simp only [frameRound, contiguousRound, overlapsKernel]
  cases a.regions <;> rfl

theorem Returned.none (ha : Sound m a) : Returned m pages a none a :=
  ⟨ha, fun _ => id, by simp [blocks], by simp [blocks]⟩

theorem Sound.forward (ha : Sound m a) {next : ℕ} (h : a.nextFrame ≤ next)
    (hlow : next ≤ 2 ^ 64 - 4096) :
    Sound m { a with nextFrame := next } ∧
      ∀ x, Ahead { a with nextFrame := next } x → a.Ahead x := by
  refine ⟨⟨ha.start, ha.stop, ha.regions, fun r hr => ?_⟩, fun x hx => ?_⟩
  · obtain ⟨husable, hbase, -⟩ := ha.current r hr
    exact ⟨husable, Nat.le_trans hbase h, hlow⟩
  · unfold Ahead at hx ⊢
    cases hr : a.regions with
    | nil => simp [hr] at hx
    | cons r rest =>
      simp only [hr] at hx
      exact hx.imp_left fun hx => ⟨Nat.le_trans h hx.1, hx.2⟩

theorem advance_spec (hstart : a.kernelStartPhys = m.kernelStart)
    (hstop : a.kernelEndPhys = m.kernelEnd) {regions : List MemoryRegion}
    (hregions : regions <:+ m.regions) (hb : a.advanceToNextUsableRegion regions = b) :
    Sound m b ∧ b.regions.length ≤ regions.length ∧
      ∀ x, b.Ahead x → ∃ r ∈ regions, r.isUsable ∧ r.span.Contains x := by
  induction regions with
  | nil =>
    subst hb
    exact ⟨⟨hstart, hstop, hregions, by simp [advanceToNextUsableRegion]⟩, le_refl _,
      fun _ => False.elim⟩
  | cons r rest ih =>
    unfold advanceToNextUsableRegion at hb
    split_ifs at hb with h
    · subst hb
      refine ⟨⟨hstart, hstop, hregions, ?_⟩, le_refl _, fun x hx => ?_⟩
      · intro s hs
        obtain rfl : r = s := Option.some.inj hs
        have hlow := (m.fits.ends r (hregions.subset mem_cons_self) h.1).1
        change _ ∧ _ ≤ alignUp r.base 4096 ∧ alignUp r.base 4096 ≤ _
        rw [alignUp_page (by omega)]
        exact ⟨h.1, by omega, by omega⟩
      · obtain ⟨-, hx⟩ | ⟨s, hs, hx⟩ := hx
        · exact ⟨r, mem_cons_self, h.1, hx⟩
        · exact ⟨s, mem_cons_of_mem r hs, hx⟩
    · obtain ⟨hsound, hlength, hahead⟩ := ih ((suffix_cons r rest).trans hregions) hb
      refine ⟨hsound, Nat.le_succ_of_le hlength, fun x hx => ?_⟩
      obtain ⟨s, hs, hx⟩ := hahead x hx
      exact ⟨s, mem_cons_of_mem r hs, hx⟩

theorem Sound.block (ha : Sound m a) {r : MemoryRegion} {rest : List MemoryRegion}
    (hr : a.regions = r :: rest) (frame : PhysFrame) (hnext : a.nextFrame ≤ frame * 4096)
    (hfit : frame * 4096 + pages * 4096 ≤ r.base + r.len)
    (hoff : m.kernelEnd ≤ frame * 4096 ∨ frame * 4096 + pages * 4096 ≤ m.kernelStart) :
    Returned m pages a (some frame) { a with nextFrame := frame * 4096 + pages * 4096 } := by
  obtain ⟨husable, hbase, -⟩ := ha.current r (by rw [hr]; rfl)
  have hmem : r ∈ m.regions := ha.regions.subset (by rw [hr]; exact mem_cons_self)
  have hlow := (m.fits.ends r hmem husable).1
  obtain ⟨hsound, hshrinks⟩ :=
    ha.forward (Nat.le_trans hnext (Nat.le_add_right _ (pages * 4096))) (by omega)
  refine ⟨hsound, hshrinks, fun block hblock => ?_, fun block hblock x hx => ?_⟩ <;>
    obtain rfl : block = ⟨frame * 4096, pages * 4096⟩ := mem_singleton.mp hblock
  · simp only [Placed, Span.Within, Span.stop, MemoryRegion.span]
    exact ⟨Nat.dvd_mul_left _ _, ⟨r, hmem, husable, by omega, hfit⟩, hoff⟩
  · have hlist : Apart (r :: rest) := hr ▸ m.apart.sublist ha.regions.sublist
    have hin : r.span.Contains x := by
      simp only [MemoryRegion.span, Span.Contains, Span.stop] at hx ⊢
      omega
    simp only [Ahead, hr, Span.Contains, Span.stop] at hx ⊢
    refine ⟨.inl ⟨by omega, hin⟩, ?_⟩
    rintro (⟨hpast, -⟩ | ⟨s, hs, husable', hin'⟩)
    · omega
    · exact rel_of_pairwise_cons hlist hs husable husable' x hin hin'

theorem contiguousRound_spec [PhysAddr] (ha : Sound m a) (hpages : pages ≠ 0) :
    ∃ next, a.contiguousRound (min (pages * 4096) (2 ^ 64 - 1)) = some next ∧
      Goes m pages a next := by
  unfold contiguousRound
  split
  · exact ⟨_, rfl, .none ha⟩
  · next r rest hr =>
    obtain ⟨husable, hbase, hnext⟩ := ha.current r (by rw [hr]; rfl)
    have hsuffix : rest <:+ m.regions := (suffix_cons r rest).trans (hr ▸ ha.regions)
    have hmem : r ∈ m.regions := ha.regions.subset (by rw [hr]; exact mem_cons_self)
    obtain ⟨hlow, hkernel⟩ := m.fits.ends r hmem husable
    rw [← ha.start, ← ha.stop] at hkernel
    have hstop : r.stop = r.base + r.len := by
      unfold MemoryRegion.stop
      omega
    simp only [overlapsKernel, husable, Bool.not_true, Bool.false_eq_true, if_false,
      alignUp_page hnext, hstop, decide_eq_true_eq]
    generalize hstart : (a.nextFrame + 4095) / 4096 = frame
    split_ifs with hout hover
    · refine ⟨_, rfl, ?_⟩
      obtain ⟨hsound, hlength, hahead⟩ := advance_spec ha.start ha.stop hsuffix rfl
      have hleft := roundsLeft_bounds a
      have hleft' := roundsLeft_bounds (a.advanceToNextUsableRegion rest)
      rw [hr, length_cons] at hleft
      rw [advanceRegion, hr, tail_cons]
      refine ⟨hsound, fun x hx => ?_, by omega⟩
      unfold Ahead
      rw [hr]
      exact .inr (hahead x hx)
    · have hpage := alignUp_page (show a.kernelEndPhys ≤ 2 ^ 64 - 4096 by omega)
      obtain ⟨hsound, hshrinks⟩ := ha.forward
        (show a.nextFrame ≤ alignUp a.kernelEndPhys 4096 by omega) (by omega)
      have hdone : ¬ alignUp a.kernelEndPhys 4096 < a.kernelEndPhys := by omega
      refine ⟨_, rfl, hsound, hshrinks, ?_⟩
      simp only [roundsLeft, if_pos (show a.nextFrame < a.kernelEndPhys by omega), if_neg hdone]
      omega
    · -- a sum within the region has not saturated
      have hend : min (frame * 4096 + min (pages * 4096) (2 ^ 64 - 1)) (2 ^ 64 - 1) =
          frame * 4096 + pages * 4096 := by omega
      rw [hend] at hout hover ⊢
      rw [ha.start, ha.stop] at hover
      have hphys : frame * 4096 < 2 ^ 52 := by
        refine m.fits.physical frame ⟨Nat.dvd_mul_left _ _, ⟨r, hmem, husable, ?_⟩, ?_⟩ <;>
          simp only [Span.Within, Span.stop, MemoryRegion.span] <;> omega
      have hnumber : frame < 2 ^ 40 := by omega
      refine ⟨.inr (some ⟨frame, hnumber⟩, _), ?_, ha.block hr ⟨frame, hnumber⟩ ?_ ?_ ?_⟩
      · rw [containingAddress_of_lt hnumber]
        rfl
      all_goals
        dsimp only
        omega

variable (ha : Sound m a) (hrounds : 2 * m.regions.length + 1 < rounds)
include ha hrounds

theorem run_returned [PhysAddr] (hpages : pages ≠ 0) :
    ∃ frame b, Loop.run (contiguousRound · (min (pages * 4096) (2 ^ 64 - 1))) rounds a =
      some (frame, b) ∧ Returned m pages a frame b := by
  have hround : ∀ c, (Sound m c ∧ ∀ x, c.Ahead x → a.Ahead x) →
      ∃ next, c.contiguousRound (min (pages * 4096) (2 ^ 64 - 1)) = some next ∧
        ∀ b, next = .inl b → (Sound m b ∧ ∀ x, b.Ahead x → a.Ahead x) ∧
          b.roundsLeft < c.roundsLeft := by
    rintro c ⟨hc, hac⟩
    obtain ⟨next, hnext, hgoes⟩ := contiguousRound_spec hc hpages
    refine ⟨next, hnext, ?_⟩
    rintro b rfl
    obtain ⟨hb, hcb, hless⟩ := hgoes
    exact ⟨⟨hb, fun x hx => hac x (hcb x hx)⟩, hless⟩
  have hleft : a.roundsLeft < rounds := by
    have hlength := ha.regions.length_le
    have hbounds := roundsLeft_bounds a
    omega
  obtain ⟨⟨frame, b⟩, c, hrun, ⟨hc, hac⟩, hdone⟩ := Loop.run_total hround ⟨ha, fun _ => id⟩ hleft
  obtain ⟨next, hnext, hgoes⟩ := contiguousRound_spec hc hpages
  obtain rfl : next = .inr (frame, b) := Option.some.inj (hnext.symm.trans hdone)
  exact ⟨frame, b, hrun, hgoes.sound, fun x hx => hac x (hgoes.shrinks x hx), hgoes.placed,
    fun block hblock x hx => (hgoes.taken block hblock x hx).imp_left (hac x)⟩

theorem call_returned [PhysAddr] (c : Call) :
    ∃ frame b, a.call rounds c = some (frame, b) ∧ Returned m c.pages a frame b := by
  cases c with
  | allocateFrame =>
    have hrun := run_returned ha hrounds Nat.one_ne_zero
    rw [call, funext frameRound_eq]
    exact hrun
  | allocateContiguous pages =>
    dsimp only [call]
    split_ifs with hpages
    · exact ⟨none, a, rfl, .none ha⟩
    · exact run_returned ha hrounds hpages

theorem serve_spec [PhysAddr] (calls : List Call) :
    ∃ out, a.serve rounds calls = some out ∧
      out.Pairwise (fun r s => ∀ x, r.Contains x → ¬ s.Contains x) ∧
      ∀ block ∈ out, Placed m.regions m.kernelStart m.kernelEnd block ∧
        ∀ x, block.Contains x → a.Ahead x := by
  induction calls generalizing a with
  | nil => exact ⟨[], rfl, .nil, by simp⟩
  | cons c calls ih =>
    obtain ⟨frame, b, hcall, hb⟩ := call_returned ha hrounds c
    obtain ⟨out, hout, hdisjoint, hplaced⟩ := ih hb.sound
    refine ⟨blocks frame c.pages ++ out, by simp [serve, hcall, hout], ?_, ?_⟩
    · refine pairwise_append.mpr ⟨?_, hdisjoint, fun r hr s hs x hx hx' => ?_⟩
      · cases frame <;> simp [blocks]
      · exact (hb.taken r hr x hx).2 ((hplaced s hs).2 x hx')
    · intro block hblock
      rcases mem_append.mp hblock with h | h
      · exact ⟨hb.placed block h, fun x hx => (hb.taken block h x hx).1⟩
      · exact ⟨(hplaced block h).1, fun x hx => hb.shrinks x ((hplaced block h).2 x hx)⟩

end Invariant

/-- Enough rounds serve any calls, with blocks of pages in usable regions that do not meet one
another or the kernel. -/
theorem serve_placed [PhysAddr] {regions : List MemoryRegion} {kernelStart kernelEnd rounds : ℕ}
    (hapart : Apart regions) (hfits : Fits kernelStart kernelEnd regions)
    (hrounds : 2 * regions.length + 1 < rounds) (calls : List Call) :
    ∃ out, (fromRegionsWithKernelRange regions kernelStart kernelEnd).serve rounds calls =
        some out ∧
      out.Pairwise (fun r s => ∀ x, r.Contains x → ¬ s.Contains x) ∧
      ∀ block ∈ out, Placed regions kernelStart kernelEnd block := by
  let m : BootMap := ⟨regions, kernelStart, kernelEnd, hapart, hfits⟩
  have hsound : Sound m (fromRegionsWithKernelRange regions kernelStart kernelEnd) :=
    (advance_spec rfl rfl (suffix_refl regions) rfl).1
  obtain ⟨out, hout, hdisjoint, hplaced⟩ := serve_spec hsound hrounds calls
  exact ⟨out, hout, hdisjoint, fun block hblock => (hplaced block hblock).1⟩

theorem serve_placed_kernel_inside :
    ∃ out, (fromRegionsWithKernelRange [⟨0x1000, 0x8800, .usable⟩, ⟨0, 0x1000, .reserved⟩]
        0x2000 0x4400).serve 6 [.allocateFrame, .allocateContiguous 2] = some out ∧
      out.Pairwise (fun r s => ∀ x, r.Contains x → ¬ s.Contains x) ∧
      ∀ block ∈ out,
        Placed [⟨0x1000, 0x8800, .usable⟩, ⟨0, 0x1000, .reserved⟩] 0x2000 0x4400 block :=
  serve_placed (by simp [Apart, MemoryRegion.isUsable])
    ⟨by simp [Placed, MemoryRegion.isUsable, Span.Within, Span.stop, MemoryRegion.span]; omega,
      by simp [MemoryRegion.isUsable]⟩ (by decide) _

/-- A kernel up to the top of the address space sends the allocator back to address 0; a region
beyond 52 bits makes it panic. -/
theorem serve_wraps_or_panics :
    (fromRegionsWithKernelRange [⟨0x100000, 0x2000, .usable⟩] 0x100000 (2 ^ 64 - 1)).serve 4
        [.allocateFrame] = some [⟨0, 4096⟩] ∧
      ¬ Placed [⟨0x100000, 0x2000, .usable⟩] 0x100000 (2 ^ 64 - 1) ⟨0, 4096⟩ ∧
      ∀ rounds, (fromRegionsWithKernelRange [⟨2 ^ 52, 4096, .usable⟩] 0 0).serve rounds
        [.allocateFrame] = none := by
  refine ⟨by decide +kernel, by simp [Placed, MemoryRegion.span, Span.Within], fun rounds => ?_⟩
  cases rounds with
  | zero => rfl
  | succ rounds =>
    rfl

end Multiboot2FrameAllocator

end EchOS.Memory
