import EchOS.Fs.Ext4ReadWrite

/-! Runs of writes to an empty file: after each of them the file reads back as it was written,
exactly if no write leaves bytes behind that nothing was ever written to. -/

namespace EchOS.Fs.Ext4

open Bytes Option File Run

structure Write where
  offset : UInt64
  data : List (BitVec 8)

/-- A file, with the contents and the length that the writes so far give it: each byte is that of
the last write to it, and the file ends where the furthest write does. -/
structure Session where
  file : File
  contents : Disk.Image
  length : ℕ

namespace Session

def start (file : File) : Session := { file := file, contents := fun _ => 0, length := 0 }

def step (s : Session) (w : Write) : Session where
  file := (s.file.writeFileToStorage w.offset w.data).2
  contents := Disk.write s.contents w.offset.toNat w.data
  length := max s.length (w.offset.toNat + w.data.length)

def Done (s : Session) (w : Write) : Prop :=
  (s.file.writeFileToStorage w.offset w.data).1 = .ok w.data.length

variable (verify : Ext4Inode → List (BitVec 8) → Ext4Storage → Except Ext4Fault Unit)

def ReadsBack (s : Session) : Prop :=
  s.file.vol.readFileFromStorage verify s.file.inode = .ok (Disk.read s.contents 0 s.length)

def Right (s : Session) (w : Write) : Prop := (s.step w).ReadsBack verify

/-- A write that does not show bytes that were never written: it skips no block, and what it skips
in the last block of the file, or in the block that is allocated first, is zero already. -/
structure Seamless (s : Session) (w : Write) : Prop where
  no_hole : ∀ l, l < w.offset.toNat / s.file.blockSize →
    l * s.file.blockSize < s.file.inode.size.toNat
  tail_zero : ∀ i, s.file.inode.size.toNat ≤ i → i < w.offset.toNat →
    i / s.file.blockSize * s.file.blockSize < s.file.inode.size.toNat → s.file.fileByte i = 0
  head_zero : s.file.inode.size.toNat ≤ w.offset.toNat / s.file.blockSize * s.file.blockSize →
    ∀ p, s.file.vol.FirstFree p → ∀ j, j < w.offset.toNat % s.file.blockSize →
      s.file.vol.byte p j = 0

/-- A file that is what the writes so far say, with a block for each part of it and no others. -/
structure Tracks (s : Session) : Prop where
  sound : s.file.Sound
  size_eq : s.file.inode.size.toNat = s.length
  mapped : ∀ l, s.file.inode.blockMap l ≠ none ↔ l * s.file.blockSize < s.length
  bytes : ∀ i, i < s.length → s.file.fileByte i = s.contents i
  beyond : ∀ i, s.length ≤ i → s.contents i = 0

end Session

namespace File

section Bounds

variable {file file' : File} {offset b written rounds w : ℕ} {data : List (BitVec 8)}

theorem Sound.rounds_le (hs : file.Sound) (hbefore : ∀ l, l < b → file.inode.blockMap l ≠ none)
    (hfirst : offset < b * file.blockSize + file.blockSize)
    (hwritten : written = min data.length (b * file.blockSize - offset))
    (h : writeBlocks offset data rounds file b written = (.ok w, file')) :
    b + rounds ≤ 4 * 32767 := by
  have hb := mapped_le hbefore
  by_contra hmore
  obtain ⟨part, hpart⟩ : ∃ part, b + part = 4 * 32767 + 1 := ⟨4 * 32767 + 1 - b, by omega⟩
  obtain ⟨rest, hrest⟩ : ∃ rest, rounds = part + rest := ⟨rounds - part, by omega⟩
  rw [hrest] at h
  obtain ⟨w', mid, hmid⟩ := writeBlocks_add h
  obtain ⟨hwrote, -⟩ := hs.writeBlocks_ok (by omega) hfirst hwritten hmid
  have hall : ∀ l, l < 4 * 32767 + 1 → mid.inode.blockMap l ≠ none := by
    intro l hl
    by_cases hlb : l < b
    · rw [hwrote.outside l (.inl hlb)]
      exact hbefore l hlb
    · obtain ⟨p, hp⟩ := hwrote.mapped l (by omega) (by omega)
      rw [hp]
      exact some_ne_none p
  have hle := mapped_le hall
  omega

theorem Sound.setSize (hs : file.Sound) (newSize : UInt64) :
    ({ file with inode := file.inode.setSize newSize } : File).Sound :=
  ⟨hs.ready, ⟨hs.flat.extents, hs.flat.depth⟩, hs.plain, hs.unverified, hs.extents, hs.injective,
    hs.used⟩

theorem Sound.writeFileToStorage_ok {start : UInt64} (hs : file.Sound)
    (hbefore : ∀ l, l < start.toNat / file.blockSize → file.inode.blockMap l ≠ none)
    (h : file.writeFileToStorage start data = (.ok data.length, file')) :
    ∃ mid, file.WroteAll mid start.toNat data (start.toNat / file.blockSize)
        ((start.toNat + data.length + file.blockSize - 1) / file.blockSize) ∧
      file'.Sound ∧ file'.vol = mid.vol ∧ file'.inode.blockMap = mid.inode.blockMap ∧
      file'.inode.size.toNat = max file.inode.size.toNat (start.toNat + data.length) := by
  obtain ⟨hpos, mid, hloop, hfile⟩ := File.writeFileToStorage_ok h
  have hsize : file.blockSize < 2 ^ 32 := UInt32.toNat_lt _
  have hdiv := Nat.div_add_mod' start.toNat file.blockSize
  have hmod := Nat.mod_lt start.toNat hpos
  have hfirst : start.toNat
      < start.toNat / file.blockSize * file.blockSize + file.blockSize := by omega
  have hwritten : 0 =
    min data.length (start.toNat / file.blockSize * file.blockSize - start.toNat) := by
    omega
  have hrounds := hs.rounds_le hbefore hfirst hwritten hloop
  obtain ⟨hwrote, hcount⟩ := hs.writeBlocks_ok (by omega) hfirst hwritten hloop
  -- the file stays so small that nothing overflows
  have hend := Nat.mul_le_mul hrounds (Nat.le_refl file.blockSize)
  have hstart : start.toNat / file.blockSize * file.blockSize ≤ 4 * 32767 * file.blockSize :=
    Nat.mul_le_mul (by omega) (Nat.le_refl _)
  have hsmall : start.toNat + data.length + file.blockSize - 1 < 2 ^ 64 := by omega
  have hnowrap := Nat.mod_eq_of_lt hsmall
  have hge : start.toNat / file.blockSize
      ≤ (start.toNat + data.length + file.blockSize - 1) / file.blockSize :=
    Nat.div_le_div_right (by omega)
  rw [hnowrap, Nat.add_sub_cancel' hge] at hwrote
  have hnew : (start + UInt64.ofNat data.length).toNat = start.toNat + data.length := by
    rw [UInt64.toNat_add, UInt64.toNat_ofNat_of_lt' (by omega : data.length < 2 ^ 64)]
    omega
  refine ⟨mid, hwrote, ?_⟩
  rw [hfile]
  by_cases hgrown : mid.inode.size < start + UInt64.ofNat data.length
  · have hlt := UInt64.lt_iff_toNat_lt.mp hgrown
    rw [hwrote.size_eq] at hlt
    rw [if_pos hgrown]
    refine ⟨hwrote.sound.setSize _, rfl, rfl, ?_⟩
    rw [size_setSize]
    omega
  · have hkept : ¬ file.inode.size.toNat < start.toNat + data.length := by
      rw [← hnew, ← hwrote.size_eq]
      exact fun hlt => hgrown (UInt64.lt_iff_toNat_lt.mpr hlt)
    rw [if_neg hgrown]
    refine ⟨hwrote.sound, rfl, rfl, ?_⟩
    rw [hwrote.size_eq]
    omega

end Bounds

end File

namespace Session

section Holes

variable {s : Session} {w : Write}
  {verify : Ext4Inode → List (BitVec 8) → Ext4Storage → Except Ext4Fault Unit} {l : ℕ}

theorem Done.call_eq (h : s.Done w) :
    s.file.writeFileToStorage w.offset w.data = (.ok w.data.length, (s.step w).file) :=
  Prod.ext h rfl

theorem Tracks.blockMap_eq_none (ht : s.Tracks) (hl : s.length ≤ l * s.file.blockSize) :
    s.file.inode.blockMap l = none := by
  by_contra hmapped
  have hlt := (ht.mapped l).mp hmapped
  omega

theorem Done.kept (h : s.Done w) (ht : s.Tracks) :
    (s.step w).file.inode.Flat ∧
      (s.step w).file.inode.hasFlag Ext4Inode.inlineDataFl = false ∧
      (s.step w).file.inode.hasFlag Ext4Inode.verityFl = false ∧
      (s.step w).file.blockSize = s.file.blockSize := by
  obtain ⟨-, mid, hloop, hfile⟩ := writeFileToStorage_ok h.call_eq
  have hkept := kept_of_writeBlocks hloop
  have hflat := hkept.flat ht.sound.flat
  have hplain := (hkept.flags Ext4Inode.inlineDataFl (by decide)).trans ht.sound.plain
  have hverity := (hkept.flags Ext4Inode.verityFl (by decide)).trans ht.sound.unverified
  rw [hfile]
  split_ifs
  · exact ⟨⟨hflat.extents, hflat.depth⟩, hplain, hverity, hkept.blockSize_eq⟩
  · exact ⟨hflat, hplain, hverity, hkept.blockSize_eq⟩

theorem Tracks.blockMap_step_of_skipped (ht : s.Tracks) (hdone : s.Done w)
    (hsmall : w.offset.toNat + w.data.length ≤ 4 * 32767 * s.file.blockSize)
    (hl : l < w.offset.toNat / s.file.blockSize) (hskip : s.length ≤ l * s.file.blockSize) :
    (s.step w).file.inode.blockMap l = none := by
  obtain ⟨hpos, mid, hloop, hfile⟩ := writeFileToStorage_ok hdone.call_eq
  have hsize : s.file.blockSize < 2 ^ 32 := UInt32.toNat_lt _
  have hdiv := Nat.div_add_mod' w.offset.toNat s.file.blockSize
  have hmod := Nat.mod_lt w.offset.toNat hpos
  have hnowrap : (w.offset.toNat + w.data.length + s.file.blockSize - 1) % 2 ^ 64
      = w.offset.toNat + w.data.length + s.file.blockSize - 1 := Nat.mod_eq_of_lt (by omega)
  have hlast : (w.offset.toNat + w.data.length + s.file.blockSize - 1) / s.file.blockSize
      < 4 * 32767 + 1 := by
    rw [Nat.div_lt_iff_lt_mul hpos]
    omega
  have hfirstBlock : w.offset.toNat / s.file.blockSize
      ≤ (w.offset.toNat + w.data.length + s.file.blockSize - 1) / s.file.blockSize :=
    Nat.div_le_div_right (by omega)
  rw [hnowrap] at hloop
  obtain ⟨hwrote, -⟩ := ht.sound.writeBlocks_ok (by omega) (by omega) (by omega) hloop
  have hmap : (s.step w).file.inode.blockMap = mid.inode.blockMap := by
    rw [hfile]
    split_ifs
    · rfl
    · rfl
  rw [hmap, hwrote.outside l (.inl hl)]
  exact ht.blockMap_eq_none hskip

/-- A block that a write skips ends every read of the file, long before the end of the file. -/
theorem Tracks.not_right_of_skipped (ht : s.Tracks) (hdone : s.Done w)
    (hl : l < w.offset.toNat / s.file.blockSize) (hskip : s.length ≤ l * s.file.blockSize) :
    ¬ s.Right verify w := by
  intro hright
  obtain ⟨hflat, hplain, hverity, hsize⟩ := hdone.kept ht
  have hpos := ht.sound.blockSize_pos
  have hne : (s.step w).file.vol.fs.blockSize.toNat ≠ 0 := by
    change (s.step w).file.blockSize ≠ 0
    omega
  -- wherever a block is missing, the read is shorter than the file
  have hshort : ∀ k, (s.step w).file.inode.blockMap k = none → k < 2 ^ 32 →
      w.offset.toNat + w.data.length ≤ k * s.file.blockSize := by
    intro k hnone hk
    have hle := readFile_length_le verify hflat hplain hverity hne hnone hk hright
    change _ ≤ k * (s.step w).file.blockSize at hle
    rw [Disk.length_read, hsize] at hle
    exact Nat.le_trans (Nat.le_max_right _ _) hle
  by_cases hsmall : w.offset.toNat + w.data.length ≤ 4 * 32767 * s.file.blockSize
  · have hlarge : l < 2 ^ 32 := by
      have hdiv := Nat.div_mul_le_self w.offset.toNat s.file.blockSize
      have hlt : w.offset.toNat / s.file.blockSize * s.file.blockSize
          ≤ 4 * 32767 * s.file.blockSize := by omega
      have hblocks := Nat.le_of_mul_le_mul_right hlt hpos
      omega
    have hle := hshort l (ht.blockMap_step_of_skipped hdone hsmall hl hskip) hlarge
    have hnext := Nat.mul_le_mul_right s.file.blockSize hl
    have hdiv := Nat.div_mul_le_self w.offset.toNat s.file.blockSize
    rw [Nat.succ_mul] at hnext
    omega
  · obtain ⟨k, hk, hnone⟩ : ∃ k, k < 4 * 32767 + 1 ∧ (s.step w).file.inode.blockMap k = none := by
      by_contra hall
      have hle := mapped_le (n := 4 * 32767 + 1) fun k hk hnone => hall ⟨k, hk, hnone⟩
      omega
    have hle := hshort k hnone (by omega)
    have hbound : k * s.file.blockSize ≤ 4 * 32767 * s.file.blockSize :=
      Nat.mul_le_mul_right _ (by omega)
    omega

end Holes

section Seams

variable {s : Session} {w : Write}
  {verify : Ext4Inode → List (BitVec 8) → Ext4Storage → Except Ext4Fault Unit}

structure Grown (s : Session) (w : Write) : Prop where
  sound : (s.step w).file.Sound
  size_eq : (s.step w).file.inode.size.toNat = (s.step w).length
  blockSize_eq : (s.step w).file.blockSize = s.file.blockSize
  mapped : ∀ l, (s.step w).file.inode.blockMap l ≠ none ↔
    l * s.file.blockSize < (s.step w).length
  kept : ∀ l p, s.file.inode.blockMap l = some p → (s.step w).file.inode.blockMap l = some p
  /-- A block that the file did not have is the first free one, if the write starts in it. -/
  first : ∀ p, s.file.inode.blockMap (w.offset.toNat / s.file.blockSize) = none →
    (s.step w).file.inode.blockMap (w.offset.toNat / s.file.blockSize) = some p →
    s.file.vol.FirstFree p
  byte_eq : ∀ i p, (s.step w).file.inode.blockMap (i / s.file.blockSize) = some p →
    (s.step w).file.fileByte i =
      if Covered w.offset.toNat w.data i then w.data.getD (i - w.offset.toNat) 0
      else s.file.vol.byte p (i % s.file.blockSize)

theorem length_step (s : Session) (w : Write) :
    (s.step w).length = max s.length (w.offset.toNat + w.data.length) :=
  rfl

theorem Tracks.grown (ht : s.Tracks) (hdone : s.Done w)
    (hhole : ∀ l, l < w.offset.toNat / s.file.blockSize →
      l * s.file.blockSize < s.file.inode.size.toNat) : s.Grown w := by
  have hpos := ht.sound.blockSize_pos
  have hbefore : ∀ l, l < w.offset.toNat / s.file.blockSize → s.file.inode.blockMap l ≠ none := by
    intro l hl
    have hlt := hhole l hl
    rw [ht.size_eq] at hlt
    exact (ht.mapped l).mpr hlt
  obtain ⟨mid, hwrote, hsound, hvol, hmap, hsize⟩ :=
    ht.sound.writeFileToStorage_ok hbefore hdone.call_eq
  obtain ⟨-, -, -, hblockSize⟩ := hdone.kept ht
  -- a block is among those written exactly if it starts before the end and ends behind the start
  have hblocks : ∀ l, l < (w.offset.toNat + w.data.length + s.file.blockSize - 1)
      / s.file.blockSize ↔ l * s.file.blockSize < w.offset.toNat + w.data.length := by
    intro l
    rw [Nat.lt_iff_add_one_le, Nat.le_div_iff_mul_le hpos, Nat.succ_mul]
    omega
  have hlength := s.length_step w
  constructor
  case sound => exact hsound
  case size_eq => rw [hsize, ht.size_eq, hlength]
  case blockSize_eq => exact hblockSize
  case mapped =>
    intro l
    rw [hmap]
    by_cases hin : w.offset.toNat / s.file.blockSize ≤ l ∧ l * s.file.blockSize
        < w.offset.toNat + w.data.length
    · obtain ⟨p, hp⟩ := hwrote.mapped l hin.1 ((hblocks l).mpr hin.2)
      refine iff_of_true ?_ (by omega)
      rw [hp]
      exact some_ne_none p
    · have hout : l < w.offset.toNat / s.file.blockSize ∨
          (w.offset.toNat + w.data.length + s.file.blockSize - 1) / s.file.blockSize ≤ l := by
        by_contra hboth
        exact hin ⟨by omega, (hblocks l).mp (by omega)⟩
      rw [hwrote.outside l hout, ht.mapped l]
      rcases hout with hlow | hhigh
      · have hlt := hhole l hlow
        rw [ht.size_eq] at hlt
        exact iff_of_true hlt (by omega)
      · have hge : ¬ l * s.file.blockSize < w.offset.toNat + w.data.length := by
          intro hlt
          exact absurd ((hblocks l).mpr hlt) (by omega)
        omega
  case kept =>
    intro l p hl
    rw [hmap]
    exact hwrote.kept l p hl
  case first =>
    intro p hnone hp
    rw [hmap] at hp
    refine hwrote.first p ?_ hnone hp
    by_contra hout
    rw [hwrote.outside _ (by omega), hnone] at hp
    simp at hp
  case byte_eq =>
    intro i p hp
    have hbyte := hwrote.byte_eq (i / s.file.blockSize) p (i % s.file.blockSize)
      (by rw [← hmap]; exact hp) (Nat.mod_lt i hpos)
    rw [Nat.div_add_mod'] at hbyte
    rw [fileByte, hblockSize, hp]
    dsimp only
    rw [hvol, hbyte]
    by_cases hcovered : Covered w.offset.toNat w.data i
    · have hrange := hcovered
      unfold Covered at hrange
      have hge : w.offset.toNat / s.file.blockSize ≤ i / s.file.blockSize :=
        Nat.div_le_div_right hrange.1
      have hlt := (hblocks (i / s.file.blockSize)).mpr
        (Nat.lt_of_le_of_lt (Nat.div_mul_le_self i _) hrange.2)
      rw [if_pos hcovered, if_pos ⟨⟨hge, hlt⟩, hcovered⟩]
    · rw [if_neg hcovered, if_neg (fun hboth => hcovered hboth.2)]

theorem Grown.right_iff (hg : s.Grown w) :
    s.Right verify w ↔
      ∀ i, i < (s.step w).length → (s.step w).file.fileByte i = (s.step w).contents i := by
  have hread := hg.sound.readFile_eq verify fun l hl => (hg.mapped l).mpr (by
    rw [hg.size_eq, hg.blockSize_eq] at hl
    exact hl)
  rw [hg.size_eq] at hread
  rw [Right, ReadsBack, hread, Except.ok.injEq]
  constructor
  · intro heq i hi
    have hbyte := Disk.read_inj heq hi
    rwa [Nat.zero_add] at hbyte
  · intro heq
    refine Disk.read_congr fun i _ hi => heq i ?_
    rwa [Nat.zero_add] at hi

theorem Grown.byte_of_not_covered (hg : s.Grown w) {i p : ℕ}
    (hp : (s.step w).file.inode.blockMap (i / s.file.blockSize) = some p)
    (hcovered : ¬ Covered w.offset.toNat w.data i) :
    (s.step w).file.fileByte i = s.file.vol.byte p (i % s.file.blockSize) ∧
      (s.step w).contents i = s.contents i := by
  refine ⟨by rw [hg.byte_eq i p hp, if_neg hcovered], Disk.write_outside ?_⟩
  unfold Covered at hcovered
  omega

theorem Tracks.fileByte_of_mapped {i p : ℕ}
    (hp : s.file.inode.blockMap (i / s.file.blockSize) = some p) :
    s.file.fileByte i = s.file.vol.byte p (i % s.file.blockSize) := by
  rw [fileByte, hp]

theorem Seamless.right (hseam : s.Seamless w) (ht : s.Tracks) (hg : s.Grown w) :
    s.Right verify w := by
  have hlength := s.length_step w
  refine hg.right_iff.mpr fun i hi => ?_
  have hstart : i / s.file.blockSize * s.file.blockSize ≤ i := Nat.div_mul_le_self i _
  obtain ⟨p, hp⟩ := ne_none_iff_exists'.mp
    ((hg.mapped (i / s.file.blockSize)).mpr (by omega))
  by_cases hcovered : Covered w.offset.toNat w.data i
  · rw [hg.byte_eq i p hp, if_pos hcovered]
    exact (Disk.write_inside hcovered.1 hcovered.2).symm
  · obtain ⟨hbyte, hcontents⟩ := hg.byte_of_not_covered hp hcovered
    rw [hbyte, hcontents]
    by_cases hold : i / s.file.blockSize * s.file.blockSize < s.length
    · -- the block was there before the write
      obtain ⟨q, hq⟩ := ne_none_iff_exists'.mp ((ht.mapped _).mpr hold)
      obtain rfl : q = p := some.inj ((hg.kept _ q hq).symm.trans hp)
      rw [← Tracks.fileByte_of_mapped hq]
      by_cases hin : i < s.length
      · exact ht.bytes i hin
      · unfold Covered at hcovered
        rw [ht.beyond i (by omega)]
        exact hseam.tail_zero i (by rw [ht.size_eq]; omega) (by omega)
          (by rw [ht.size_eq]; exact hold)
    · -- the block is the one that the write starts in, and was allocated for it
      unfold Covered at hcovered
      have hle : i / s.file.blockSize ≤ w.offset.toNat / s.file.blockSize :=
        Nat.div_le_div_right (by omega)
      have hsame : i / s.file.blockSize = w.offset.toNat / s.file.blockSize := by
        by_contra hne
        have hlt := hseam.no_hole (i / s.file.blockSize) (by omega)
        rw [ht.size_eq] at hlt
        exact hold hlt
      have hi' := Nat.div_add_mod' i s.file.blockSize
      have hoff := Nat.div_add_mod' w.offset.toNat s.file.blockSize
      rw [hsame] at hp hold hi'
      rw [ht.beyond i (by omega)]
      refine hseam.head_zero (by rw [ht.size_eq]; omega) p ?_ _ (by omega)
      exact hg.first p (ht.blockMap_eq_none (by omega)) hp

theorem Grown.seamless (hg : s.Grown w) (ht : s.Tracks)
    (hhole : ∀ l, l < w.offset.toNat / s.file.blockSize →
      l * s.file.blockSize < s.file.inode.size.toNat)
    (hright : s.Right verify w) : s.Seamless w := by
  have hlength := s.length_step w
  have hpos := ht.sound.blockSize_pos
  have hbytes := hg.right_iff.mp hright
  refine ⟨hhole, ?_, ?_⟩
  · intro i hge hlt hblock
    rw [ht.size_eq] at hge hblock
    have hcovered : ¬ Covered w.offset.toNat w.data i := fun hin => by
      have hle := hin.1
      omega
    obtain ⟨p, hp⟩ := ne_none_iff_exists'.mp ((ht.mapped _).mpr hblock)
    obtain ⟨hbyte, hcontents⟩ := hg.byte_of_not_covered (hg.kept _ p hp) hcovered
    rw [Tracks.fileByte_of_mapped hp, ← hbyte, hbytes i (by omega), hcontents, ht.beyond i hge]
  · intro hge p hfirst j hj
    rw [ht.size_eq] at hge
    have hmod := Nat.mod_lt w.offset.toNat hpos
    have hoff := Nat.div_add_mod' w.offset.toNat s.file.blockSize
    have hsmall : j < s.file.blockSize := by omega
    -- the byte of the file that lies there
    obtain ⟨i, hi⟩ : ∃ i, i = w.offset.toNat / s.file.blockSize * s.file.blockSize + j := ⟨_, rfl⟩
    have hdiv : i / s.file.blockSize = w.offset.toNat / s.file.blockSize := by
      rw [hi, Nat.mul_comm, Nat.mul_add_div hpos, Nat.div_eq_of_lt hsmall, Nat.add_zero]
    have hrem : i % s.file.blockSize = j := by
      rw [hi, Nat.mul_comm, Nat.mul_add_mod, Nat.mod_eq_of_lt hsmall]
    have hcovered : ¬ Covered w.offset.toNat w.data i := fun hin => by
      have hle := hin.1
      omega
    obtain ⟨q, hq⟩ := ne_none_iff_exists'.mp
      ((hg.mapped (w.offset.toNat / s.file.blockSize)).mpr (by omega))
    obtain rfl := hfirst.unique (hg.first q (ht.blockMap_eq_none hge) hq)
    rw [← hdiv] at hq
    obtain ⟨hbyte, hcontents⟩ := hg.byte_of_not_covered hq hcovered
    rw [hrem] at hbyte
    rw [← hbyte, hbytes i (by omega), hcontents, ht.beyond i (by omega)]

variable (verify) in
theorem Tracks.right_iff (ht : s.Tracks) (hdone : s.Done w) : s.Right verify w ↔ s.Seamless w := by
  constructor
  · intro hright
    have hhole : ∀ l, l < w.offset.toNat / s.file.blockSize →
        l * s.file.blockSize < s.file.inode.size.toNat := by
      intro l hl
      rw [ht.size_eq]
      by_contra hskip
      exact ht.not_right_of_skipped hdone hl (by omega) hright
    exact (ht.grown hdone hhole).seamless ht hhole hright
  · intro hseam
    exact hseam.right ht (ht.grown hdone hseam.no_hole)

theorem Tracks.tracks_step (ht : s.Tracks) (hdone : s.Done w) (hright : s.Right verify w) :
    (s.step w).Tracks := by
  have hseam := (ht.right_iff verify hdone).mp hright
  have hg := ht.grown hdone hseam.no_hole
  refine ⟨hg.sound, hg.size_eq, ?_, hg.right_iff.mp hright, ?_⟩
  · rw [hg.blockSize_eq]
    exact hg.mapped
  · intro i hi
    have hlength := s.length_step w
    have hsame : (s.step w).contents i = s.contents i := Disk.write_outside (by omega)
    rw [hsame, ht.beyond i (by omega)]

end Seams

end Session

/-- A regular file with extents and nothing in it, on a volume in good order. -/
structure File.Fresh (file : File) : Prop where
  ready : file.vol.Ready
  extents : file.inode.usesExtents = true
  plain : file.inode.hasFlag Ext4Inode.inlineDataFl = false
  unverified : file.inode.hasFlag Ext4Inode.verityFl = false
  empty : Holds file.inode []
  size_eq : file.inode.size = 0

variable {file : File}

theorem File.Fresh.blockMap_eq_none (h : file.Fresh) (l : ℕ) : file.inode.blockMap l = none := by
  have hQ := merges_inGroup h.ready.perGroup_le
  by_contra hmapped
  obtain ⟨p, hp⟩ := ne_none_iff_exists'.mp hmapped
  obtain ⟨e, he, -⟩ := (h.empty.blockMap_eq_some_iff hQ ⟨List.Pairwise.nil, by simp⟩).mp hp
  exact absurd he List.not_mem_nil

theorem File.Fresh.tracks (h : file.Fresh) : (Session.start file).Tracks where
  sound :=
    { ready := h.ready
      flat := ⟨h.extents, fun _ hheader => h.empty.depth_eq hheader⟩
      plain := h.plain
      unverified := h.unverified
      extents := ⟨[], h.empty, List.Pairwise.nil, by simp⟩
      injective := by
        intro l l' p hl
        exact absurd ((h.blockMap_eq_none l).symm.trans hl) (by simp)
      used := by
        intro l p hl
        exact absurd ((h.blockMap_eq_none l).symm.trans hl) (by simp) }
  size_eq := by
    change file.inode.size.toNat = 0
    rw [h.size_eq]
    rfl
  mapped := by
    intro l
    exact iff_of_false (not_not.mpr (h.blockMap_eq_none l)) (Nat.not_lt_zero _)
  bytes := fun i hi => absurd hi (Nat.not_lt_zero i)
  beyond := fun _ _ => rfl

namespace Session

variable (verify : Ext4Inode → List (BitVec 8) → Ext4Storage → Except Ext4Fault Unit)

theorem Tracks.along_iff {s : Session} (ht : s.Tracks) {writes : List Write}
    (hdone : Along step Done s writes) :
    Along step (Right verify) s writes ↔ Along step Seamless s writes := by
  induction writes generalizing s with
  | nil => exact Iff.rfl
  | cons w writes ih =>
    obtain ⟨hw, hrest⟩ := hdone
    have hiff := ht.right_iff verify hw
    rw [along_cons, hiff]
    exact and_congr_right fun hseam => ih (ht.tracks_step hw (hiff.mpr hseam)) hrest

section SmallFile

/-- A file on a volume whose first group has one block left, which lies behind the metadata. -/
def smallFile : File where
  vol := Volume.twoGroups 0x7F 0x00 1 8
  inode :=
    { iSizeLo := 0
      iSizeHi := 0
      iFlags := Ext4Inode.extentsFl
      iBlock := array 60 (encodeLeaf []) }

theorem ready_smallFile : smallFile.vol.Ready where
  layout := by decide +kernel
  groups_pos := by decide
  perGroup_le := by decide
  quiet := by
    have hquiet : ∀ g, g < smallFile.vol.fs.groups → 0 < g →
        ∀ i, i < (smallFile.vol.fs.scanEnd g).toNat → ¬ smallFile.vol.Scanned g i := by
      unfold Volume.Scanned
      decide +kernel
    intro g hpos hlt i hscan
    exact hquiet g hlt hpos i hscan.2.1 hscan
  free := by
    have hseven : ∀ p, p < smallFile.vol.perGroup → smallFile.vol.Free p → p = 7 := by
      unfold Volume.Free
      decide +kernel
    intro p hp
    obtain rfl := hseven p hp.2.1 hp
    constructor <;> decide +kernel

theorem fresh_smallFile : smallFile.Fresh where
  ready := ready_smallFile
  extents := by decide
  plain := by decide
  unverified := by decide
  empty := by
    refine .inl ?_
    rw [smallFile, toList_array (length_encodeLeaf (by decide))]
    exact leaf_encodeLeaf (by decide) (by simp)
  size_eq := by decide

end SmallFile

/-- Along a run of writes that all return, an empty file reads back after every write exactly if
every write is seamless. -/
theorem reads_back_along_iff {file : File} (hfile : file.Fresh) {writes : List Write}
    (hdone : Run.Along step Done (start file) writes) :
    Run.Along step (Right verify) (start file) writes ↔
      Run.Along step Seamless (start file) writes :=
  hfile.tracks.along_iff verify hdone

/-- Three bytes are written, and then the second of them again. -/
theorem reads_back_overwritten :
    Run.Along step (Right fun _ _ _ => .ok ()) (start smallFile) [⟨0, [1, 2, 3]⟩, ⟨1, [9]⟩] := by
  have hdone : (start smallFile).Done ⟨0, [1, 2, 3]⟩ ∧
      ((start smallFile).step ⟨0, [1, 2, 3]⟩).Done ⟨1, [9]⟩ := by
    unfold Done
    decide +kernel
  have hgrown := fresh_smallFile.tracks.grown hdone.1 fun l hl => absurd hl (Nat.not_lt_zero l)
  have hsize := hgrown.size_eq
  have hblock := hgrown.blockSize_eq
  have hrun : Along step Done (start smallFile) [⟨0, [1, 2, 3]⟩, ⟨1, [9]⟩] :=
    ⟨hdone.1, hdone.2, trivial⟩
  refine (reads_back_along_iff _ fresh_smallFile hrun).mpr ⟨⟨?_, ?_, ?_⟩, ⟨?_, ?_, ?_⟩, trivial⟩
  · intro l hl
    exact absurd hl (Nat.not_lt_zero l)
  · intro i _ hi
    exact absurd hi (Nat.not_lt_zero i)
  · intro _ p _ j hj
    exact absurd hj (Nat.not_lt_zero j)
  · intro l hl
    rw [hblock] at hl
    exact absurd hl (Nat.not_lt_zero l)
  · intro i hge hi
    have hone : i < 1 := hi
    omega
  · intro hge
    rw [hsize, hblock] at hge
    exact absurd hge (by decide)

/-- One byte behind a block that the file does not have: the file is 1025 bytes long, and a read
returns none of them. -/
theorem read_stops_at_hole :
    smallFile.Fresh ∧ (start smallFile).Done ⟨1024, [0xAA]⟩ ∧
      ((start smallFile).step ⟨1024, [0xAA]⟩).length = 1025 ∧
      ((start smallFile).step ⟨1024, [0xAA]⟩).file.vol.readFileFromStorage (fun _ _ _ => .ok ())
        ((start smallFile).step ⟨1024, [0xAA]⟩).file.inode = .ok [] := by
  refine ⟨fresh_smallFile, ?_⟩
  unfold Done
  decide +kernel

end Session

end EchOS.Fs.Ext4
