import EchOS.Fs.Ext4FileBlocks
import EchOS.Lib.Fallible

/-! Reading a file back after a run of writes: what a whole write does to the file, what a read
returns, and which writes leave a file that reads as it was written. -/

namespace EchOS.Fs.Ext4.File

open Bytes List Prod Except Disk

/-- `file'` is `file` after the rounds of a write for the logical blocks from `b` up to `e`. -/
structure WroteAll (file file' : File) (offset : ℕ) (data : List (BitVec 8)) (b e : ℕ) : Prop where
  sound : file'.Sound
  shape : file.vol.SameShape file'.vol
  size_eq : file'.inode.size = file.inode.size
  kept : ∀ l p, file.inode.blockMap l = some p → file'.inode.blockMap l = some p
  outside : ∀ l, l < b ∨ e ≤ l → file'.inode.blockMap l = file.inode.blockMap l
  mapped : ∀ l, b ≤ l → l < e → ∃ p, file'.inode.blockMap l = some p
  first : ∀ p, b < e → file.inode.blockMap b = none → file'.inode.blockMap b = some p →
    file.vol.FirstFree p
  byte_eq : ∀ l p j, file'.inode.blockMap l = some p → j < file.blockSize →
    file'.vol.byte p j =
      if (b ≤ l ∧ l < e) ∧ Covered offset data (l * file.blockSize + j) then
        data.getD (l * file.blockSize + j - offset) 0
      else file.vol.byte p j

section Loop

variable {file mid file' : File} {offset b p e written : ℕ} {data : List (BitVec 8)} {rounds w : ℕ}

theorem WroteAll.refl (hs : file.Sound) : file.WroteAll file offset data b b where
  sound := hs
  shape := ⟨⟨_, rfl⟩, fun _ => rfl, rfl⟩
  size_eq := rfl
  kept := fun _ _ h => h
  outside := fun _ _ => rfl
  mapped := fun l hge hlt => absurd hlt (Nat.not_lt.mpr hge)
  first := fun _ hlt => absurd hlt (Nat.lt_irrefl b)
  byte_eq := by
    intro l p j _ _
    rw [if_neg (fun hboth => absurd hboth.1.2 (Nat.not_lt.mpr hboth.1.1))]

theorem Wrote.blockSize_eq (h : file.Wrote mid offset data b p) :
    mid.blockSize = file.blockSize := by
  rw [blockSize, h.shape.blockSize_eq]
  rfl

theorem Wrote.cons (h : file.Wrote mid offset data b p)
    (hrest : mid.WroteAll file' offset data (b + 1) e) (hbe : b < e) :
    file.WroteAll file' offset data b e := by
  have hb : mid.inode.blockMap b = some p := by rw [h.map_eq, if_pos rfl]
  have hb' := hrest.kept b p hb
  constructor
  case sound => exact hrest.sound
  case shape => exact h.shape.trans hrest.shape
  case size_eq => rw [hrest.size_eq, h.size_eq]
  case kept =>
    intro l q hl
    refine hrest.kept l q ?_
    rw [h.map_eq]
    by_cases hlb : l = b
    · subst hlb
      rcases h.origin with hold | ⟨hnone, -⟩
      · rw [if_pos rfl, ← hold, hl]
      · rw [hnone] at hl
        simp at hl
    · rw [if_neg hlb, hl]
  case outside =>
    intro l hl
    rw [hrest.outside l (by omega), h.map_eq, if_neg (by omega)]
  case mapped =>
    intro l hge hlt
    rcases Nat.eq_or_lt_of_le hge with rfl | hgt
    · exact ⟨p, hb'⟩
    · exact hrest.mapped l hgt hlt
  case first =>
    intro q _ hnone hq
    rw [hb'] at hq
    cases hq
    rcases h.origin with hold | ⟨-, hfirst⟩
    · rw [hnone] at hold
      simp at hold
    · exact hfirst
  case byte_eq =>
    intro l q j hl hj
    have hbyte := hrest.byte_eq l q j hl (by rw [h.blockSize_eq]; exact hj)
    rw [h.blockSize_eq] at hbyte
    rw [hbyte]
    by_cases hlb : l = b
    · -- the block of this round is not touched again
      subst hlb
      rw [hb'] at hl
      cases hl
      rw [if_neg (by omega), h.byte_eq j hj]
      by_cases hcovered : Covered offset data (l * file.blockSize + j)
      · rw [if_pos hcovered, if_pos ⟨⟨le_refl l, hbe⟩, hcovered⟩]
      · rw [if_neg hcovered, if_neg (fun hboth => hcovered hboth.2)]
    · -- the others have what they had before this round
      have hne : q ≠ p := by
        rintro rfl
        exact hlb (hrest.sound.injective l b q hl hb')
      have hdata := (h.shape.trans hrest.shape).symm.dataBlock (hrest.sound.used l q hl).2
      have hsame : mid.vol.byte q j = file.vol.byte q j := by
        rw [Volume.byte, h.others q hne hdata]
        rfl
      have hrange : b + 1 ≤ l ∧ l < e ↔ b ≤ l ∧ l < e := by omega
      simp only [hrange, hsame]

theorem writeBlocks_succ_eq_ok
    (h : writeBlocks offset data (rounds + 1) file b written = (.ok w, file')) :
    ∃ written' mid, file.writeBlock offset data b written = (.ok written', mid) ∧
      writeBlocks offset data rounds mid (b + 1) written' = (.ok w, file') := by
  rw [writeBlocks] at h
  split at h
  · cases h
  · next written' mid hround => exact ⟨written', mid, hround, h⟩

theorem Sound.writeBlocks_ok (hs : file.Sound) (hend : b + rounds < 2 ^ 32)
    (hfirst : offset < b * file.blockSize + file.blockSize)
    (hwritten : written = min data.length (b * file.blockSize - offset))
    (h : writeBlocks offset data rounds file b written = (.ok w, file')) :
    file.WroteAll file' offset data b (b + rounds) ∧
      w = min data.length ((b + rounds) * file.blockSize - offset) := by
  induction rounds generalizing file b written with
  | zero =>
    cases h
    exact ⟨WroteAll.refl hs, hwritten⟩
  | succ rounds ih =>
    obtain ⟨written', mid, hround, hlater⟩ := writeBlocks_succ_eq_ok h
    obtain ⟨⟨p, hp⟩, hnext⟩ := hs.writeBlock_ok (by omega) hfirst hwritten hround
    have hsize := hp.blockSize_eq
    have hsucc : (b + 1) * file.blockSize = b * file.blockSize + file.blockSize :=
      Nat.succ_mul _ _
    have hcount : b + (rounds + 1) = b + 1 + rounds := by omega
    obtain ⟨hrest, hw⟩ := ih hp.sound (by omega) (by rw [hsize]; omega)
      (by rw [hsize]; exact hnext) hlater
    rw [hsize] at hw
    rw [hcount]
    exact ⟨hp.cons hrest (by omega), hw⟩

end Loop

def fileByte (file : File) (i : ℕ) : BitVec 8 :=
  match file.inode.blockMap (i / file.blockSize) with
  | some p => file.vol.byte p (i % file.blockSize)
  | none => 0

section Reading

variable {file : File} {size rounds logical p : ℕ} {data out : List (BitVec 8)}

theorem Sound.blockSize_pos (hs : file.Sound) : 0 < file.blockSize := by
  have hpos := hs.ready.layout.perGroup_pos
  have hle := hs.ready.layout.perGroup_le
  change 0 < file.vol.fs.blockSize.toNat
  omega

variable {l : ℕ} {inode : Ext4Inode} {vol : Volume}

theorem fileByte_eq {j : ℕ} (hj : j < file.blockSize) (hl : file.inode.blockMap l = some p) :
    file.fileByte (l * file.blockSize + j) = file.vol.byte p j := by
  have hdiv : (l * file.blockSize + j) / file.blockSize = l := by
    rw [Nat.mul_comm, Nat.mul_add_div (by omega), Nat.div_eq_of_lt hj, Nat.add_zero]
  have hmod : (l * file.blockSize + j) % file.blockSize = j := by
    rw [Nat.mul_comm, Nat.mul_add_mod, Nat.mod_eq_of_lt hj]
  rw [fileByte, hdiv, hmod, hl]

theorem Sound.readExact_block (hs : file.Sound) {n : ℕ} (hl : file.inode.blockMap l = some p)
    (hn : n ≤ file.blockSize) :
    readExact file.vol.storage (file.vol.fs.blockOffset (UInt64.ofNat p)) n
      = .ok (read file.fileByte (l * file.blockSize) n) := by
  have hdata := (hs.used l p hl).2
  have hinside := hdata.inside
  have hlt : p < 2 ^ 32 := by
    have hrange := hs.mapped_lt hl
    have hper := hs.ready.perGroup_le
    omega
  have hroom : p * file.vol.fs.blockSize.toNat + n ≤ file.vol.storage.length := by
    have hle : n ≤ file.vol.fs.blockSize.toNat := hn
    omega
  rw [Volume.blockOffset_eq _ hlt, readExact, if_neg (by omega)]
  congr 1
  have hlength := length_slice (a := p * file.vol.fs.blockSize.toNat) hroom
  apply ext_getElem
  · rw [length_read]
    omega
  · intro k hk hk'
    have hbyte : (slice file.vol.storage (p * file.vol.fs.blockSize.toNat)
        (p * file.vol.fs.blockSize.toNat + n)).getD k 0 = file.vol.byte p k := by
      have hle : n ≤ file.vol.fs.blockSize.toNat := hn
      rw [getD_slice (by omega), Volume.byte, Volume.block, getD_slice (by omega)]
    rw [← getD_eq_getElem _ 0 hk, hbyte, ← fileByte_eq (by omega) hl]
    simp only [Disk.read, getElem_map, getElem_range]

variable (size logical rounds) in
theorem Sound.readBlocks_eq (hs : file.Sound)
    (hmapped : ∀ l, l < logical + rounds → file.inode.blockMap l ≠ none)
    (hl : logical + rounds ≤ 2 ^ 32) :
    file.vol.readBlocks file.inode size rounds logical
        (read file.fileByte 0 (min size (logical * file.blockSize)))
      = .ok (read file.fileByte 0 (min size ((logical + rounds) * file.blockSize))) := by
  induction rounds generalizing logical with
  | zero => rfl
  | succ rounds ih =>
    obtain ⟨p, hp⟩ := Option.ne_none_iff_exists'.mp (hmapped logical (by omega))
    have hmod : logical % 2 ^ 32 = logical := Nat.mod_eq_of_lt (by omega)
    have hsucc : (logical + 1) * file.blockSize = logical * file.blockSize + file.blockSize :=
      Nat.succ_mul _ _
    have hnext : read file.fileByte 0 (min size (logical * file.blockSize))
        ++ read file.fileByte (logical * file.blockSize)
          (min file.blockSize (size - min size (logical * file.blockSize)))
        = read file.fileByte 0 (min size ((logical + 1) * file.blockSize)) := by
      rw [hsucc]
      by_cases hle : logical * file.blockSize ≤ size
      · have happend := read_append file.fileByte 0 (logical * file.blockSize)
          (min file.blockSize (size - logical * file.blockSize))
        rw [Nat.zero_add] at happend
        rw [Nat.min_eq_right hle, happend]
        congr 1
        omega
      · have hdone : min file.blockSize (size - min size (logical * file.blockSize)) = 0 := by omega
        have hall : min size (logical * file.blockSize + file.blockSize)
            = min size (logical * file.blockSize) := by omega
        rw [hdone, hall]
        exact append_nil _
    have hcount : logical + (rounds + 1) = logical + 1 + rounds := by omega
    rw [Volume.readBlocks, hmod, hs.flat.mapBlockWithStorage_eq, hp, length_read]
    simp only [hs.readExact_block hp (Nat.min_le_left _ _ :
      min file.vol.fs.blockSize.toNat (size - min size (logical * file.blockSize))
        ≤ file.blockSize)]
    rw [hcount]
    refine Eq.trans ?_ (ih (logical + 1) (fun l hlt => hmapped l (by omega)) (by omega))
    rw [← hnext]
    rfl

theorem readBlocks_length_le (hflat : inode.Flat) (hnone : inode.blockMap l = none)
    (hl : l < 2 ^ 32) (hle : logical ≤ l)
    (h : vol.readBlocks inode size rounds logical data = .ok out) :
    out.length ≤ data.length + (l - logical) * vol.fs.blockSize.toNat := by
  induction rounds generalizing logical data with
  | zero =>
    rw [← ok.inj h]
    exact Nat.le_add_right _ _
  | succ rounds ih =>
    have hmod : logical % 2 ^ 32 = logical := Nat.mod_eq_of_lt (by omega)
    rw [Volume.readBlocks, hmod, hflat.mapBlockWithStorage_eq] at h
    cases hmap : inode.blockMap logical with
    | none =>
      simp only [hmap, ok.injEq] at h
      rw [← h]
      exact Nat.le_add_right _ _
    | some p =>
      have hlt : logical < l := by
        rcases Nat.lt_or_eq_of_le hle with hlt | rfl
        · exact hlt
        · rw [hnone] at hmap
          simp at hmap
      simp only [hmap] at h
      cases hread : readExact vol.storage (vol.fs.blockOffset (UInt64.ofNat p))
        (min vol.fs.blockSize.toNat (size - data.length)) with
      | error fault =>
        simp only [hread] at h
        simp at h
      | ok block =>
        simp only [hread] at h
        have hblock : block.length ≤ vol.fs.blockSize.toNat := by
          rw [readExact] at hread
          split_ifs at hread
          rw [← ok.inj hread, slice, length_take]
          omega
        have hrest := ih (by omega) h
        have hsplit : l - logical = l - (logical + 1) + 1 := by omega
        rw [length_append] at hrest
        rw [hsplit, Nat.succ_mul]
        omega

variable (verify : Ext4Inode → List (BitVec 8) → Ext4Storage → Except Ext4Fault Unit)

theorem readFileFromStorage_eq (hplain : inode.hasFlag Ext4Inode.inlineDataFl = false)
    (hverity : inode.hasFlag Ext4Inode.verityFl = false) (hpos : vol.fs.blockSize.toNat ≠ 0) :
    vol.readFileFromStorage verify inode
      = (vol.readBlocks inode inode.size.toNat ((inode.size.toNat + vol.fs.blockSize.toNat - 1)
          % 2 ^ 64 / vol.fs.blockSize.toNat) 0 []).map (·.take inode.size.toNat) := by
  rw [Volume.readFileFromStorage]
  simp only [hplain, hverity, Bool.false_eq_true, if_false, hpos]
  generalize vol.readBlocks _ _ _ _ _ = result
  cases result with
  | error fault => rfl
  | ok data => rfl

theorem readFile_length_le (hflat : inode.Flat)
    (hplain : inode.hasFlag Ext4Inode.inlineDataFl = false)
    (hverity : inode.hasFlag Ext4Inode.verityFl = false) (hpos : vol.fs.blockSize.toNat ≠ 0)
    (hnone : inode.blockMap l = none) (hl : l < 2 ^ 32)
    (h : vol.readFileFromStorage verify inode = .ok out) :
    out.length ≤ l * vol.fs.blockSize.toNat := by
  rw [readFileFromStorage_eq verify hplain hverity hpos] at h
  obtain ⟨data, hread, rfl⟩ := Fallible.map_eq_ok.mp h
  have hle := readBlocks_length_le hflat hnone hl (Nat.zero_le l) hread
  rw [length_nil, Nat.sub_zero] at hle
  rw [length_take]
  omega

theorem Sound.readFile_eq (hs : file.Sound)
    (hmapped : ∀ l, l * file.blockSize < file.inode.size.toNat → file.inode.blockMap l ≠ none) :
    file.vol.readFileFromStorage verify file.inode
      = .ok (read file.fileByte 0 file.inode.size.toNat) := by
  have hpos := hs.blockSize_pos
  have hsize : file.blockSize < 2 ^ 32 := UInt32.toNat_lt _
  have hlt : ∀ l, l < (file.inode.size.toNat + file.blockSize - 1) / file.blockSize →
      l * file.blockSize < file.inode.size.toNat := by
    intro l hl
    have hle := (Nat.le_div_iff_mul_le hpos).mp hl
    rw [Nat.succ_mul] at hle
    omega
  -- the inode has room for so few blocks that nothing overflows
  have hfew := mapped_le fun l hl => hmapped l (hlt l hl)
  have hcover : file.inode.size.toNat
      ≤ (file.inode.size.toNat + file.blockSize - 1) / file.blockSize * file.blockSize := by
    have hdiv := Nat.div_add_mod' (file.inode.size.toNat + file.blockSize - 1) file.blockSize
    have hmod := Nat.mod_lt (file.inode.size.toNat + file.blockSize - 1) hpos
    omega
  have hbound := Nat.mul_le_mul hfew (Nat.le_of_lt hsize)
  have hnowrap : (file.inode.size.toNat + file.blockSize - 1) % 2 ^ 64
      = file.inode.size.toNat + file.blockSize - 1 := Nat.mod_eq_of_lt (by omega)
  have hread := hs.readBlocks_eq file.inode.size.toNat
    ((file.inode.size.toNat + file.blockSize - 1) / file.blockSize) 0
    (fun l hl => hmapped l (hlt l (by omega))) (by omega)
  rw [Nat.zero_mul, Nat.min_zero, Nat.zero_add, Nat.min_eq_left hcover] at hread
  rw [readFileFromStorage_eq verify hs.plain hs.unverified (Nat.ne_of_gt hpos)]
  change (file.vol.readBlocks file.inode file.inode.size.toNat
    ((file.inode.size.toNat + file.blockSize - 1) % 2 ^ 64 / file.blockSize) 0 []).map _ = _
  rw [hnowrap]
  have hnil : read file.fileByte 0 0 = [] := rfl
  rw [hnil] at hread
  rw [hread]
  have htake : (read file.fileByte 0 file.inode.size.toNat).take file.inode.size.toNat
      = read file.fileByte 0 file.inode.size.toNat :=
    take_of_length_le (by rw [length_read])
  exact congrArg Except.ok htake

end Reading

end EchOS.Fs.Ext4.File

namespace EchOS.Fs.Ext4.Volume

section Frame

variable (vol : Volume) (group : ℕ) (gd gd' : Ext4GroupDescriptor)

theorem blockSize_storeBitmap (bitmap : List (BitVec 8)) :
    (vol.storeBitmap group gd gd' bitmap).2.fs.blockSize = vol.fs.blockSize := by
  rw [storeBitmap]
  cases writeExact vol.storage (vol.bitmapOffset gd) bitmap with
  | error fault => rfl
  | ok storage =>
    dsimp only
    split
    · rfl
    · rfl

theorem blockSize_allocUninit : (vol.allocUninit group gd).2.fs.blockSize = vol.fs.blockSize := by
  rw [allocUninit]
  split
  · rfl
  · split_ifs
    · rfl
    · split
      · rfl
      · split
        · rfl
        · exact blockSize_storeBitmap vol group gd _ _

theorem blockSize_allocScan : (vol.allocScan group gd).2.fs.blockSize = vol.fs.blockSize := by
  rw [allocScan]
  split
  · rfl
  · split
    · rfl
    · exact blockSize_storeBitmap vol group gd _ _

theorem blockSize_allocGroup : (vol.allocGroup group).2.fs.blockSize = vol.fs.blockSize := by
  rw [allocGroup]
  split
  · rfl
  · split_ifs
    · exact blockSize_allocUninit vol group _
    · rfl
    · exact blockSize_allocScan vol group _

theorem blockSize_allocFrom (gs : List ℕ) :
    (vol.allocFrom gs).2.fs.blockSize = vol.fs.blockSize := by
  induction gs generalizing vol with
  | nil => rfl
  | cons g gs ih =>
    have hfs := blockSize_allocGroup vol g
    rw [allocFrom]
    cases hgroup : vol.allocGroup g with
    | mk result next =>
      rw [hgroup] at hfs
      cases result with
      | some result => exact hfs
      | none => exact (ih next).trans hfs

theorem blockSize_allocBlock : vol.allocBlock.2.fs.blockSize = vol.fs.blockSize := by
  rw [allocBlock]
  split_ifs
  · rfl
  · rfl
  · exact blockSize_allocFrom vol _

end Frame

end EchOS.Fs.Ext4.Volume

namespace EchOS.Fs.Ext4.File

structure Kept (file file' : File) : Prop where
  blockSize_eq : file'.blockSize = file.blockSize
  flat : file.inode.Flat → file'.inode.Flat
  flags : ∀ flag, Ext4Inode.extentsFl &&& flag = 0 →
    file'.inode.hasFlag flag = file.inode.hasFlag flag

section Keeping

variable {file mid file' : File} {offset b p written : ℕ} {data : List (BitVec 8)} {w rounds : ℕ}

theorem Kept.refl (file : File) : file.Kept file := ⟨rfl, id, fun _ _ => rfl⟩

theorem Kept.trans (h : file.Kept mid) (h' : mid.Kept file') : file.Kept file' :=
  ⟨h'.blockSize_eq.trans h.blockSize_eq, fun hflat => h'.flat (h.flat hflat),
    fun flag hflag => (h'.flags flag hflag).trans (h.flags flag hflag)⟩

theorem kept_of_blockFor (h : file.blockFor b = (.ok p, file')) : file.Kept file' := by
  obtain ⟨-, rfl⟩ | ⟨block, vol, inode, -, halloc, hinsert, -, rfl⟩ := blockFor_eq_ok h
  · exact Kept.refl _
  · have hfs := file.vol.blockSize_allocBlock
    rw [halloc] at hfs
    refine ⟨congrArg UInt32.toNat hfs, fun _ => flat_of_insertExtent hinsert, fun flag hflag => ?_⟩
    exact hasFlag_or (flags_of_insertExtent hinsert) hflag

theorem kept_of_writeBlock (h : file.writeBlock offset data b written = (.ok w, file')) :
    file.Kept file' := by
  rw [writeBlock] at h
  split at h
  · cases h
  · next p mid hfor =>
    have hmid := kept_of_blockFor hfor
    dsimp only at h
    generalize (if b * mid.blockSize < offset then offset - b * mid.blockSize else 0) = start at h
    split_ifs at h
    · split at h
      · cases h
      · -- the data goes to the storage, and the rest of the file stays
        obtain ⟨-, rfl⟩ := Prod.mk.inj h
        exact hmid.trans ⟨rfl, id, fun _ _ => rfl⟩
    · obtain ⟨-, rfl⟩ := Prod.mk.inj h
      exact hmid

theorem kept_of_writeBlocks
    (h : writeBlocks offset data rounds file b written = (.ok w, file')) : file.Kept file' := by
  induction rounds generalizing file b written with
  | zero =>
    obtain ⟨-, rfl⟩ := Prod.mk.inj h
    exact Kept.refl _
  | succ rounds ih =>
    obtain ⟨written', mid, hround, hrest⟩ := writeBlocks_succ_eq_ok h
    exact (kept_of_writeBlock hround).trans (ih hrest)

theorem writeBlocks_add {rest : ℕ}
    (h : writeBlocks offset data (rounds + rest) file b written = (.ok w, file')) :
    ∃ w' mid, writeBlocks offset data rounds file b written = (.ok w', mid) := by
  induction rounds generalizing file b written with
  | zero => exact ⟨written, file, rfl⟩
  | succ rounds ih =>
    have hcount : rounds + 1 + rest = (rounds + rest) + 1 := by omega
    rw [hcount] at h
    obtain ⟨written', mid, hround, hrest⟩ := writeBlocks_succ_eq_ok h
    rw [writeBlocks, hround]
    exact ih hrest

theorem size_setSize (inode : Ext4Inode) (newSize : UInt64) :
    (inode.setSize newSize).size = newSize := by
  have hbound := newSize.toNat_lt
  have hlo : (newSize &&& 0xFFFFFFFF).toUInt32.toNat = newSize.toNat % 2 ^ 32 := by
    have hlit : (0xFFFFFFFF : UInt64).toNat = 2 ^ 32 - 1 := rfl
    rw [UInt64.toNat_toUInt32, UInt64.toNat_and, hlit, Nat.and_two_pow_sub_one_eq_mod, Nat.mod_mod]
  have hhi : (newSize >>> 32).toUInt32.toNat = newSize.toNat / 2 ^ 32 := by
    have hlit : (32 : UInt64).toNat % 64 = 32 := rfl
    rw [UInt64.toNat_toUInt32, UInt64.toNat_shiftRight, hlit, Nat.shiftRight_eq_div_pow]
    exact Nat.mod_eq_of_lt (by omega)
  have hshift : ((newSize >>> 32).toUInt32.toUInt64 <<< 32).toNat
      = (newSize.toNat / 2 ^ 32) <<< 32 := by
    have hlit : (32 : UInt64).toNat % 64 = 32 := rfl
    rw [UInt64.toNat_shiftLeft, UInt32.toNat_toUInt64, hhi, hlit]
    exact Nat.mod_eq_of_lt (by omega)
  apply UInt64.toNat_inj.mp
  rw [Ext4Inode.size, Ext4Inode.setSize, UInt64.toNat_or, hshift, UInt32.toNat_toUInt64, hlo,
    ← Nat.shiftLeft_add_eq_or_of_lt (Nat.mod_lt _ (by decide))]
  omega

theorem writeFileToStorage_ok {start : UInt64}
    (h : file.writeFileToStorage start data = (.ok w, file')) :
    0 < file.blockSize ∧ ∃ mid, writeBlocks start.toNat data
      ((start.toNat + data.length + file.blockSize - 1) % 2 ^ 64 / file.blockSize
        - start.toNat / file.blockSize) file (start.toNat / file.blockSize) 0 = (.ok w, mid) ∧
      file' = { mid with inode :=
        if mid.inode.size < start + UInt64.ofNat w then mid.inode.setSize (start + UInt64.ofNat w)
        else mid.inode } := by
  rw [writeFileToStorage] at h
  split_ifs at h with hreadOnly hinline hzero
  · cases h
  · cases h
  · cases h
  · refine ⟨Nat.pos_of_ne_zero hzero, ?_⟩
    dsimp only at h
    split at h
    · cases h
    · next written mid hloop =>
      split_ifs at h with hgrown <;>
        obtain ⟨hw, rfl⟩ := Prod.mk.inj h <;>
        obtain rfl := Except.ok.inj hw <;>
        refine ⟨mid, hloop, ?_⟩
      · rw [if_pos hgrown]
      · rw [if_neg hgrown]

end Keeping

end EchOS.Fs.Ext4.File
