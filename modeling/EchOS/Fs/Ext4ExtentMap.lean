import EchOS.Fs.Ext4Extent
import Mathlib.Data.Finset.Interval
import Mathlib.Order.Interval.Finset.Nat

/-! The list of extents that an inode holds, as a map from logical blocks to blocks of the volume:
how the bytes of a leaf are read, what the search in a leaf finds, and how an insertion changes the
map. -/

namespace EchOS.Fs.Ext4

open Ext4Extent

open Bytes Ext4Inode List

section Encoding

structure Ext4Extent.Fits (e : Ext4Extent) : Prop where
  pos : 0 < e.eeLen
  len_lt : e.eeLen < 2 ^ 15
  end_lt : e.eeBlock + e.eeLen < 2 ^ 32
  start_lt : e.eeStart + e.eeLen ≤ 2 ^ 48

variable {e : Ext4Extent} {es : List Ext4Extent} {data rest : List (BitVec 8)}

@[simp] theorem length_serialize (e : Ext4Extent) : e.serialize.length = 12 := by
  simp [serialize]

@[simp] theorem length_leafHeader (n : ℕ) : (leafHeader n).length = 12 := by
  simp [leafHeader]

theorem parse_serialize (he : e.Fits) (rest : List (BitVec 8)) :
    parse (e.serialize ++ rest) = some e := by
  have hlen := he.len_lt
  have hend := he.end_lt
  have hstart := he.start_lt
  have hpos := he.pos
  have hlength : ¬ (e.serialize ++ rest).length < 12 := by
    rw [length_append, length_serialize]
    omega
  -- the four fields, one after the other
  have hblock : ofLe (slice (e.serialize ++ rest) 0 4) = e.eeBlock := by
    have hbytes : slice (e.serialize ++ rest) 0 4 = toLe 4 e.eeBlock := rfl
    rw [hbytes, ofLe_toLe (by omega)]
  have hcount : ofLe (slice (e.serialize ++ rest) 4 6) = e.eeLen := by
    have hbytes : slice (e.serialize ++ rest) 4 6 = toLe 2 e.eeLen := rfl
    rw [hbytes, ofLe_toLe (by omega)]
  have hhi : ofLe (slice (e.serialize ++ rest) 6 8) = e.eeStart >>> 32 := by
    have hbytes : slice (e.serialize ++ rest) 6 8 = toLe 2 (e.eeStart >>> 32) := rfl
    rw [hbytes, ofLe_toLe (by rw [Nat.shiftRight_eq_div_pow]; omega)]
  have hlo : ofLe (slice (e.serialize ++ rest) 8 12) = e.eeStart % 2 ^ 32 := by
    have hbytes : slice (e.serialize ++ rest) 8 12 = toLe 4 e.eeStart := rfl
    have hpow : (256 : ℕ) ^ 4 = 2 ^ 32 := by decide
    rw [hbytes, ofLe_toLe_mod, hpow]
  have hmask : e.eeLen &&& 0x7FFF = e.eeLen := by
    have hand := Nat.and_two_pow_sub_one_eq_mod e.eeLen 15
    rw [Nat.mod_eq_of_lt hlen] at hand
    exact hand
  have hjoin : e.eeStart >>> 32 <<< 32 ||| e.eeStart % 2 ^ 32 = e.eeStart := by
    rw [← Nat.shiftLeft_add_eq_or_of_lt (Nat.mod_lt _ (by decide))]
    omega
  rw [parse, if_neg hlength, hblock, hcount, hhi, hlo, hmask, hjoin]

theorem parse_leafHeader {n : ℕ} (hn : n < 2 ^ 16) (rest : List (BitVec 8)) :
    Ext4ExtentHeader.parse (leafHeader n ++ rest) = some
      { ehMagic := extentMagic, ehEntries := n, ehMax := 4, ehDepth := 0, ehGeneration := 0 } := by
  have hlength : ¬ (leafHeader n ++ rest).length < 12 := by
    rw [length_append, length_leafHeader]
    omega
  -- each field is a slice of the header
  have hfield : ∀ a b k v, slice (leafHeader n ++ rest) a b = toLe k v → v < 256 ^ k →
      ofLe (slice (leafHeader n ++ rest) a b) = v := by
    intro a b k v hbytes hv
    rw [hbytes, ofLe_toLe hv]
  have hmagic := hfield 0 2 2 extentMagic rfl (by decide)
  have hentries := hfield 2 4 2 n rfl (by omega)
  have hmax := hfield 4 6 2 4 rfl (by decide)
  have hdepth := hfield 6 8 2 0 rfl (by decide)
  have hgeneration := hfield 8 12 4 0 rfl (by decide)
  rw [Ext4ExtentHeader.parse, if_neg hlength, hmagic, if_neg (not_not.mpr rfl), hentries, hmax,
    hdepth, hgeneration]

theorem length_flatMap_serialize (es : List Ext4Extent) :
    (es.flatMap serialize).length = 12 * es.length := by
  induction es with
  | nil => rfl
  | cons e es ih =>
    rw [flatMap_cons, length_append, length_serialize, length_cons]
    omega

theorem length_encodeLeaf (h : es.length ≤ 4) : (encodeLeaf es).length = 60 := by
  rw [encodeLeaf, length_append, length_append, length_leafHeader,
    length_flatMap_serialize, length_replicate]
  omega

theorem drop_flatMap_serialize (es : List Ext4Extent) (i : ℕ) (rest : List (BitVec 8))
    (hi : i ≤ es.length) :
    (es.flatMap serialize ++ rest).drop (i * 12)
      = (es.drop i).flatMap serialize ++ rest := by
  induction i generalizing es with
  | zero => rw [drop_zero, drop_zero]
  | succ i ih =>
    cases es with
    | nil => exact absurd hi (Nat.not_succ_le_zero i)
    | cons e es =>
      have hsplit : (i + 1) * 12 = e.serialize.length + i * 12 := by
        rw [length_serialize]
        omega
      rw [flatMap_cons, append_assoc, hsplit, drop_length_add_append,
        ih es (Nat.le_of_succ_le_succ hi), drop_succ_cons]

structure Leaf (data : List (BitVec 8)) (es : List Ext4Extent) : Prop where
  length_eq : data.length = 60
  header : ∃ header, Ext4ExtentHeader.parse data = some header ∧ header.ehDepth = 0 ∧
    header.ehEntries = es.length
  fits : es.length ≤ 4
  entry : ∀ i (hi : i < es.length), parse (data.drop (12 + i * 12)) = some es[i]

theorem leaf_encodeLeaf (hlength : es.length ≤ 4) (hes : ∀ e ∈ es, e.Fits) :
    Leaf (encodeLeaf es) es where
  length_eq := length_encodeLeaf hlength
  header := by
    rw [encodeLeaf, append_assoc]
    exact ⟨_, parse_leafHeader (by omega) _, rfl, rfl⟩
  fits := hlength
  entry := by
    intro i hi
    have hdrop : (encodeLeaf es).drop (12 + i * 12) = (es.drop i).flatMap serialize
        ++ List.replicate (48 - 12 * es.length) 0 := by
      have hsplit : 12 + i * 12 = (leafHeader es.length).length + i * 12 := by
        rw [length_leafHeader]
      rw [encodeLeaf, append_assoc, hsplit, drop_length_add_append,
        drop_flatMap_serialize es i _ (Nat.le_of_lt hi)]
    rw [hdrop, drop_eq_getElem_cons hi, flatMap_cons]
    exact parse_serialize (hes _ (getElem_mem hi)) _

theorem Leaf.collectExtents_eq (h : Leaf data es) : collectExtents data es.length = es := by
  have hmin := Nat.min_eq_left h.fits
  have hread : ∀ i ∈ List.range es.length, parse (data.drop (12 + i * 12))
      = (some ∘ fun i => es.getD i ⟨0, 0, 0⟩) i := by
    intro i hi
    have hlt := mem_range.mp hi
    rw [h.entry i hlt, Function.comp_apply, getD_eq_getElem _ _ hlt]
  rw [collectExtents, hmin, filterMap_congr hread, filterMap_eq_map]
  apply ext_getElem
  · rw [length_map, length_range]
  · intro i _ hi
    rw [getElem_map, getElem_range, getD_eq_getElem _ _ hi]

end Encoding

section Lookup

def Ext4Extent.Covers (e : Ext4Extent) (l : ℕ) : Prop := e.eeBlock ≤ l ∧ l < e.eeBlock + e.eeLen

def Maps (es : List Ext4Extent) (l p : ℕ) : Prop :=
  ∃ e ∈ es, e.Covers l ∧ p = e.eeStart + (l - e.eeBlock)

def Ext4Extent.Before (a b : Ext4Extent) : Prop := a.eeBlock + a.eeLen ≤ b.eeBlock

variable {e : Ext4Extent} {es : List Ext4Extent} {data : List (BitVec 8)} {l p : ℕ}

structure Ext4Extent.InRange (e : Ext4Extent) : Prop where
  pos : 0 < e.eeLen
  end_lt : e.eeBlock + e.eeLen < 2 ^ 32
  start_le : e.eeStart + e.eeLen ≤ 2 ^ 64

theorem Ext4Extent.Fits.inRange (he : e.Fits) : e.InRange := by
  have hstart := he.start_lt
  exact ⟨he.pos, he.end_lt, by omega⟩

theorem Ext4Extent.InRange.locate_eq_some_iff (he : e.InRange) (hle : e.eeBlock ≤ l) :
    e.locate l = some p ↔ e.Covers l ∧ p = e.eeStart + (l - e.eeBlock) := by
  have hend := he.end_lt
  have hstart := he.start_le
  unfold locate Covers
  rw [Nat.mod_eq_of_lt hend]
  by_cases hlt : l < e.eeBlock + e.eeLen
  · have hsmall : e.eeStart + (l - e.eeBlock) < 2 ^ 64 := by omega
    rw [if_pos hlt, Nat.mod_eq_of_lt hsmall, Option.some.injEq]
    constructor
    · intro h
      exact ⟨⟨hle, hlt⟩, h.symm⟩
    · rintro ⟨-, h⟩
      exact h.symm
  · rw [if_neg hlt]
    constructor
    · intro h
      simp at h
    · rintro ⟨⟨-, h⟩, -⟩
      exact absurd h hlt

section Node

variable {α : Type} {key : α → ℕ} {xs : List α}

theorem exists_split_keys (hsorted : xs.Pairwise fun a b => key a < key b) (l : ℕ) :
    ∃ front back, xs = front ++ back ∧ (∀ x ∈ front, key x ≤ l) ∧ ∀ x ∈ back, l < key x := by
  induction xs with
  | nil => exact ⟨[], [], rfl, nofun, nofun⟩
  | cons x xs ih =>
    obtain ⟨hfirst, hrest⟩ := pairwise_cons.mp hsorted
    by_cases hle : key x ≤ l
    · obtain ⟨front, back, rfl, hfront, hback⟩ := ih hrest
      exact ⟨x :: front, back, rfl, forall_mem_cons.mpr ⟨hle, hfront⟩, hback⟩
    · refine ⟨[], x :: xs, rfl, nofun, forall_mem_cons.mpr ⟨Nat.lt_of_not_le hle, fun y hy => ?_⟩⟩
      have hlt := hfirst y hy
      omega

theorem searchNode_cases {parse : List (BitVec 8) → Option α}
    (hentry : ∀ i (hi : i < xs.length), entryAt parse data i = some xs[i])
    (hsorted : xs.Pairwise fun a b => key a < key b) (l : ℕ) :
    (searchNode parse key data xs.length l = none ∧ ∀ x ∈ xs, l < key x) ∨
      ∃ before x after, xs = before ++ x :: after ∧ key x ≤ l ∧ (∀ y ∈ after, l < key y) ∧
        searchNode parse key data xs.length l = some x := by
  obtain ⟨front, back, rfl, hfront, hback⟩ := exists_split_keys hsorted l
  have hsearch : searchNode parse key data (front ++ back).length l
      = if 0 < front.length then entryAt parse data (front.length - 1) else none := by
    refine BinarySearch.last_eq (fun i hi => ⟨_, hentry i hi, ?_⟩) (Nat.zero_le _)
      (by simp) (Nat.le_refl _)
    rw [decide_eq_true_iff]
    by_cases hlt : i < front.length
    · rw [getElem_append_left hlt]
      exact iff_of_true (hfront _ (getElem_mem hlt)) hlt
    · rw [getElem_append_right (Nat.le_of_not_lt hlt)]
      exact iff_of_false (Nat.not_le.mpr (hback _ (getElem_mem _))) hlt
  rcases eq_nil_or_concat front with rfl | ⟨before, x, rfl⟩
  · exact .inl ⟨hsearch, hback⟩
  · rw [concat_eq_append, append_assoc] at *
    refine .inr ⟨before, x, back, rfl, hfront x (by simp), hback, hsearch.trans ?_⟩
    have hlast := hentry before.length (by simp)
    simpa using hlast

end Node

theorem findExtentInLeafData_eq_some_iff {header : Ext4ExtentHeader}
    (hheader : Ext4ExtentHeader.parse data = some header) (hentries : header.ehEntries = es.length)
    (hentry : ∀ i (hi : i < es.length), entryAt parse data i = some es[i])
    (hes : es.Pairwise Before) (hrange : ∀ e ∈ es, e.InRange) :
    findExtentInLeafData data l = some p ↔ Maps es l p := by
  have hsorted : es.Pairwise fun a b => a.eeBlock < b.eeBlock := by
    refine hes.imp_of_mem fun {a b} ha _ hbefore => ?_
    have hpos := (hrange a ha).pos
    unfold Before at hbefore
    omega
  rw [findExtentInLeafData, hheader]
  simp only [hentries]
  rcases searchNode_cases hentry hsorted l with
    ⟨hsearch, hbehind⟩ | ⟨before, e, after, rfl, hle, hbehind, hsearch⟩
  · rw [hsearch]
    refine iff_of_false nofun ?_
    rintro ⟨e, hmem, hcovers, -⟩
    exact Nat.not_le.mpr (hbehind e hmem) hcovers.1
  · rw [hsearch, Option.bind_some, (hrange e (by simp)).locate_eq_some_iff hle]
    refine ⟨fun hfound => ⟨e, by simp, hfound⟩, ?_⟩
    rintro ⟨x, hmem, hcovers, hp⟩
    rcases mem_append.mp hmem with hin | hin
    · -- an extent before the one that was found ends before the block
      have hbefore := (pairwise_append.mp hes).2.2 x hin e mem_cons_self
      have hlt := hcovers.2
      unfold Before at hbefore
      omega
    · rcases mem_cons.mp hin with rfl | hin
      · exact ⟨hcovers, hp⟩
      · exact absurd hcovers.1 (Nat.not_le.mpr (hbehind x hin))

theorem Leaf.find_eq_some_iff (h : Leaf data es) (hes : es.Pairwise Before)
    (hfits : ∀ e ∈ es, e.Fits) : findExtentInLeafData data l = some p ↔ Maps es l p := by
  obtain ⟨header, hheader, -, hentries⟩ := h.header
  refine findExtentInLeafData_eq_some_iff hheader hentries (fun i hi => ?_) hes
    fun e he => (hfits e he).inRange
  have hlength := h.fits
  rw [entryAt, if_neg (by rw [h.length_eq]; omega), h.entry i hi]

end Lookup

section Insertion

/-- A property of extents that makes them fit an entry and that two neighbours share with the
extent they are joined to. -/
structure Merges (Q : Ext4Extent → Prop) : Prop where
  fits : ∀ e, Q e → e.Fits
  join : ∀ a b, Q a → Q b → a.eeBlock + a.eeLen = b.eeBlock → a.eeStart + a.eeLen = b.eeStart →
    Q { a with eeLen := a.eeLen + b.eeLen }

structure Valid (Q : Ext4Extent → Prop) (es : List Ext4Extent) : Prop where
  apart : es.Pairwise Before
  each : ∀ e ∈ es, Q e

variable {Q : Ext4Extent → Prop} {es : List Ext4Extent} {a b : Ext4Extent}
  {rest merged : List Ext4Extent}

theorem maps_append (es es' : List Ext4Extent) (l p : ℕ) :
    Maps (es ++ es') l p ↔ Maps es l p ∨ Maps es' l p := by
  simp only [Maps, mem_append, or_and_right, exists_or]

theorem maps_cons (e : Ext4Extent) (es : List Ext4Extent) (l p : ℕ) :
    Maps (e :: es) l p ↔ (e.Covers l ∧ p = e.eeStart + (l - e.eeBlock)) ∨ Maps es l p := by
  simp only [Maps, mem_cons, or_and_right, exists_or, exists_eq_left]

theorem maps_join (hblock : a.eeBlock + a.eeLen = b.eeBlock)
    (hstart : a.eeStart + a.eeLen = b.eeStart) (es : List Ext4Extent) (l p : ℕ) :
    Maps ({ a with eeLen := a.eeLen + b.eeLen } :: es) l p ↔ Maps (a :: b :: es) l p := by
  rw [maps_cons, maps_cons, maps_cons, ← or_assoc]
  refine or_congr_left ?_
  unfold Covers
  dsimp only
  constructor
  · rintro ⟨⟨hle, hlt⟩, hp⟩
    by_cases hfirst : l < a.eeBlock + a.eeLen
    · exact .inl ⟨⟨hle, hfirst⟩, hp⟩
    · exact .inr ⟨⟨by omega, by omega⟩, by omega⟩
  · rintro (⟨⟨hle, hlt⟩, hp⟩ | ⟨⟨hle, hlt⟩, hp⟩)
    · exact ⟨⟨hle, by omega⟩, hp⟩
    · exact ⟨⟨by omega, by omega⟩, by omega⟩

theorem Valid.join (hQ : Merges Q) {front : List Ext4Extent}
    (h : Valid Q (front ++ a :: b :: rest)) (hblock : a.eeBlock + a.eeLen = b.eeBlock)
    (hstart : a.eeStart + a.eeLen = b.eeStart) :
    Valid Q (front ++ { a with eeLen := a.eeLen + b.eeLen } :: rest) := by
  have hmem : ∀ e, e = a ∨ e = b → Q e := by
    rintro e (rfl | rfl)
    · exact h.each _ (by simp)
    · exact h.each _ (by simp)
  obtain ⟨hfront, hback, hcross⟩ := pairwise_append.mp h.apart
  obtain ⟨-, hback'⟩ := pairwise_cons.mp hback
  obtain ⟨hbrest, hrest⟩ := pairwise_cons.mp hback'
  constructor
  · refine pairwise_append.mpr ⟨hfront, pairwise_cons.mpr ⟨?_, hrest⟩, ?_⟩
    · intro e he
      have hbefore := hbrest e he
      unfold Before at hbefore ⊢
      dsimp only
      omega
    · intro x hx y hy
      rcases mem_cons.mp hy with rfl | hy
      · exact hcross x hx a mem_cons_self
      · exact hcross x hx y (by simp [hy])
  · intro e he
    rcases mem_append.mp he with hin | hin
    · exact h.each e (mem_append_left _ hin)
    · rcases mem_cons.mp hin with rfl | hin
      · exact hQ.join a b (hmem a (.inl rfl)) (hmem b (.inr rfl)) hblock hstart
      · exact h.each e (by simp [hin])

theorem Valid.mergeExtent (hQ : Merges Q) {ext : Ext4Extent} (h : Valid Q (merged ++ ext :: rest)) :
    Valid Q (mergeExtent merged ext ++ rest) ∧
      ∀ l p, Maps (mergeExtent merged ext ++ rest) l p ↔ Maps (merged ++ ext :: rest) l p := by
  have hkeep : merged ++ [ext] ++ rest = merged ++ ext :: rest := append_cons .. |>.symm
  rcases eq_nil_or_concat merged with rfl | ⟨front, last, rfl⟩
  · exact ⟨h, fun l p => Iff.rfl⟩
  · have hlast := hQ.fits last (h.each last (by simp))
    have hend := hlast.end_lt
    have hstart := hlast.start_lt
    unfold Ext4.mergeExtent
    rw [concat_eq_append] at *
    simp only [List.getLast?_concat, dropLast_concat, Nat.mod_eq_of_lt hend,
      Nat.mod_eq_of_lt (by omega : last.eeStart + last.eeLen < 2 ^ 64)]
    by_cases hnext : last.eeBlock + last.eeLen = ext.eeBlock ∧
        last.eeStart + last.eeLen = ext.eeStart
    · rw [append_assoc] at h
      have hvalid := h.join hQ hnext.1 hnext.2
      have hfits :=
        (hQ.fits _ (hvalid.each { last with eeLen := last.eeLen + ext.eeLen } (by simp))).len_lt
      dsimp only at hfits
      rw [if_pos hnext, Nat.mod_eq_of_lt (by omega : last.eeLen + ext.eeLen < 2 ^ 16),
        append_assoc, singleton_append]
      refine ⟨hvalid, fun l p => ?_⟩
      rw [append_assoc, singleton_append, maps_append, maps_append,
        maps_join hnext.1 hnext.2]
    · rw [if_neg hnext, hkeep]
      exact ⟨h, fun l p => Iff.rfl⟩

theorem Valid.foldl_mergeExtent (hQ : Merges Q) (h : Valid Q (merged ++ rest)) :
    Valid Q (rest.foldl Ext4.mergeExtent merged) ∧
      ∀ l p, Maps (rest.foldl Ext4.mergeExtent merged) l p ↔ Maps (merged ++ rest) l p := by
  induction rest generalizing merged with
  | nil =>
    rw [append_nil] at h ⊢
    exact ⟨h, fun l p => Iff.rfl⟩
  | cons ext rest ih =>
    obtain ⟨hvalid, hmaps⟩ := h.mergeExtent hQ
    obtain ⟨hall, hallMaps⟩ := ih hvalid
    exact ⟨hall, fun l p => (hallMaps l p).trans (hmaps l p)⟩

theorem Valid.sortExtents (hQ : Merges Q) (h : Valid Q es) (ha : Q a)
    (hfree : ∀ e ∈ es, e.Before a ∨ a.Before e) : Valid Q (sortExtents (es ++ [a])) := by
  have hmem : ∀ e ∈ Ext4.sortExtents (es ++ [a]), Q e := by
    intro e he
    rcases mem_append.mp ((mem_insertionSort _).mp he) with hin | hin
    · exact h.each e hin
    · rw [mem_singleton.mp hin]
      exact ha
  -- no two overlap, in whatever order, and the order is that of their first blocks
  have hapart : (es ++ [a]).Pairwise fun x y => x.Before y ∨ y.Before x := by
    refine pairwise_append.mpr ⟨h.apart.imp .inl, pairwise_singleton _ _, ?_⟩
    intro x hx y hy
    rw [mem_singleton.mp hy]
    exact hfree x hx
  have hperm := perm_insertionSort (fun x y : Ext4Extent => x.eeBlock ≤ y.eeBlock) (es ++ [a])
  have hsorted := (hperm.pairwise_iff Or.symm).mpr hapart
  have hordered : (Ext4.sortExtents (es ++ [a])).Pairwise fun x y => x.eeBlock ≤ y.eeBlock := by
    exact pairwise_insertionSort _ _
  refine ⟨(hsorted.and hordered).imp_of_mem ?_, hmem⟩
  rintro x y hx hy ⟨hxy | hyx, hle⟩
  · exact hxy
  · have hpos := (hQ.fits y (hmem y hy)).pos
    unfold Before at hyx
    omega

theorem maps_sortExtents (es : List Ext4Extent) (l p : ℕ) :
    Maps (sortExtents es) l p ↔ Maps es l p := by
  unfold Maps
  simp only [sortExtents, mem_insertionSort]

/-- An inode with a list of extents: a leaf, or no header at all while there are none. -/
def Holds (inode : Ext4Inode) (es : List Ext4Extent) : Prop :=
  Leaf inode.iBlock.toList es ∨ Ext4ExtentHeader.parse inode.iBlock.toList = none ∧ es = []

theorem insertExtent_eq {inode : Ext4Inode} (h : Holds inode es) (l p n : ℕ) :
    insertExtent inode l p n =
      if 4 < ((sortExtents (es ++ [⟨l, n, p⟩])).foldl mergeExtent []).length then
        .error (.error .notSupported)
      else .ok { inode with
        iFlags := inode.iFlags ||| extentsFl
        iBlock :=
          array 60 (encodeLeaf ((sortExtents (es ++ [⟨l, n, p⟩])).foldl mergeExtent [])) } := by
  unfold insertExtent
  rcases h with hleaf | ⟨hnone, rfl⟩
  · obtain ⟨header, hheader, hdepth, hentries⟩ := hleaf.header
    simp only [hheader, hdepth, hentries, hleaf.collectExtents_eq, ne_eq, not_true_eq_false,
      if_false]
  · have hpatch : Disk.patch inode.iBlock.toList 0 (leafHeader 0)
        = leafHeader 0 ++ inode.iBlock.toList.drop 12 := rfl
    have hheader := parse_leafHeader (by decide : 0 < 2 ^ 16) (inode.iBlock.toList.drop 12)
    simp only [hnone, hpatch, hheader, ne_eq, not_true_eq_false, if_false]
    rfl

theorem insertExtent_ok (hQ : Merges Q) {inode inode' : Ext4Inode} {l p n : ℕ}
    (hholds : Holds inode es) (hvalid : Valid Q es) (hadded : Q ⟨l, n, p⟩)
    (hfree : ∀ e ∈ es, e.Before ⟨l, n, p⟩ ∨ Before ⟨l, n, p⟩ e)
    (h : insertExtent inode l p n = .ok inode') :
    ∃ es', Leaf inode'.iBlock.toList es' ∧ Valid Q es' ∧
      (∀ x q, Maps es' x q ↔ Maps es x q ∨ Maps [⟨l, n, p⟩] x q) ∧
      inode' = { inode with
        iFlags := inode.iFlags ||| extentsFl
        iBlock := inode'.iBlock } := by
  have hsorted : Valid Q ([] ++ sortExtents (es ++ [⟨l, n, p⟩])) :=
    hvalid.sortExtents hQ hadded hfree
  obtain ⟨hmerged, hmaps⟩ := hsorted.foldl_mergeExtent hQ
  rw [insertExtent_eq hholds] at h
  split_ifs at h with hlength
  cases h
  refine ⟨_, ?_, hmerged, ?_, rfl⟩
  · have hfits : ∀ e ∈ (sortExtents (es ++ [⟨l, n, p⟩])).foldl mergeExtent [], e.Fits :=
      fun e he => hQ.fits e (hmerged.each e he)
    rw [toList_array (length_encodeLeaf (Nat.le_of_not_lt hlength))]
    exact leaf_encodeLeaf (Nat.le_of_not_lt hlength) hfits
  · intro x q
    rw [hmaps, nil_append, maps_sortExtents, maps_append]

end Insertion

section Inode

def Ext4Inode.blockMap (inode : Ext4Inode) (l : ℕ) : Option ℕ :=
  findExtentInLeafData inode.iBlock.toList l

structure Ext4Inode.Flat (inode : Ext4Inode) : Prop where
  extents : inode.usesExtents = true
  depth : ∀ header, Ext4ExtentHeader.parse inode.iBlock.toList = some header → header.ehDepth = 0

variable {inode inode' : Ext4Inode} {es : List Ext4Extent} {Q : Ext4Extent → Prop} {l p n : ℕ}
  {data : List (BitVec 8)}

theorem Ext4Inode.Flat.mapBlockWithStorage_eq (h : inode.Flat) (vol : Volume) (l : ℕ) :
    vol.mapBlockWithStorage inode l = .ok (inode.blockMap l) := by
  rw [Volume.mapBlockWithStorage, if_pos h.extents, Volume.mapBlockExtentTreeWithStorage,
    Ext4Inode.blockMap]
  cases hheader : Ext4ExtentHeader.parse inode.iBlock.toList with
  | none => simp only [findExtentInLeafData, hheader]
  | some header => simp only [h.depth header hheader, if_true]

theorem Holds.blockMap_eq_some_iff (hQ : Merges Q) (h : Holds inode es) (hvalid : Valid Q es) :
    inode.blockMap l = some p ↔ Maps es l p := by
  rcases h with hleaf | ⟨hnone, rfl⟩
  · exact hleaf.find_eq_some_iff hvalid.apart fun e he => hQ.fits e (hvalid.each e he)
  · rw [Ext4Inode.blockMap, findExtentInLeafData, hnone]
    constructor
    · intro hsome
      simp at hsome
    · rintro ⟨e, he, -⟩
      exact absurd he not_mem_nil

theorem Holds.insertExtent_ok (hQ : Merges Q) (hholds : Holds inode es) (hvalid : Valid Q es)
    (hadded : Q ⟨l, 1, p⟩) (hnone : inode.blockMap l = none)
    (h : insertExtent inode l p 1 = .ok inode') :
    (∃ es', Holds inode' es' ∧ Valid Q es') ∧
      (∀ x, inode'.blockMap x = if x = l then some p else inode.blockMap x) ∧
      inode' = { inode with
        iFlags := inode.iFlags ||| extentsFl
        iBlock := inode'.iBlock } := by
  have hfree : ∀ e ∈ es, e.Before ⟨l, 1, p⟩ ∨ Before ⟨l, 1, p⟩ e := by
    intro e he
    have hnot : ¬ e.Covers l := by
      intro hcovers
      have hsome := (hholds.blockMap_eq_some_iff hQ hvalid).mpr ⟨e, he, hcovers, rfl⟩
      rw [hnone] at hsome
      simp at hsome
    unfold Covers at hnot
    unfold Before
    dsimp only
    omega
  obtain ⟨es', hleaf, hvalid', hmaps, hinode⟩ :=
    Ext4.insertExtent_ok hQ hholds hvalid hadded hfree h
  refine ⟨⟨es', .inl hleaf, hvalid'⟩, ?_, hinode⟩
  intro x
  apply Option.ext
  intro q
  have hnew := Holds.blockMap_eq_some_iff (l := x) (p := q) hQ (.inl hleaf) hvalid'
  have hold := hholds.blockMap_eq_some_iff (l := x) (p := q) hQ hvalid
  have hsingle : Maps [⟨l, 1, p⟩] x q ↔ x = l ∧ q = p := by
    simp only [Maps, mem_singleton, exists_eq_left, Covers]
    omega
  rw [hnew, hmaps, hsingle, ← hold]
  by_cases hx : x = l
  · subst hx
    simp only [hnone, true_and, if_true, Option.some.injEq]
    simp only [reduceCtorEq, false_or]
    exact eq_comm
  · simp only [hx, false_and, or_false, if_false]

theorem Holds.depth_eq (h : Holds inode es) {header : Ext4ExtentHeader}
    (hheader : Ext4ExtentHeader.parse inode.iBlock.toList = some header) : header.ehDepth = 0 := by
  rcases h with hleaf | ⟨hnone, -⟩
  · obtain ⟨header', hparse, hdepth, -⟩ := hleaf.header
    rw [hparse] at hheader
    exact Option.some.inj hheader ▸ hdepth
  · rw [hnone] at hheader
    simp at hheader

theorem or_and_extentsFl (flags : UInt32) : (flags ||| extentsFl) &&& extentsFl = extentsFl := by
  apply UInt32.eq_of_toBitVec_eq
  ext i hi
  simp only [UInt32.toBitVec_and, UInt32.toBitVec_or, BitVec.getElem_and, BitVec.getElem_or]
  cases extentsFl.toBitVec[i] <;> simp

section

variable (h : insertExtent inode l p n = .ok inode')
include h

theorem exists_leaf_of_insertExtent :
    ∃ es : List Ext4Extent, es.length ≤ 4 ∧
      { inode with
        iFlags := inode.iFlags ||| extentsFl
        iBlock := array 60 (encodeLeaf es) } = inode' := by
  unfold insertExtent at h
  dsimp only at h
  split at h
  · simp at h
  · split_ifs at h with hdepth hlong
    exact ⟨_, Nat.le_of_not_lt hlong, Except.ok.inj h⟩

theorem flags_of_insertExtent : inode'.iFlags = inode.iFlags ||| extentsFl := by
  obtain ⟨es, -, rfl⟩ := exists_leaf_of_insertExtent h
  rfl

theorem flat_of_insertExtent : inode'.Flat := by
  obtain ⟨es, hlength, rfl⟩ := exists_leaf_of_insertExtent h
  constructor
  · have hflag : (extentsFl != 0) = true := by decide
    rw [usesExtents, Ext4Inode.hasFlag, or_and_extentsFl]
    exact hflag
  · intro header hheader
    rw [toList_array (length_encodeLeaf hlength), encodeLeaf, append_assoc,
      parse_leafHeader (by omega)] at hheader
    exact (Option.some.inj hheader) ▸ rfl

end

theorem exists_entry_of_find (hdata : data.length = 60) (h : findExtentInLeafData data l = some p) :
    ∃ i, i < 4 ∧ ∃ e, entryAt parse data i = some e ∧ e.eeBlock ≤ l ∧
      l < e.eeBlock + 32767 := by
  unfold findExtentInLeafData at h
  cases hheader : Ext4ExtentHeader.parse data with
  | none => simp [hheader] at h
  | some header =>
    simp only [hheader] at h
    obtain ⟨e, hsearch, hlocate⟩ := Option.bind_eq_some_iff.mp h
    rcases BinarySearch.last_sound hsearch with hnone | ⟨i, hentry, htest⟩
    · simp at hnone
    · have hlt : i < 4 := by
        by_contra hge
        rw [entryAt, if_pos (by omega)] at hentry
        simp at hentry
      have hlen : e.eeLen ≤ 32767 := by
        rw [entryAt, parse] at hentry
        split_ifs at hentry
        cases hentry
        exact Nat.and_le_right
      have hin : l < (e.eeBlock + e.eeLen) % 2 ^ 32 := by
        by_contra hnot
        rw [locate, if_neg hnot] at hlocate
        simp at hlocate
      exact ⟨i, hlt, e, hentry, of_decide_eq_true htest, by omega⟩

theorem mapped_le {n : ℕ} (h : ∀ l, l < n → inode.blockMap l ≠ none) : n ≤ 4 * 32767 := by
  let first : ℕ → ℕ := fun i => ((entryAt parse inode.iBlock.toList i).map eeBlock).getD 0
  have hsub : Finset.range n ⊆
      (Finset.range 4).biUnion fun i => Finset.Ico (first i) (first i + 32767) := by
    intro l hl
    obtain ⟨p, hp⟩ := Option.ne_none_iff_exists'.mp (h l (Finset.mem_range.mp hl))
    obtain ⟨i, hi, e, hentry, hle, hlt⟩ := exists_entry_of_find Vector.length_toList hp
    have hfirst : first i = e.eeBlock := by
      simp [first, hentry]
    refine Finset.mem_biUnion.mpr ⟨i, Finset.mem_range.mpr hi, Finset.mem_Ico.mpr ?_⟩
    rw [hfirst]
    exact ⟨hle, hlt⟩
  calc n = (Finset.range n).card := (Finset.card_range n).symm
    _ ≤ ((Finset.range 4).biUnion fun i => Finset.Ico (first i) (first i + 32767)).card :=
      Finset.card_le_card hsub
    _ ≤ (Finset.range 4).card * 32767 :=
      Finset.card_biUnion_le_card_mul _ _ _ fun i _ => by
        rw [Nat.card_Ico, Nat.add_sub_cancel_left]
    _ = 4 * 32767 := by rw [Finset.card_range]

end Inode

end EchOS.Fs.Ext4
