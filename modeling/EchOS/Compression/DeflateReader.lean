import EchOS.Compression.Deflate
import EchOS.Lib.CanonicalCode

/-! What the bit reader and the Huffman decoder take off the input. -/

namespace EchOS.Compression.Deflate

open Bits Consume List

namespace BitReader

def rest (r : BitReader) : List Bool := (ofBytes r.data).drop (8 * r.bytePos + r.bitPos)

end BitReader

open BitReader

/-- A decoder that takes the bits and gives the result. -/
abbrev Reads {α : Type} (x : Decoder α) (bits : List Bool) (a : α) : Prop :=
  Consumes rest x bits a

theorem and_one_ne_zero (v i : ℕ) : (v >>> i &&& 1 != 0) = v.testBit i := by
  rw [Nat.and_comm]
  rfl

theorem reads_readBit (b : Bool) : Reads readBit [b] b := by
  intro r more h
  have hbit : (ofBytes r.data)[8 * r.bytePos + r.bitPos]? = some b := by
    have hzero : r.rest[0]? = some b := by
      rw [h]
      rfl
    rwa [rest, List.getElem?_drop] at hzero
  have hmore : (ofBytes r.data).drop (8 * r.bytePos + r.bitPos + 1) = more := by
    rw [← tail_drop]
    change r.rest.tail = more
    rw [h]
    rfl
  rw [getElem?_ofBytes _ _ r.bitPos.isLt, Option.map_eq_some_iff] at hbit
  obtain ⟨byte, hbyte, hb⟩ := hbit
  unfold readBit
  rw [hbyte]
  dsimp only
  rw [and_one_ne_zero, hb]
  split_ifs with hlast
  · exact ⟨_, rfl, hmore⟩
  · refine ⟨_, rfl, ?_⟩
    have hseven : r.bitPos.val = 7 := by
      omega
    rw [← hmore, hseven]
    rfl

variable (bs : List Bool)

theorem reads_readBitsFrom {i result : ℕ} (h : result < 2 ^ i) :
    Reads (readBitsFrom bs.length i result) bs (result + 2 ^ i * lsb bs) := by
  induction bs generalizing i result with
  | nil => exact consumes_pure result
  | cons b bs ih =>
    have hnext : (if b then result ||| 1 <<< i else result) < 2 ^ (i + 1) := by
      have hb := Nat.mul_le_mul_left (2 ^ i) (Bool.toNat_le b)
      rw [setBit_eq h]
      omega
    have hvalue : (if b then result ||| 1 <<< i else result) + 2 ^ (i + 1) * lsb bs =
        result + 2 ^ i * lsb (b :: bs) := by
      rw [setBit_eq h, lsb]
      ring
    rw [← hvalue]
    exact (reads_readBit b).bind (ih hnext)

theorem reads_readBits {n v : ℕ} (h : v < 2 ^ n) : Reads (readBits n) (toLsb n v) v := by
  have hread := reads_readBitsFrom (toLsb n v) (Nat.two_pow_pos 0)
  rw [length_toLsb, lsb_toLsb h, Nat.pow_zero, Nat.one_mul, Nat.zero_add] at hread
  exact hread

theorem reverseBitsFrom_eq {left i : ℕ} (h : i + left = bs.length) :
    reverseBitsFrom (lsb bs) bs.length left i (msb (bs.take i) * 2 ^ left) = msb bs := by
  induction left generalizing i with
  | zero =>
    rw [Nat.add_zero] at h
    rw [reverseBitsFrom, h, take_length, Nat.pow_zero, Nat.mul_one]
  | succ left ih =>
    have hi : i < bs.length := by omega
    have hplace : bs.length - 1 - i = left := by omega
    have hstep : (if lsb bs &&& 1 <<< i ≠ 0 then
        msb (bs.take i) * 2 ^ (left + 1) ||| 1 <<< (bs.length - 1 - i)
        else msb (bs.take i) * 2 ^ (left + 1)) = msb (bs.take (i + 1)) * 2 ^ left := by
      rw [take_succ_eq_append_getElem hi, msb_concat, hplace, Nat.one_shiftLeft,
        Nat.one_shiftLeft, Nat.and_two_pow, testBit_lsb, getD_eq_getElem _ _ hi]
      have hor :=
        Nat.two_pow_add_eq_or_of_lt (Nat.pow_lt_pow_succ (a := 2) (n := left) Nat.one_lt_two)
        (msb (bs.take i))
      rw [Nat.mul_comm] at hor
      cases bs[i] with
      | false =>
        simp [pow_succ]
        ring
      | true =>
        have hpos : 2 ^ i ≠ 0 := (Nat.two_pow_pos i).ne'
        simp only [Bool.toNat_true, Nat.one_mul, ne_eq, hpos, not_false_eq_true, if_true]
        rw [← hor]
        ring
    rw [reverseBitsFrom, hstep]
    exact ih (by omega)

theorem reverseBits_lsb : reverseBits (lsb bs) bs.length = msb bs := by
  have h := reverseBitsFrom_eq bs (Nat.zero_add bs.length)
  simpa [reverseBits, msb] using h

section Codes

variable {lengths : List ℕ} {s : ℕ} {l left : ℕ} {c : HuffmanCode} {post pre : List Bool}
  (count : List ℕ)

open CanonicalCode

theorem getD_modify_succ (len l : ℕ) :
    (count.modify len (· + 1)).getD l 0 =
      count.getD l 0 + if l = len ∧ len < count.length then 1 else 0 := by
  by_cases hl : len = l
  · subst hl
    by_cases hlt : len < count.length
    · simp [hlt]
    · simp [hlt]
  · simp [hl, Ne.symm hl]

theorem getD_foldl_count {count : List ℕ} (hlength : count.length = 16) (hl : l < 16) :
    (lengths.foldl (fun count len => if 0 < len then count.modify len (· + 1) else count)
      count).getD l 0 = count.getD l 0 + if 0 < l then lengths.count l else 0 := by
  induction lengths generalizing count with
  | nil => simp
  | cons len lengths ih =>
    rw [foldl_cons, count_cons]
    by_cases hlen : 0 < len
    · rw [if_pos hlen, ih (by rw [length_modify, hlength]), getD_modify_succ, hlength]
      by_cases heq : l = len
      · subst heq
        simp [hlen, hl]
        omega
      · simp [heq, Ne.symm heq]
    · rw [if_neg hlen, ih hlength]
      have hne : 0 < l → ¬ (len == l) = true := by
        intro hpos
        simp only [beq_iff_eq]
        omega
      split_ifs with hpos h
      · exact absurd h (hne hpos)
      · rfl
      · rfl

theorem getD_blCount (hl : l < 16) :
    (blCount lengths).getD l 0 = if 0 < l then lengths.count l else 0 := by
  unfold blCount
  rw [getD_foldl_count length_replicate hl, getD_replicate 0 hl, Nat.zero_add]

theorem firstCode_step (h : Fits 15 lengths) (hl : l < 15) :
    (((first lengths l + (blCount lengths).getD l 0) % 2 ^ 16) <<< 1) % 2 ^ 16 =
      first lengths (l + 1) := by
  rw [getD_blCount (by omega)]
  by_cases hpos : 0 < l
  · have hroom := first_add_count_le h hpos hl.le
    have hpow : 2 ^ l ≤ 2 ^ 14 := Nat.pow_le_pow_right (by decide) (by omega)
    rw [if_pos hpos, first_succ lengths hpos]
    omega
  · have hzero : l = 0 := by omega
    subst hzero
    rw [first_zero, first_one]
    rfl

theorem getD_firstCodesFrom (h : Fits 15 lengths) {bits code : ℕ} {next : List ℕ}
    (hbits : bits + 1 + left = 16) (hcode : code = first lengths bits)
    (hlength : next.length = 16) (hnext : ∀ l, l ≤ bits → next.getD l 0 = first lengths l)
    (hl : l < 16) :
    (firstCodesFrom (blCount lengths) left (bits + 1) code next).getD l 0 = first lengths l := by
  induction left generalizing bits code next with
  | zero => exact hnext l (by omega)
  | succ left ih =>
    have hstep := firstCode_step h (show bits < 15 by omega)
    rw [firstCodesFrom, Nat.add_sub_cancel, hcode, hstep]
    apply ih
    · omega
    · rfl
    · rw [length_set, hlength]
    · intro k hk
      rw [List.getD_eq_getElem?_getD, List.getElem?_set]
      by_cases heq : bits + 1 = k
      · subst heq
        have hin : bits + 1 < next.length := by omega
        simp [hin]
      · rw [if_neg heq]
        exact hnext k (by omega)

theorem getD_firstCodes (h : Fits 15 lengths) (hl : l < 16) :
    (firstCodes (blCount lengths)).getD l 0 = first lengths l := by
  have hzero := first_zero lengths
  have hstart : ∀ k, k ≤ 0 → (List.replicate 16 0).getD k 0 = first lengths k := by
    intro k hk
    obtain rfl : k = 0 := Nat.le_zero.mp hk
    rw [hzero]
    rfl
  exact getD_firstCodesFrom h rfl hzero.symm length_replicate hstart hl

theorem length_firstCodesFrom (left bits code : ℕ) (next : List ℕ) :
    (firstCodesFrom count left bits code next).length = next.length := by
  induction left generalizing bits code next with
  | zero => rfl
  | succ left ih => rw [firstCodesFrom, ih, length_set]

theorem length_firstCodes : (firstCodes count).length = 16 := by
  rw [firstCodes, length_firstCodesFrom, length_replicate]

def codeOf (lengths : List ℕ) (s : ℕ) : HuffmanCode :=
  ⟨value lengths s, lengths.getD s 0, s % 2 ^ 16⟩

section

variable (h : Fits 15 lengths)
include h

theorem mem_assignCodes {i : ℕ} {left next : List ℕ} (hleft : lengths.drop i = left)
    (hlength : next.length = 16)
    (hnext : ∀ l, 0 < l → l < 16 → next.getD l 0 = first lengths l + (lengths.take i).count l) :
    c ∈ assignCodes i left next ↔ ∃ s, i ≤ s ∧ Coded lengths s ∧ c = codeOf lengths s := by
  induction left generalizing i next with
  | nil =>
    have hout : lengths.length ≤ i := drop_eq_nil_iff.mp hleft
    constructor
    · exact fun hc => absurd hc not_mem_nil
    · rintro ⟨s, hs, hcoded, -⟩
      have hin := hcoded.lt_length
      omega
  | cons len left ih =>
    have hi : i < lengths.length := by
      by_contra hout
      rw [drop_eq_nil_of_le (Nat.le_of_not_lt hout)] at hleft
      cases hleft
    obtain ⟨hlen, hrest⟩ := cons_eq_cons.mp ((drop_eq_getElem_cons hi).symm.trans hleft)
    have hget : lengths.getD i 0 = len := (getD_eq_getElem lengths 0 hi).trans hlen
    have hlen16 : len < 16 := by
      have hle := h.le_max len (hlen ▸ getElem_mem hi)
      omega
    have hcount : ∀ l, (lengths.take (i + 1)).count l =
        (lengths.take i).count l + if len = l then 1 else 0 := by
      intro l
      rw [take_succ_eq_append_getElem hi, count_append, hlen, count_singleton]
      simp
    -- the symbols from `i` on are `i` and those after it
    have hsplit : (∃ s, i ≤ s ∧ Coded lengths s ∧ c = codeOf lengths s) ↔
        (Coded lengths i ∧ c = codeOf lengths i) ∨
          ∃ s, i + 1 ≤ s ∧ Coded lengths s ∧ c = codeOf lengths s := by
      constructor
      · rintro ⟨s, hs, hcoded, hc⟩
        rcases Nat.eq_or_lt_of_le hs with rfl | hlt
        · exact .inl ⟨hcoded, hc⟩
        · exact .inr ⟨s, hlt, hcoded, hc⟩
      · rintro (⟨hcoded, hc⟩ | ⟨s, hs, hcoded, hc⟩)
        · exact ⟨i, Nat.le_refl i, hcoded, hc⟩
        · exact ⟨s, Nat.le_of_succ_le hs, hcoded, hc⟩
    rw [hsplit, assignCodes]
    by_cases hpos : 0 < len
    · have hcoded : Coded lengths i := by
        unfold Coded
        rwa [hget]
      have hvalue : next.getD len 0 = value lengths i := by
        rw [hnext len hpos hlen16, value, rank, hget]
      have hbound : value lengths i + 1 < 2 ^ 16 := by
        have hlt := value_lt h hcoded
        rw [hget] at hlt
        have hpow : 2 ^ len ≤ 2 ^ 15 := Nat.pow_le_pow_right (by decide) (by omega)
        omega
      rw [if_pos hpos, mem_cons, hvalue, Nat.mod_eq_of_lt hbound]
      have hcode : (⟨value lengths i, len, i % 2 ^ 16⟩ : HuffmanCode) = codeOf lengths i := by
        rw [codeOf, hget]
      rw [hcode, ih hrest (by rw [length_set, hlength])]
      · simp [hcoded]
      · intro l hl hl16
        rw [hcount, List.getD_eq_getElem?_getD, List.getElem?_set, hlength]
        by_cases heq : len = l
        · subst heq
          rw [if_pos rfl, if_pos hlen16, if_pos rfl, ← Nat.add_assoc,
            ← hnext len hpos hlen16, hvalue]
          rfl
        · rw [if_neg heq, if_neg heq, ← List.getD_eq_getElem?_getD, hnext l hl hl16, Nat.add_zero]
    · have hnot : ¬ Coded lengths i := by
        unfold Coded
        rwa [hget]
      rw [if_neg hpos, ih hrest hlength]
      · simp [hnot]
      · intro l hl hl16
        have hne : len ≠ l := by omega
        rw [hcount, if_neg hne]
        exact hnext l hl hl16

theorem mem_buildCodesFromLengths :
    c ∈ buildCodesFromLengths lengths ↔ ∃ s, Coded lengths s ∧ c = codeOf lengths s := by
  have hmem := mem_assignCodes h (drop_zero) (length_firstCodes _)
    (fun l _ hl => by
      rw [getD_firstCodes h hl, take_zero, count_nil, Nat.add_zero]) (c := c)
  rw [buildCodesFromLengths, hmem]
  simp

theorem find_word (hs : Coded lengths s) :
    (buildCodesFromLengths lengths).find? (fun c => c.len = (word lengths s).length ∧
      c.code = msb (word lengths s)) = some (codeOf lengths s) := by
  have hmsb := msb_word h hs
  cases hfind : (buildCodesFromLengths lengths).find? _ with
  | none =>
    have hmem : codeOf lengths s ∈ buildCodesFromLengths lengths :=
      (mem_buildCodesFromLengths h).mpr ⟨s, hs, rfl⟩
    have hnot := List.find?_eq_none.mp hfind _ hmem
    simp [codeOf, hmsb] at hnot
  | some c =>
    obtain ⟨s', hs', rfl⟩ := (mem_buildCodesFromLengths h).mp (List.mem_of_find?_eq_some hfind)
    have hfound := List.find?_some hfind
    simp only [codeOf, length_word, hmsb, decide_eq_true_eq] at hfound
    rw [value_inj hs' hs hfound.1 hfound.2]

theorem find_shorter (hs : Coded lengths s) (hword : word lengths s = pre ++ post)
    (hpost : post ≠ []) :
    (buildCodesFromLengths lengths).find? (fun c => c.len = pre.length ∧ c.code = msb pre) =
      none := by
  rw [List.find?_eq_none]
  intro c hc hfound
  obtain ⟨s', hs', rfl⟩ := (mem_buildCodesFromLengths h).mp hc
  obtain ⟨hlen, hcode⟩ := of_decide_eq_true hfound
  obtain rfl := eq_of_prefix h hs hs' ⟨post, hword.symm⟩ hlen hcode
  have hlength := congrArg List.length hword
  rw [length_word, length_append] at hlength
  change lengths.getD s' 0 = pre.length at hlen
  exact hpost (eq_nil_of_length_eq_zero (by omega))

theorem reads_readSymbolFrom (hs : Coded lengths s) (hword : word lengths s = pre ++ post)
    (hpost : post ≠ []) (hleft : post.length ≤ left) :
    Reads (readSymbolFrom (buildCodesFromLengths lengths) left (lsb pre) pre.length) post
      (s % 2 ^ 16) := by
  induction post generalizing pre left with
  | nil => exact absurd rfl hpost
  | cons b post ih =>
    obtain ⟨left, rfl⟩ : ∃ n, left = n + 1 := by
      rw [length_cons] at hleft
      exact ⟨left - 1, by omega⟩
    have hcount : pre.length + 1 = (pre ++ [b]).length := by simp
    have hsplit : word lengths s = (pre ++ [b]) ++ post := by
      rw [hword, append_assoc]
      rfl
    cases post with
    | nil =>
      rw [append_nil] at hsplit
      apply (reads_readBit b).bind_pure
      dsimp only
      rw [← lsb_concat, hcount, reverseBits_lsb, ← hsplit, find_word h hs]
      rfl
    | cons b' post =>
      have hrest := ih hsplit (cons_ne_nil b' post) (Nat.le_of_succ_le_succ hleft)
      refine (reads_readBit b).bind ?_
      dsimp only
      rw [← lsb_concat, hcount, reverseBits_lsb, find_shorter h hs hsplit (cons_ne_nil b' post)]
      exact hrest

theorem reads_readHuffmanSymbol (hs : Coded lengths s) :
    Reads (readHuffmanSymbol (buildCodesFromLengths lengths)) (word lengths s) (s % 2 ^ 16) := by
  have hlen : (word lengths s).length ∈ (buildCodesFromLengths lengths).map HuffmanCode.len := by
    rw [length_word]
    exact mem_map.mpr ⟨codeOf lengths s, (mem_buildCodesFromLengths h).mpr ⟨s, hs, rfl⟩, rfl⟩
  have hne : word lengths s ≠ [] := by
    apply ne_nil_of_length_pos
    rw [length_word]
    exact hs
  exact reads_readSymbolFrom h hs (nil_append _).symm hne (List.le_max?_getD_of_mem hlen)

theorem reads_symbol (hs : Coded lengths s) (hlt : s < 2 ^ 16) :
    Reads (readHuffmanSymbol (buildCodesFromLengths lengths)) (word lengths s) s := by
  have hread := reads_readHuffmanSymbol h hs
  rwa [Nat.mod_eq_of_lt hlt] at hread

theorem buildCodesFromLengths_canonical (hsize : lengths.length ≤ 2 ^ 16) :
    (∀ c, c ∈ buildCodesFromLengths lengths ↔
      ∃ s, Coded lengths s ∧ c = ⟨value lengths s, lengths.getD s 0, s⟩) ∧
    (∀ s s', Coded lengths s → Coded lengths s' → word lengths s' <+: word lengths s → s' = s) ∧
    ∀ s, Coded lengths s →
      Reads (readHuffmanSymbol (buildCodesFromLengths lengths)) (word lengths s) s := by
  have hlt : ∀ s, Coded lengths s → s < 2 ^ 16 := fun s hs => hs.lt_length.trans_le hsize
  refine ⟨fun c => ?_, fun s s' hs hs' hword => ?_,
    fun s hs => reads_symbol h hs (hlt s hs)⟩
  · rw [mem_buildCodesFromLengths h]
    refine exists_congr fun s => and_congr_right fun hs => ?_
    rw [codeOf, Nat.mod_eq_of_lt (hlt s hs)]
  · exact eq_of_prefix h hs hs' hword (length_word _ _).symm (msb_word h hs').symm

end

theorem buildCodesFromLengths_canonical_four :
    Reads (readHuffmanSymbol (buildCodesFromLengths [2, 1, 3, 3])) [true, true, false] 2 :=
  (buildCodesFromLengths_canonical (by decide) (by decide)).2.2 2 (by decide)

end Codes

end EchOS.Compression.Deflate
