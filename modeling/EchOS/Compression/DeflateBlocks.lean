import EchOS.Compression.DeflateFormat
import EchOS.Compression.DeflateReader

/-! The tokens of Huffman blocks, and the header of dynamic ones. -/

namespace EchOS.Compression.Deflate

open Bits Consume CanonicalCode Format BitReader List Option LengthItem

theorem locate_spec {table : List (ℕ × ℕ)} {v : ℕ}
    (hchain : table.IsChain fun entry next => next.2 ≤ entry.2 + 2 ^ entry.1)
    (hne : table ≠ []) (hfirst : (table.headD (0, 0)).2 ≤ v)
    (hlast : v < (table.getLastD (0, 0)).2 + 2 ^ (table.getLastD (0, 0)).1) :
    locate table v < table.length ∧
      (table.getD (locate table v) (0, 0)).2 ≤ v ∧
      v < (table.getD (locate table v) (0, 0)).2 + 2 ^ (table.getD (locate table v) (0, 0)).1 := by
  induction table with
  | nil => exact absurd rfl hne
  | cons entry table ih =>
    cases table with
    | nil => exact ⟨Nat.one_pos, hfirst, hlast⟩
    | cons next table =>
      obtain ⟨hgap, hrest⟩ := isChain_cons_cons.mp hchain
      rw [locate]
      split_ifs with hnext
      · have hfound := ih hrest (cons_ne_nil next table) hnext hlast
        exact ⟨Nat.succ_lt_succ hfound.1, hfound.2⟩
      · exact ⟨Nat.succ_pos _, hfirst, by simp at hnext ⊢; omega⟩

variable {length : ℕ}

theorem locate_length (hmin : 3 ≤ length) (hmax : length ≤ 258) :
    locate lengthTable length < 29 ∧
      (lengthTable.getD (locate lengthTable length) (0, 0)).2 ≤ length ∧
      length < (lengthTable.getD (locate lengthTable length) (0, 0)).2 +
        2 ^ (lengthTable.getD (locate lengthTable length) (0, 0)).1 := by
  apply locate_spec
  · decide
  · decide
  · exact hmin
  · show length < 258 + 2 ^ 0
    omega

theorem locate_distance {distance : ℕ} (hmin : 1 ≤ distance) (hmax : distance ≤ 32768) :
    locate distTable distance < 30 ∧
      (distTable.getD (locate distTable distance) (0, 0)).2 ≤ distance ∧
      distance < (distTable.getD (locate distTable distance) (0, 0)).2 +
        2 ^ (distTable.getD (locate distTable distance) (0, 0)).1 := by
  apply locate_spec
  · decide
  · decide
  · exact hmin
  · show distance < 24577 + 2 ^ 13
    omega

/-- A reference whose length the table of the source has as the format does. -/
def TokenSafe : Token → Prop
  | .literal _ => True
  | .copy length _ => length < 15 ∨ length = 258

instance : DecidablePred TokenSafe
  | .literal _ => inferInstanceAs (Decidable True)
  | .copy length _ => inferInstanceAs (Decidable (length < 15 ∨ length = 258))

/-- The entries for these lengths are the same in both tables; those for 15 to 257 are not. -/
theorem lengthExtra_locate (hmin : 3 ≤ length) (hsafe : length < 15 ∨ length = 258) :
    lengthExtra.getD (locate lengthTable length) (0, 0) =
      lengthTable.getD (locate lengthTable length) (0, 0) := by
  have hshort : ∀ l < 15, 3 ≤ l → lengthExtra.getD (locate lengthTable l) (0, 0) =
      lengthTable.getD (locate lengthTable l) (0, 0) := by decide
  rcases hsafe with hlt | rfl
  · exact hshort length hlt hmin
  · rfl

section Tokens

variable {lit dist : List ℕ} {maxOutput : ℕ} {out : List UInt8} {token : Token}
  {tokens : List Token}

section

variable (hlit : Fits 15 lit)
include hlit

theorem reads_literal {byte : UInt8} (hcoded : Coded lit byte.toNat)
    (hfits : out.length < maxOutput) :
    Reads (huffmanBlockStep (buildCodesFromLengths lit) (buildCodesFromLengths dist) maxOutput out)
      (word lit byte.toNat) (.inl (out ++ [byte])) := by
  apply (reads_symbol hlit hcoded (byte.toNat_lt.trans (by decide))).bind_pure
  rw [if_pos byte.toNat_lt, if_neg (Nat.not_le.mpr hfits), UInt8.ofNat_toNat]

theorem reads_copy (hdist : Fits 15 dist) {length distance : ℕ}
    (hcoded : TokenCoded lit dist (.copy length distance))
    (hvalid : TokenValid out (.copy length distance)) (hsafe : length < 15 ∨ length = 258)
    (hfits : out.length + length ≤ maxOutput) :
    Reads (huffmanBlockStep (buildCodesFromLengths lit) (buildCodesFromLengths dist) maxOutput out)
      (tokenBits lit dist (.copy length distance))
      (.inl (out ++ Lz77.copied out length distance)) := by
  obtain ⟨⟨hmin, hmax⟩, hdmin, hdmax, hback⟩ := hvalid
  obtain ⟨hindex, hbase, hextra⟩ := locate_length hmin hmax
  obtain ⟨hdindex, hdbase, hdextra⟩ := locate_distance hdmin hdmax
  have hentry := lengthExtra_locate hmin hsafe
  unfold huffmanBlockStep tokenBits fieldBits
  dsimp only
  rw [append_assoc]
  refine (reads_symbol hlit hcoded.1 (by omega)).bind ?_
  rw [if_neg (by omega), if_neg (by omega), Nat.add_sub_cancel_left, if_neg (by omega), hentry]
  have htable : distExtra = distTable := rfl
  have hlength := Nat.add_sub_cancel' hbase
  have hdistance := Nat.add_sub_cancel' hdbase
  refine (reads_readBits (by omega)).bind ?_
  rw [hlength, Nat.zero_add]
  refine (reads_symbol hdist hcoded.2 (by omega)).bind ?_
  rw [if_neg (by omega), htable]
  apply (reads_readBits (by omega)).bind_pure
  rw [hdistance, if_neg (by omega), if_neg (by omega), Lz77.iterate_pushBack hdmin hback]

theorem reads_token (hdist : Fits 15 dist) (hcoded : TokenCoded lit dist token)
    (hvalid : TokenValid out token) (hsafe : TokenSafe token)
    (hfits : (Lz77.append out token).length ≤ maxOutput) :
    Reads (huffmanBlockStep (buildCodesFromLengths lit) (buildCodesFromLengths dist) maxOutput out)
      (tokenBits lit dist token) (.inl (Lz77.append out token)) := by
  cases token with
  | literal byte =>
    apply reads_literal hlit hcoded
    rw [Lz77.append, length_append] at hfits
    exact hfits
  | copy length distance =>
    apply reads_copy hlit hdist hcoded hvalid hsafe
    simpa [Lz77.append] using hfits

theorem reads_tokens (hdist : Fits 15 dist) (hend : Coded lit 256)
    (hcoded : ∀ token ∈ tokens, TokenCoded lit dist token) (hvalid : TokensValid out tokens)
    (hsafe : ∀ token ∈ tokens, TokenSafe token)
    (hfits : (Lz77.expand tokens out).length ≤ maxOutput) {rounds : ℕ}
    (hrounds : tokens.length < rounds) :
    Reads (loop (huffmanBlockStep (buildCodesFromLengths lit) (buildCodesFromLengths dist)
      maxOutput) .endless rounds out) (tokensBits lit dist tokens) (Lz77.expand tokens out) := by
  induction tokens generalizing out rounds with
  | nil => exact consumes_loop_done ((reads_readHuffmanSymbol hlit hend).bind_pure rfl) hrounds
  | cons token tokens ih =>
    obtain ⟨rounds, rfl⟩ : ∃ n, rounds = n + 1 := ⟨rounds - 1, by omega⟩
    obtain ⟨hcoded, hcodeds⟩ := forall_mem_cons.mp hcoded
    obtain ⟨hsafe, hsafes⟩ := forall_mem_cons.mp hsafe
    have hroom := Nat.le_trans (Lz77.length_le_expand tokens (Lz77.append out token)) hfits
    have hstep := reads_token hlit hdist hcoded hvalid.1 hsafe hroom
    have hrest := ih hcodeds hvalid.2 hsafes hfits (Nat.lt_of_succ_lt_succ hrounds)
    have hbits : tokensBits lit dist (token :: tokens) =
        tokenBits lit dist token ++ tokensBits lit dist tokens := by
      rw [tokensBits, flatMap_cons, append_assoc, tokensBits]
    rw [hbits]
    exact consumes_loop_next hstep hrest

end

theorem length_tokenBits_pos (hcoded : TokenCoded lit dist token) :
    0 < (tokenBits lit dist token).length := by
  cases token with
  | literal byte =>
    rw [tokenBits, length_word]
    exact hcoded
  | copy length distance =>
    have hpos : 0 < lit.getD (257 + locate lengthTable length) 0 := hcoded.1
    simp only [tokenBits, fieldBits, length_append, length_word]
    omega

theorem length_le_tokensBits (hcoded : ∀ token ∈ tokens, TokenCoded lit dist token) :
    tokens.length ≤ (tokensBits lit dist tokens).length := by
  induction tokens with
  | nil => exact Nat.zero_le _
  | cons token tokens ih =>
    obtain ⟨hhead, htail⟩ := forall_mem_cons.mp hcoded
    have hpos := length_tokenBits_pos hhead
    have hrest := ih htail
    rw [tokensBits, length_append] at hrest ⊢
    rw [flatMap_cons, length_append, length_cons]
    omega

end Tokens

section Header

def setPlaces (codes : List ℕ) (order lengths : List ℕ) : List ℕ :=
  order.foldl (fun lengths place => lengths.set place (codes.getD place 0)) lengths

variable {codes lengths : List ℕ}

theorem reads_readClLengths (h : Fits 7 codes) (order lengths : List ℕ) :
    Reads (readClLengths order lengths)
      (order.flatMap fun place => toLsb 3 (codes.getD place 0))
      (setPlaces codes order lengths) := by
  induction order generalizing lengths with
  | nil => exact consumes_pure lengths
  | cons place order ih =>
    have hlt : codes.getD place 0 < 2 ^ 3 := by
      by_cases hcoded : Coded codes place
      · have hle := h.le_max _ hcoded.mem
        omega
      · unfold Coded at hcoded
        omega
    exact (reads_readBits hlt).bind (ih _)

theorem length_setPlaces (codes order lengths : List ℕ) :
    (setPlaces codes order lengths).length = lengths.length := by
  unfold setPlaces
  induction order generalizing lengths with
  | nil => rfl
  | cons place order ih => rw [foldl_cons, ih, length_set]

theorem getD_setPlaces (codes order lengths : List ℕ) {place : ℕ}
    (hplace : place < lengths.length) :
    (setPlaces codes order lengths).getD place 0 =
      if place ∈ order then codes.getD place 0 else lengths.getD place 0 := by
  unfold setPlaces
  induction order generalizing lengths with
  | nil => simp
  | cons first order ih =>
    rw [foldl_cons, ih _ (by rwa [length_set])]
    by_cases hmem : place ∈ order
    · simp [hmem]
    · by_cases heq : first = place
      · subst heq
        simp [hmem, hplace]
      · simp [hmem, heq, Ne.symm heq]

variable {header : DynamicHeader} {lengths' final : List ℕ} {item : LengthItem}
  {items : List LengthItem}

theorem setPlaces_sent (h : header.Valid) :
    setPlaces header.codeLengths (clOrder.take header.sent) (replicate 19 0) =
      header.codeLengths := by
  have hlength : (setPlaces header.codeLengths (clOrder.take header.sent)
      (replicate 19 0)).length = 19 := by
    rw [length_setPlaces, length_replicate]
  apply ext_getElem
  · rw [hlength, h.code_length]
  · intro place hplace hplace'
    rw [hlength] at hplace
    have hget := getD_setPlaces header.codeLengths (clOrder.take header.sent) (replicate 19 0)
      (by rwa [length_replicate])
    rw [← getD_eq_getElem _ 0, ← getD_eq_getElem _ 0, hget]
    split_ifs with hsent
    · rfl
    · have hall : ∀ place < 19, place ∈ clOrder := by decide
      have hdrop : place ∈ clOrder.drop header.sent := by
        have hmem := hall place hplace
        rw [← take_append_drop header.sent clOrder, mem_append] at hmem
        exact hmem.resolve_left hsent
      rw [getD_replicate 0 hplace]
      exact (h.unsent place hdrop).symm

theorem pushLengths_eq {total count : ℕ} (length : ℕ) (h : lengths.length + count ≤ total) :
    pushLengths total length count lengths = lengths ++ replicate count length := by
  induction count generalizing lengths with
  | zero => simp [pushLengths]
  | succ count ih =>
    rw [pushLengths]
    split_ifs with hfull
    · rw [length_append, length_singleton] at hfull
      have hcount : count = 0 := by omega
      subst hcount
      rfl
    · rw [ih (by simp; omega), append_assoc]
      rfl

theorem reads_item (h : Fits 15 codes) (hvalid : item.Valid)
    (hcoded : Coded codes item.symbol) {total : ℕ}
    (hexpand : item.expand lengths = some lengths') (hroom : lengths.length < total)
    (hfits : lengths'.length ≤ total) :
    Reads (readLengthsStep (buildCodesFromLengths codes) total lengths)
      (word codes item.symbol ++ item.extra) (.inl lengths') := by
  have hlt : item.symbol < 2 ^ 16 := by
    cases item <;> simp only [symbol, LengthItem.Valid] at * <;> omega
  have hsymbol := reads_symbol h hcoded hlt
  unfold readLengthsStep
  rw [if_neg (Nat.not_le.mpr hroom)]
  cases item with
  | length n =>
    cases hexpand
    refine hsymbol.bind ?_
    dsimp only [symbol, extra]
    rw [if_pos (show n ≤ 15 from hvalid)]
    exact consumes_pure _
  | repeatLast count =>
    obtain ⟨last, hlast, rfl⟩ := map_eq_some_iff.mp hexpand
    obtain ⟨hmin, hmax⟩ := hvalid
    rw [length_append, length_replicate] at hfits
    refine hsymbol.bind ?_
    dsimp only [symbol, extra]
    rw [hlast]
    apply (reads_readBits (show count - 3 < 2 ^ 2 by omega)).bind_pure
    rw [Nat.sub_add_cancel hmin, pushLengths_eq last hfits]
  | zeros count =>
    cases hexpand
    obtain ⟨hmin, hmax⟩ := hvalid
    rw [length_append, length_replicate] at hfits
    refine hsymbol.bind ?_
    dsimp only [symbol, extra]
    apply (reads_readBits (show count - 3 < 2 ^ 3 by omega)).bind_pure
    rw [Nat.sub_add_cancel hmin, pushLengths_eq 0 hfits]
  | manyZeros count =>
    cases hexpand
    obtain ⟨hmin, hmax⟩ := hvalid
    rw [length_append, length_replicate] at hfits
    refine hsymbol.bind ?_
    dsimp only [symbol, extra]
    apply (reads_readBits (show count - 11 < 2 ^ 7 by omega)).bind_pure
    rw [Nat.sub_add_cancel hmin, pushLengths_eq 0 hfits]

theorem length_lt_of_expand (hvalid : item.Valid)
    (h : item.expand lengths = some lengths') : lengths.length < lengths'.length := by
  cases item with
  | length n =>
    cases h
    simp
  | repeatLast count =>
    obtain ⟨last, -, rfl⟩ := map_eq_some_iff.mp h
    have hmin : 3 ≤ count := hvalid.1
    rw [length_append, length_replicate]
    omega
  | zeros count | manyZeros count =>
    cases h
    obtain ⟨hmin, -⟩ := hvalid
    rw [length_append, length_replicate]
    omega

theorem length_add_items_le (hvalid : ∀ item ∈ items, item.Valid)
    (h : items.foldlM expand lengths = some final) :
    lengths.length + items.length ≤ final.length := by
  induction items generalizing lengths with
  | nil =>
    cases h
    exact Nat.le_refl _
  | cons item items ih =>
    obtain ⟨hhead, htail⟩ := forall_mem_cons.mp hvalid
    obtain ⟨lengths', hexpand, hrest⟩ := bind_eq_some_iff.mp h
    have hlt := length_lt_of_expand hhead hexpand
    have hle := ih htail hrest
    rw [length_cons]
    omega

theorem reads_items (h : Fits 15 codes)
    (hitems : ∀ item ∈ items, item.Valid ∧ Coded codes item.symbol)
    (hexpand : items.foldlM expand lengths = some final) {rounds : ℕ}
    (hrounds : items.length < rounds) :
    Reads (loop (readLengthsStep (buildCodesFromLengths codes) final.length)
      .endless rounds lengths)
      (items.flatMap fun item => word codes item.symbol ++ item.extra) final := by
  induction items generalizing lengths rounds with
  | nil =>
    cases hexpand
    apply consumes_loop_done _ hrounds
    unfold readLengthsStep
    rw [if_pos (Nat.le_refl _)]
    exact consumes_pure _
  | cons item items ih =>
    obtain ⟨rounds, rfl⟩ : ∃ n, rounds = n + 1 := ⟨rounds - 1, by omega⟩
    obtain ⟨⟨hvalid, hcoded⟩, htail⟩ := forall_mem_cons.mp hitems
    obtain ⟨lengths', hitem, hrest⟩ := bind_eq_some_iff.mp hexpand
    have hlt := length_lt_of_expand hvalid hitem
    have hle := length_add_items_le (fun item hmem => (htail item hmem).1) hrest
    have hstep := reads_item h hvalid hcoded hitem (show lengths.length < final.length by omega)
      (by omega)
    exact consumes_loop_next hstep (ih htail hrest (Nat.lt_of_succ_lt_succ hrounds))

theorem reads_buildDynamicTrees (h : header.Valid) :
    Reads buildDynamicTrees header.bits
      (buildCodesFromLengths header.lit, buildCodesFromLengths header.dist) := by
  obtain ⟨hlitMin, hlitMax⟩ := h.lit_length
  obtain ⟨hdistMin, hdistMax⟩ := h.dist_length
  obtain ⟨hsentMin, hsentMax⟩ := h.sent_bounds
  have hitems := length_add_items_le (fun item hmem => (h.items_valid item hmem).1) h.items_expand
  have hloop := reads_items (h.fits_code.mono (by decide)) h.items_valid h.items_expand
    (show header.items.length < header.lit.length + header.dist.length + 1 by
      simp at hitems
      omega)
  rw [length_append] at hloop
  refine (reads_readBits (by omega)).bind ?_
  refine (reads_readBits (by omega)).bind ?_
  refine (reads_readBits (by omega)).bind ?_
  rw [Nat.sub_add_cancel hlitMin, Nat.sub_add_cancel hdistMin, Nat.sub_add_cancel hsentMin]
  refine (reads_readClLengths h.fits_code (clOrder.take header.sent) _).bind ?_
  rw [setPlaces_sent h]
  apply hloop.bind_pure
  rw [take_left, drop_left]

end Header

end EchOS.Compression.Deflate
