import EchOS.Compression.DeflateBlocks

/-! Blocks of all three kinds one after the other, at any place in a byte. -/

namespace EchOS.Compression.Deflate

open Bits Consume CanonicalCode Format BitReader List Lz77

variable (r : BitReader)

theorem length_rest_le : r.rest.length ≤ 8 * r.data.length := by
  rw [rest, length_drop, length_ofBytes]
  omega

theorem bitPos_add_length (h : r.rest ≠ []) :
    8 * r.bytePos + r.bitPos + r.rest.length = 8 * r.data.length := by
  have hpos := length_pos_of_ne_nil h
  rw [rest, length_drop, length_ofBytes] at hpos ⊢
  omega

theorem coded_fixedLit {s : ℕ} (h : s < 288) : Coded fixedLit s := by
  have hall : ∀ s < 288, Coded fixedLit s := by decide +kernel
  exact hall s h

theorem coded_fixedDist {s : ℕ} (h : s < 32) : Coded fixedDist s := by
  have hall : ∀ s < 32, Coded fixedDist s := by decide +kernel
  exact hall s h

variable {out : List UInt8}

theorem tokenCoded_fixed {token : Token} (h : TokenValid out token) :
    TokenCoded fixedLit fixedDist token := by
  cases token with
  | literal byte =>
    have hlt := byte.toNat_lt
    exact coded_fixedLit (by omega)
  | copy length distance =>
    obtain ⟨⟨hmin, hmax⟩, hdmin, hdmax, -⟩ := h
    have hlength := (locate_length hmin hmax).1
    have hdistance := (locate_distance hdmin hdmax).1
    exact ⟨coded_fixedLit (by omega), coded_fixedDist (by omega)⟩

theorem tokensCoded_fixed {tokens : List Token} (h : TokensValid out tokens) :
    ∀ token ∈ tokens, TokenCoded fixedLit fixedDist token := by
  induction tokens generalizing out with
  | nil => exact nofun
  | cons token tokens ih => exact forall_mem_cons.mpr ⟨tokenCoded_fixed h.1, ih h.2⟩

section Huffman

variable {maxOutput : ℕ} {out : List UInt8} {tokens : List Token}

/-- A loop with a round for each bit of the input has enough of them for the tokens. -/
theorem reads_blockLoop {lit dist : List ℕ} (hlit : Fits 15 lit) (hdist : Fits 15 dist)
    (hend : Coded lit 256) (hcoded : ∀ token ∈ tokens, TokenCoded lit dist token)
    (hvalid : TokensValid out tokens) (hsafe : ∀ token ∈ tokens, TokenSafe token)
    (hfits : (expand tokens out).length ≤ maxOutput) :
    Reads (do
      let r ← get
      loop (huffmanBlockStep (buildCodesFromLengths lit) (buildCodesFromLengths dist) maxOutput)
        .endless r.rounds out) (tokensBits lit dist tokens) (expand tokens out) := by
  intro r more hview
  have hrounds : tokens.length < r.rounds := by
    have hbits := length_le_tokensBits hcoded
    have hrest := length_rest_le r
    rw [hview, length_append] at hrest
    unfold rounds
    omega
  exact reads_tokens hlit hdist hend hcoded hvalid hsafe hfits hrounds r more hview

end Huffman

section Stored

variable {maxOutput : ℕ} {out bytes : List UInt8} {padding more : List Bool} {r : BitReader}
  {data tail : List UInt8}

theorem getD_of_drop {pos : ℕ} (h : data.drop pos = tail) (k : ℕ) :
    data.getD (pos + k) 0 = tail.getD k 0 := by
  rw [List.getD_eq_getElem?_getD, List.getD_eq_getElem?_getD, ← h, List.getElem?_drop]

theorem le16_of_drop {pos v : ℕ} (hv : v < 2 ^ 16)
    (h : data.drop pos = UInt8.ofNat v :: UInt8.ofNat (v / 2 ^ 8) :: tail) : le16 data pos = v := by
  have hlow := getD_of_drop h 0
  have hhigh := getD_of_drop h 1
  rw [Nat.add_zero] at hlow
  unfold le16
  rw [hlow, hhigh]
  show v % 2 ^ 8 + 2 ^ 8 * (v / 2 ^ 8 % 2 ^ 8) = v
  omega

theorem drop_of_padding (hview : r.rest = padding ++ more)
    (hpadding : r.bitPos.val + padding.length = 8) :
    ofBytes (r.data.drop (r.bytePos + 1)) = more := by
  have hdrop : r.rest.drop padding.length = more := by
    rw [hview, drop_left]
  rw [rest, drop_drop] at hdrop
  rw [← drop_ofBytes, ← hdrop]
  congr 1
  omega

theorem decompressStoredBlock_eq (hbytes : bytes.length < 2 ^ 16)
    (hpadding : r.bitPos.val + padding.length = 8) (hfits : out.length + bytes.length ≤ maxOutput)
    (hview : r.rest = (Block.stored padding bytes).body ++ more) :
    ∃ r', decompressStoredBlock maxOutput out r = .ok (out ++ bytes, r') ∧ r'.rest = more := by
  have hstart : r.rest = padding ++ (ofBytes ([UInt8.ofNat bytes.length,
      UInt8.ofNat (bytes.length / 2 ^ 8), UInt8.ofNat (65535 - bytes.length),
      UInt8.ofNat ((65535 - bytes.length) / 2 ^ 8)] ++ bytes) ++ more) := by
    rw [hview, Block.body, toLsb_sixteen, toLsb_sixteen]
    simp
  obtain ⟨tail, hdata, hmore⟩ := ofBytes_eq_append (drop_of_padding hstart hpadding)
  generalize hpos : r.bytePos + 1 = pos at hdata
  have hlen := le16_of_drop hbytes hdata
  have hdata' : r.data.drop (pos + 2) = UInt8.ofNat (65535 - bytes.length) ::
      UInt8.ofNat ((65535 - bytes.length) / 2 ^ 8) :: (bytes ++ tail) := by
    rw [← drop_drop, hdata]
    rfl
  have hnlen := le16_of_drop (by omega) hdata'
  have hbody : r.data.drop (pos + 4) = bytes ++ tail := by
    rw [← drop_drop, hdata]
    rfl
  have hlength : r.data.length = pos + 4 + bytes.length + tail.length := by
    have hcount := congrArg length hdata
    simp at hcount
    omega
  have hcheck : bytes.length = (2 ^ 64 - 1 - (65535 - bytes.length)) % 2 ^ 16 := by omega
  refine ⟨{ r with bytePos := pos + 4 + bytes.length, bitPos := 0 }, ?_, ?_⟩
  · change (if r.data.length < r.bytePos + 1 + 4 then fail _ else _ : Decoder (List UInt8)) _ = _
    rw [hpos, if_neg (by omega)]
    dsimp only
    rw [hlen, hnlen, if_neg (not_not.mpr hcheck), if_neg (by omega), if_neg (by omega)]
    show Except.ok (out ++ (r.data.drop (pos + 4)).take bytes.length, _) = Except.ok _
    rw [hbody, take_left]
  · rw [hmore]
    show (ofBytes r.data).drop (8 * (pos + 4 + bytes.length) + 0) = ofBytes tail
    rw [Nat.add_zero, drop_ofBytes, ← drop_drop, hbody, drop_left]

end Stored

/-- The block does not meet one of the two ways in which the source departs from the format: the
lengths of its references are in the table, and the header of a stored block ends within a
byte. -/
def BlockSafe (position : ℕ) : Block → Prop
  | .stored _ _ => (position + 3) % 8 ≠ 0
  | .fixed tokens | .dynamic _ tokens => ∀ token ∈ tokens, TokenSafe token

instance (position : ℕ) : DecidablePred (BlockSafe position)
  | .stored _ _ => inferInstanceAs (Decidable ((position + 3) % 8 ≠ 0))
  | .fixed tokens | .dynamic _ tokens =>
    inferInstanceAs (Decidable (∀ token ∈ tokens, TokenSafe token))

def StreamSafe : ℕ → List Block → Prop
  | _, [] => True
  | position, block :: blocks =>
    BlockSafe position block ∧ StreamSafe (position + 3 + block.body.length) blocks

/-- From a bit position on, the decoder takes the bits and gives the result. All of the input is
a number of whole bytes. -/
def ReadsAt {α : Type} (position : ℕ) (x : Decoder α) (bits : List Bool) (a : α) : Prop :=
  ∀ r more, r.rest = bits ++ more → 8 ∣ position + r.rest.length →
    ∃ r', x r = .ok (a, r') ∧ r'.rest = more

theorem readsAt_of_reads {α : Type} {x : Decoder α} {bits : List Bool} {a : α}
    (h : Reads x bits a) (position : ℕ) : ReadsAt position x bits a :=
  fun r more hview _ => h r more hview

theorem ReadsAt.bind {α β : Type} {x : Decoder α} {f : α → Decoder β} {bits bits' : List Bool}
    {a : α} {b : β} {position : ℕ} (hx : ReadsAt position x bits a)
    (hf : ReadsAt (position + bits.length) (f a) bits' b) :
    ReadsAt position (x >>= f) (bits ++ bits') b := by
  intro r more hview haligned
  rw [append_assoc] at hview
  obtain ⟨r₁, hrun, hrest⟩ := hx r _ hview haligned
  have hnext : 8 ∣ position + bits.length + r₁.rest.length := by
    rw [hview, length_append] at haligned
    rwa [hrest, Nat.add_assoc]
  obtain ⟨r₂, hrun', hrest'⟩ := hf r₁ more hrest hnext
  refine ⟨r₂, ?_, hrest'⟩
  show (x r >>= fun p => f p.1 p.2) = .ok (b, r₂)
  rw [hrun]
  exact hrun'

section Blocks

variable {maxOutput position : ℕ} {out : List UInt8} {block : Block}

theorem readsAt_body (hvalid : block.Valid position out) (hsafe : BlockSafe position block)
    (hfits : (expand block.tokens out).length ≤ maxOutput) :
    ReadsAt (position + 3) (decompressBlock maxOutput out block.btype) block.body
      (expand block.tokens out) := by
  cases block with
  | stored padding bytes =>
    rw [Block.tokens, expand_literals] at hfits ⊢
    rw [length_append] at hfits
    intro r more hview haligned
    obtain ⟨hbytes, hshort, hpadding⟩ := hvalid
    apply decompressStoredBlock_eq hbytes _ hfits hview
    have hne : r.rest ≠ [] := by
      rw [hview, Block.body]
      intro hnil
      have hlength := congrArg length hnil
      simp at hlength
    have hplace := bitPos_add_length r hne
    have hstart : (position + 3) % 8 ≠ 0 := hsafe
    omega
  | fixed tokens =>
    refine readsAt_of_reads ?_ _
    show Reads (decompressHuffmanBlock maxOutput true out) _ _
    unfold decompressHuffmanBlock
    rw [if_pos rfl, show fixedLitBits = fixedLit by decide +kernel, pure_bind]
    exact reads_blockLoop (by decide +kernel) (by decide +kernel) (coded_fixedLit (by decide))
      (tokensCoded_fixed hvalid) hvalid hsafe hfits
  | dynamic header tokens =>
    obtain ⟨hheader, hend, hcoded, htokens⟩ := hvalid
    refine readsAt_of_reads ((reads_buildDynamicTrees hheader).bind ?_) _
    exact reads_blockLoop hheader.fits_lit hheader.fits_dist hend hcoded htokens hsafe hfits

theorem readsAt_unlessEmpty {α : Type} {x y : Decoder α} {bits : List Bool} {a : α}
    (h : ReadsAt position y bits a) (hbits : bits ≠ []) :
    ReadsAt position (do let r ← get; if r.bitsRemaining = 0 then x else y) bits a := by
  intro r more hview haligned
  have hremaining : r.bitsRemaining ≠ 0 := by
    have hne : r.rest ≠ [] := by
      rw [hview]
      exact append_ne_nil_of_left_ne_nil hbits more
    have hpos := length_pos_of_ne_nil hne
    have hplace := bitPos_add_length r hne
    unfold bitsRemaining
    omega
  obtain ⟨r', hrun, hrest⟩ := h r more hview haligned
  refine ⟨r', ?_, hrest⟩
  change (if r.bitsRemaining = 0 then x else y : Decoder α) r = _
  rw [if_neg hremaining]
  exact hrun

theorem readsAt_block (final : Bool) (hvalid : block.Valid position out)
    (hsafe : BlockSafe position block) (hfits : (expand block.tokens out).length ≤ maxOutput) :
    ReadsAt position (decompressStep maxOutput out) (block.bits final)
      (if final then .inr (expand block.tokens out)
        else .inl (expand block.tokens out)) := by
  have hbtype : block.btype < 2 ^ 2 := by
    cases block <;> simp [Block.btype]
  refine readsAt_unlessEmpty ?_ (cons_ne_nil _ _)
  have hbits : block.bits final = [final] ++ (toLsb 2 block.btype ++ (block.body ++ [])) := by
    rw [append_nil]
    rfl
  rw [hbits]
  refine (readsAt_of_reads (reads_readBit final) position).bind ?_
  refine (readsAt_of_reads (reads_readBits hbtype) _).bind ?_
  refine (readsAt_body hvalid hsafe hfits).bind ?_
  exact readsAt_of_reads (consumes_pure _) _

theorem readsAt_stream {blocks : List Block} (hne : blocks ≠ [])
    (hvalid : StreamValid position out blocks) (hsafe : StreamSafe position blocks)
    (hfits : (expand (blocks.flatMap Block.tokens) out).length ≤ maxOutput) {rounds : ℕ}
    (hrounds : blocks.length ≤ rounds) :
    ReadsAt position (loop (decompressStep maxOutput) .endless rounds out) (streamBits blocks)
      (expand (blocks.flatMap Block.tokens) out) := by
  induction blocks generalizing position out rounds with
  | nil => exact absurd rfl hne
  | cons block blocks ih =>
    obtain ⟨rounds, rfl⟩ : ∃ n, rounds = n + 1 := by
      rw [length_cons] at hrounds
      exact ⟨rounds - 1, by omega⟩
    rw [flatMap_cons, expand, foldl_append] at hfits ⊢
    have hroom := Nat.le_trans (length_le_expand _ _) hfits
    cases blocks with
    | nil =>
      have hbits : streamBits [block] = block.bits true ++ [] := (append_nil _).symm
      rw [hbits]
      refine (readsAt_block true hvalid.1 hsafe.1 hroom).bind ?_
      exact readsAt_of_reads (consumes_pure _) _
    | cons next blocks =>
      have hlength : (block.bits false).length = 3 + block.body.length := by
        simp [Block.bits]
        omega
      refine (readsAt_block false hvalid.1 hsafe.1 hroom).bind ?_
      rw [hlength, ← Nat.add_assoc]
      exact ih (cons_ne_nil _ _) hvalid.2 hsafe.2 hfits (Nat.le_of_succ_le_succ hrounds)

end Blocks

theorem length_le_streamBits (blocks : List Block) :
    blocks.length ≤ (streamBits blocks).length := by
  induction blocks with
  | nil => exact Nat.zero_le _
  | cons block blocks ih =>
    cases blocks with
    | nil => simp [streamBits, Block.bits]
    | cons next blocks =>
      rw [length_cons, streamBits, length_append]
      · have hpos : 0 < (block.bits false).length := Nat.succ_pos _
        omega
      · exact nofun

/-- A list of tokens, split into blocks in any way and encoded, is decompressed to what the tokens
stand for, if the blocks keep clear of the two departures from the format. -/
theorem decompressDeflate_encoded {tokens : List Token} {blocks : List Block}
    {input : List UInt8} {more : List Bool} {maxOutput : ℕ}
    (htokens : blocks.flatMap Block.tokens = tokens) (hne : blocks ≠ [])
    (hvalid : StreamValid 0 [] blocks) (hinput : ofBytes input = streamBits blocks ++ more)
    (hsafe : StreamSafe 0 blocks) (hfits : (expand tokens []).length ≤ maxOutput)
    (hcapacity : maxOutput < 2 ^ 63) :
    decompressDeflate input maxOutput = .ok (expand tokens []) := by
  subst htokens
  have hview : (BitReader.new input).rest = streamBits blocks ++ more := hinput
  have hrounds : blocks.length ≤ (BitReader.new input).rounds := by
    have hbits := length_le_streamBits blocks
    have hrest := length_rest_le (BitReader.new input)
    rw [hview, length_append] at hrest
    unfold rounds
    omega
  have haligned : 8 ∣ 0 + (BitReader.new input).rest.length := by
    rw [hview, ← hinput, length_ofBytes, Nat.zero_add]
    exact Nat.dvd_mul_right 8 _
  obtain ⟨r', hrun, -⟩ := readsAt_stream hne hvalid hsafe hfits hrounds _ more hview haligned
  unfold decompressDeflate StateT.run'
  dsimp only
  rw [if_neg (Nat.not_le.mpr hcapacity), hrun]
  rfl

/-- Words for `a`, the end of the block and one length; a word for one distance. -/
def smallHeader : DynamicHeader where
  lit := List.replicate 97 0 ++ [1] ++ List.replicate 158 0 ++ [2, 2]
  dist := [1]
  codeLengths := [0, 2, 2] ++ List.replicate 15 0 ++ [1]
  sent := 18
  items := [.manyZeros 97, .length 1, .manyZeros 138, .manyZeros 20, .length 2,
    .length 2, .length 1]

theorem smallHeader_valid : smallHeader.Valid where
  lit_length := by decide +kernel
  dist_length := by decide +kernel
  code_length := by decide +kernel
  sent_bounds := by decide +kernel
  unsent := by decide +kernel
  fits_lit := by decide +kernel
  fits_dist := by decide +kernel
  fits_code := by decide +kernel
  items_valid := by decide +kernel
  items_expand := by decide +kernel

def threeBlocks : List Block :=
  [.stored (List.replicate 5 false) [97, 98], .fixed [.copy 3 2, .literal 99],
    .dynamic smallHeader [.literal 97, .copy 3 1]]

theorem threeBlocks_valid : StreamValid 0 [] threeBlocks := by
  refine ⟨⟨by decide, by decide, by decide⟩, ?_,
    ⟨smallHeader_valid, by decide +kernel, ?_, ?_⟩, trivial⟩
  · show TokensValid _ _
    decide +kernel
  · decide +kernel
  · decide +kernel

/-- `ab`, `aba`, `c`, `a` and `aaa`. -/
theorem decompressDeflate_encoded_threeBlocks :
    decompressDeflate [0, 2, 0, 253, 255, 97, 98, 2, 194, 100, 64, 3, 112, 32, 0, 0, 0, 0, 32, 136,
      53, 127, 137, 207, 2] 64 = .ok [97, 98, 97, 98, 97, 99, 97, 97, 97, 97] := by
  have hinput : ofBytes [0, 2, 0, 253, 255, 97, 98, 2, 194, 100, 64, 3, 112, 32, 0, 0, 0, 0, 32,
      136, 53, 127, 137, 207, 2] = streamBits threeBlocks ++ replicate 5 false := by
    decide +kernel
  have hsafe : StreamSafe 0 threeBlocks := ⟨by decide, by decide, by decide, trivial⟩
  exact decompressDeflate_encoded rfl (cons_ne_nil _ _) threeBlocks_valid hinput hsafe
    (by decide +kernel) (by decide)

/-- Twenty times `a`, as two literals and a reference of length 18, come out as twenty-two. -/
theorem decompressDeflate_length_wrong :
    ofBytes [75, 76, 196, 4, 0] =
        streamBits [.fixed [.literal 97, .literal 97, .copy 18 1]] ++ [false] ∧
      StreamValid 0 [] [.fixed [.literal 97, .literal 97, .copy 18 1]] ∧
      expand [.literal 97, .literal 97, .copy 18 1] [] = List.replicate 20 (97 : UInt8) ∧
      decompressDeflate [75, 76, 196, 4, 0] 64 = .ok (List.replicate 22 97) := by
  have hvalid : TokensValid [] [.literal 97, .literal 97, .copy 18 1] := by decide
  exact ⟨by decide +kernel, ⟨hvalid, trivial⟩, by decide +kernel, by decide +kernel⟩

end EchOS.Compression.Deflate
