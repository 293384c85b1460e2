import EchOS.Lib.Consume
import EchOS.Lib.Lz77

/-! DEFLATE decompression in `echos-compression/src/deflate.rs`. -/

namespace EchOS.Compression.Deflate

/-- Why no output is returned. The loops of the source are given as many rounds as the input has
bits; `endless` says that these did not do. -/
inductive Fault
  | message (text : String)
  | capacityOverflow
  | endless
  deriving DecidableEq

structure BitReader where
  data : List UInt8
  bytePos : ℕ
  bitPos : Fin 8
  deriving DecidableEq

abbrev Decoder := StateT BitReader (Except Fault)

def fail {α : Type} (text : String) : Decoder α := throw (.message text)

namespace BitReader

def new (data : List UInt8) : BitReader := ⟨data, 0, 0⟩

def readBit : Decoder Bool := fun r =>
  match r.data[r.bytePos]? with
  | none => .error (.message "deflate: unexpected end of input")
  | some byte =>
    let bit := byte.toNat >>> r.bitPos.val &&& 1
    if h : r.bitPos.val + 1 < 8 then .ok (bit != 0, { r with bitPos := ⟨r.bitPos.val + 1, h⟩ })
    else .ok (bit != 0, { r with bytePos := r.bytePos + 1, bitPos := 0 })

def readBitsFrom : ℕ → ℕ → ℕ → Decoder ℕ
  | 0, _, result => pure result
  | n + 1, i, result => do
    let bit ← readBit
    readBitsFrom n (i + 1) (if bit then result ||| 1 <<< i else result)

def readBits (n : ℕ) : Decoder ℕ := readBitsFrom n 0 0

def alignByte : Decoder Unit := fun r =>
  .ok ((), { r with bytePos := r.bytePos + 1, bitPos := 0 })

def bitsRemaining (r : BitReader) : ℕ := (r.data.length - r.bytePos) * 8

def rounds (r : BitReader) : ℕ := 8 * r.data.length + 1

end BitReader

open BitReader

def le16 (data : List UInt8) (pos : ℕ) : ℕ :=
  (data.getD pos 0).toNat + 2 ^ 8 * (data.getD (pos + 1) 0).toNat

def decompressStoredBlock (maxOutput : ℕ) (output : List UInt8) : Decoder (List UInt8) := do
  alignByte
  let r ← get
  if r.data.length < r.bytePos + 4 then fail "deflate: truncated stored block"
  else
    let len := le16 r.data r.bytePos
    let nlen := le16 r.data (r.bytePos + 2)
    let start := r.bytePos + 4
    if len ≠ (2 ^ 64 - 1 - nlen) % 2 ^ 16 then fail "deflate: stored block length mismatch"
    else if r.data.length < start + len then fail "deflate: stored block exceeds input"
    else if maxOutput < output.length + len then fail "deflate: output exceeds max"
    else
      set { r with bytePos := start + len }
      return output ++ (r.data.drop start).take len

def fixedLitBits : List ℕ :=
  (List.range 288).map fun i =>
    if i < 144 then 8 else if i < 256 then 9 else if i < 280 then 7 else 8

def fixedDistBits : List ℕ := List.replicate 32 5

/-- Extra bits and first length of each length code. -/
def lengthExtra : List (ℕ × ℕ) :=
  [(0, 3), (0, 4), (0, 5), (0, 6), (0, 7), (0, 8), (0, 9), (0, 10),
   (1, 11), (1, 13), (2, 15), (2, 19), (3, 23), (3, 27), (4, 31), (4, 35),
   (5, 43), (5, 51), (6, 59), (6, 67), (7, 83), (7, 99), (8, 115), (8, 131),
   (9, 163), (9, 195), (10, 227), (10, 258), (0, 258)]

/-- Extra bits and first distance of each distance code. -/
def distExtra : List (ℕ × ℕ) :=
  [(0, 1), (0, 2), (0, 3), (0, 4), (1, 5), (1, 7), (2, 9), (2, 13),
   (3, 17), (3, 25), (4, 33), (4, 49), (5, 65), (5, 97), (6, 129), (6, 193),
   (7, 257), (7, 385), (8, 513), (8, 769), (9, 1025), (9, 1537), (10, 2049), (10, 3073),
   (11, 4097), (11, 6145), (12, 8193), (12, 12289), (13, 16385), (13, 24577)]

structure HuffmanCode where
  code : ℕ
  len : ℕ
  symbol : ℕ
  deriving DecidableEq

def blCount (lengths : List ℕ) : List ℕ :=
  lengths.foldl (fun count len => if 0 < len then count.modify len (· + 1) else count)
    (List.replicate 16 0)

/-- The first codes of the lengths from `bits` on, with the code of the length before. -/
def firstCodesFrom (count : List ℕ) : ℕ → ℕ → ℕ → List ℕ → List ℕ
  | 0, _, _, nextCode => nextCode
  | left + 1, bits, code, nextCode =>
    let code := (((code + count.getD (bits - 1) 0) % 2 ^ 16) <<< 1) % 2 ^ 16
    firstCodesFrom count left (bits + 1) code (nextCode.set bits code)

def firstCodes (count : List ℕ) : List ℕ := firstCodesFrom count 15 1 0 (List.replicate 16 0)

def assignCodes : ℕ → List ℕ → List ℕ → List HuffmanCode
  | _, [], _ => []
  | i, len :: lengths, nextCode =>
    if 0 < len then
      let c := nextCode.getD len 0
      ⟨c, len, i % 2 ^ 16⟩ :: assignCodes (i + 1) lengths (nextCode.set len ((c + 1) % 2 ^ 16))
    else assignCodes (i + 1) lengths nextCode

def buildCodesFromLengths (lengths : List ℕ) : List HuffmanCode :=
  assignCodes 0 lengths (firstCodes (blCount lengths))

def reverseBitsFrom (val n : ℕ) : ℕ → ℕ → ℕ → ℕ
  | 0, _, result => result
  | left + 1, i, result =>
    reverseBitsFrom val n left (i + 1)
      (if val &&& 1 <<< i ≠ 0 then result ||| 1 <<< (n - 1 - i) else result)

def reverseBits (val n : ℕ) : ℕ := reverseBitsFrom val n n 0 0

/-- The code words are compared after each bit, for the rounds left. -/
def readSymbolFrom (codes : List HuffmanCode) : ℕ → ℕ → ℕ → Decoder ℕ
  | 0, _, _ => fail "deflate: invalid huffman code"
  | left + 1, bits, bitCount => do
    let bit ← readBit
    let bits := if bit then bits ||| 1 <<< bitCount else bits
    let bitCount := bitCount + 1
    match codes.find? fun c => c.len = bitCount ∧ c.code = reverseBits bits bitCount with
    | some c => return c.symbol
    | none => readSymbolFrom codes left bits bitCount

def readHuffmanSymbol (codes : List HuffmanCode) : Decoder ℕ :=
  readSymbolFrom codes ((codes.map HuffmanCode.len).max?.getD 16) 0 0

def clOrder : List ℕ := [16, 17, 18, 0, 8, 7, 9, 6, 10, 5, 11, 4, 12, 3, 13, 2, 14, 1, 15]

def readClLengths : List ℕ → List ℕ → Decoder (List ℕ)
  | [], clLengths => pure clLengths
  | place :: order, clLengths => do
    let length ← readBits 3
    readClLengths order (clLengths.set place length)

def pushLengths (total : ℕ) (length : ℕ) : ℕ → List ℕ → List ℕ
  | 0, lengths => lengths
  | count + 1, lengths =>
    let lengths := lengths ++ [length]
    if total ≤ lengths.length then lengths else pushLengths total length count lengths

def readLengthsStep (clCodes : List HuffmanCode) (total : ℕ) (lengths : List ℕ) :
    Decoder (List ℕ ⊕ List ℕ) := do
  if total ≤ lengths.length then return .inr lengths
  else
    let sym ← readHuffmanSymbol clCodes
    if sym ≤ 15 then return .inl (lengths ++ [sym])
    else if sym = 16 then
      match lengths.getLast? with
      | none => fail "deflate: code 16 without prev"
      | some prev =>
        let count := (← readBits 2) + 3
        return .inl (pushLengths total prev count lengths)
    else if sym = 17 then
      let count := (← readBits 3) + 3
      return .inl (pushLengths total 0 count lengths)
    else if sym = 18 then
      let count := (← readBits 7) + 11
      return .inl (pushLengths total 0 count lengths)
    else fail "deflate: invalid code length symbol"

def buildDynamicTrees : Decoder (List HuffmanCode × List HuffmanCode) := do
  let hlit := (← readBits 5) + 257
  let hdist := (← readBits 5) + 1
  let hclen := (← readBits 4) + 4
  let clLengths ← readClLengths (clOrder.take hclen) (List.replicate 19 0)
  let clCodes := buildCodesFromLengths clLengths
  let total := hlit + hdist
  let lengths ← Consume.loop (readLengthsStep clCodes total) .endless (total + 1) []
  return (buildCodesFromLengths (lengths.take hlit), buildCodesFromLengths (lengths.drop hlit))

def huffmanBlockStep (litTree distTree : List HuffmanCode) (maxOutput : ℕ) (output : List UInt8) :
    Decoder (List UInt8 ⊕ List UInt8) := do
  let sym ← readHuffmanSymbol litTree
  if sym < 256 then
    if maxOutput ≤ output.length then fail "deflate: output exceeds max"
    else return .inl (output ++ [UInt8.ofNat sym])
  else if sym = 256 then return .inr output
  else
    let lengthCode := sym - 257
    if 28 < lengthCode then fail "deflate: invalid length code"
    else
      let (extraBits, baseLen) := lengthExtra.getD lengthCode (0, 0)
      let extra ← readBits extraBits
      let length := baseLen + extra
      let distCode ← readHuffmanSymbol distTree
      if 29 < distCode then fail "deflate: invalid distance code"
      else
        let (distExtraBits, distBase) := distExtra.getD distCode (0, 0)
        let dist ← readBits distExtraBits
        let distance := distBase + dist
        if distance = 0 ∨ output.length < distance then fail "deflate: invalid distance"
        else if maxOutput < output.length + length then fail "deflate: output exceeds max"
        else return .inl ((Lz77.pushBack distance)^[length] output)

def decompressHuffmanBlock (maxOutput : ℕ) (fixed : Bool) (output : List UInt8) :
    Decoder (List UInt8) := do
  let (litTree, distTree) ←
    if fixed then
      pure (buildCodesFromLengths fixedLitBits, buildCodesFromLengths fixedDistBits)
    else buildDynamicTrees
  let r ← get
  Consume.loop (huffmanBlockStep litTree distTree maxOutput) .endless r.rounds output

def decompressBlock (maxOutput : ℕ) (output : List UInt8) : ℕ → Decoder (List UInt8)
  | 0 => decompressStoredBlock maxOutput output
  | 1 => decompressHuffmanBlock maxOutput true output
  | 2 => decompressHuffmanBlock maxOutput false output
  | _ => fail "deflate: reserved block type"

/-- One round of the loop over the blocks; it goes on if the block is not the final one. -/
def decompressStep (maxOutput : ℕ) (output : List UInt8) :
    Decoder (List UInt8 ⊕ List UInt8) := do
  let r ← get
  if r.bitsRemaining = 0 then return .inr output
  else
    let isFinal ← readBit
    let btype ← readBits 2
    let output ← decompressBlock maxOutput output btype
    return if isFinal then .inr output else .inl output

/-- `Vec::with_capacity` panics beyond `isize::MAX`. -/
def decompressDeflate (input : List UInt8) (maxOutput : ℕ) : Except Fault (List UInt8) :=
  let reader := new input
  if 2 ^ 63 ≤ maxOutput then .error .capacityOverflow
  else (Consume.loop (decompressStep maxOutput) .endless reader.rounds []).run' reader

end EchOS.Compression.Deflate
