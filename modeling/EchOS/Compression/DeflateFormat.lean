import EchOS.Lib.CanonicalCode
import EchOS.Lib.Lz77

/-! The compressed data format of RFC 1951: which bits stand for which output. Nothing here is
taken from the decompressor. -/

namespace EchOS.Compression.Deflate.Format

open Bits CanonicalCode

abbrev Token := Lz77.Token UInt8

def lengthTable : List (ℕ × ℕ) :=
  [(0, 3), (0, 4), (0, 5), (0, 6), (0, 7), (0, 8), (0, 9), (0, 10),
   (1, 11), (1, 13), (1, 15), (1, 17), (2, 19), (2, 23), (2, 27), (2, 31),
   (3, 35), (3, 43), (3, 51), (3, 59), (4, 67), (4, 83), (4, 99), (4, 115),
   (5, 131), (5, 163), (5, 195), (5, 227), (0, 258)]

def distTable : List (ℕ × ℕ) :=
  [(0, 1), (0, 2), (0, 3), (0, 4), (1, 5), (1, 7), (2, 9), (2, 13),
   (3, 17), (3, 25), (4, 33), (4, 49), (5, 65), (5, 97), (6, 129), (6, 193),
   (7, 257), (7, 385), (8, 513), (8, 769), (9, 1025), (9, 1537), (10, 2049), (10, 3073),
   (11, 4097), (11, 6145), (12, 8193), (12, 12289), (13, 16385), (13, 24577)]

def locate : List (ℕ × ℕ) → ℕ → ℕ
  | _ :: next :: table, v => if next.2 ≤ v then locate (next :: table) v + 1 else 0
  | _, _ => 0

/-- The code of a value's entry, then how far the value is into it. -/
def fieldBits (lengths : List ℕ) (symbol : ℕ) (table : List (ℕ × ℕ)) (v : ℕ) : List Bool :=
  let entry := table.getD (locate table v) (0, 0)
  word lengths (symbol + locate table v) ++ toLsb entry.1 (v - entry.2)

def tokenBits (lit dist : List ℕ) : Token → List Bool
  | .literal byte => word lit byte.toNat
  | .copy length distance =>
    fieldBits lit 257 lengthTable length ++ fieldBits dist 0 distTable distance

def tokensBits (lit dist : List ℕ) (tokens : List Token) : List Bool :=
  tokens.flatMap (tokenBits lit dist) ++ word lit 256

def TokenCoded (lit dist : List ℕ) : Token → Prop
  | .literal byte => Coded lit byte.toNat
  | .copy length distance =>
    Coded lit (257 + locate lengthTable length) ∧ Coded dist (locate distTable distance)

instance (lit dist : List ℕ) : DecidablePred (TokenCoded lit dist)
  | .literal byte => inferInstanceAs (Decidable (Coded lit byte.toNat))
  | .copy length distance =>
      inferInstanceAs (Decidable (Coded lit (257 + locate lengthTable length) ∧
      Coded dist (locate distTable distance)))

/-- A reference is of a length and distance that the format has, and does not go beyond the
output so far. -/
def TokenValid (out : List UInt8) : Token → Prop
  | .literal _ => True
  | .copy length distance =>
    (3 ≤ length ∧ length ≤ 258) ∧ 1 ≤ distance ∧ distance ≤ 32768 ∧ distance ≤ out.length

instance (out : List UInt8) : DecidablePred (TokenValid out)
  | .literal _ => inferInstanceAs (Decidable True)
  | .copy length distance => inferInstanceAs (Decidable ((3 ≤ length ∧ length ≤ 258) ∧
      1 ≤ distance ∧ distance ≤ 32768 ∧ distance ≤ out.length))

def TokensValid : List UInt8 → List Token → Prop
  | _, [] => True
  | out, token :: tokens => TokenValid out token ∧ TokensValid (Lz77.append out token) tokens

instance TokensValid.decidable : ∀ out tokens, Decidable (TokensValid out tokens)
  | _, [] => inferInstanceAs (Decidable True)
  | out, token :: tokens =>
    have := TokensValid.decidable (Lz77.append out token) tokens
    inferInstanceAs (Decidable (TokenValid out token ∧
      TokensValid (Lz77.append out token) tokens))

def fixedLit : List ℕ :=
  List.replicate 144 8 ++ List.replicate 112 9 ++ List.replicate 24 7 ++ List.replicate 8 8

def fixedDist : List ℕ := List.replicate 32 5

/-- A symbol of the code length alphabet and what it is followed by. -/
inductive LengthItem
  | length (n : ℕ)
  | repeatLast (count : ℕ)
  | zeros (count : ℕ)
  | manyZeros (count : ℕ)
  deriving DecidableEq

namespace LengthItem

def symbol : LengthItem → ℕ
  | .length n => n
  | .repeatLast _ => 16
  | .zeros _ => 17
  | .manyZeros _ => 18

def extra : LengthItem → List Bool
  | .length _ => []
  | .repeatLast count => toLsb 2 (count - 3)
  | .zeros count => toLsb 3 (count - 3)
  | .manyZeros count => toLsb 7 (count - 11)

def Valid : LengthItem → Prop
  | .length n => n ≤ 15
  | .repeatLast count => 3 ≤ count ∧ count ≤ 6
  | .zeros count => 3 ≤ count ∧ count ≤ 10
  | .manyZeros count => 11 ≤ count ∧ count ≤ 138

instance : DecidablePred Valid
  | .length n => inferInstanceAs (Decidable (n ≤ 15))
  | .repeatLast count => inferInstanceAs (Decidable (3 ≤ count ∧ count ≤ 6))
  | .zeros count => inferInstanceAs (Decidable (3 ≤ count ∧ count ≤ 10))
  | .manyZeros count => inferInstanceAs (Decidable (11 ≤ count ∧ count ≤ 138))

/-- The code lengths after an item; there has to be one to repeat. -/
def expand (lengths : List ℕ) : LengthItem → Option (List ℕ)
  | .length n => some (lengths ++ [n])
  | .repeatLast count => lengths.getLast?.map fun last => lengths ++ List.replicate count last
  | .zeros count | .manyZeros count => some (lengths ++ List.replicate count 0)

end LengthItem

def codeLengthOrder : List ℕ := [16, 17, 18, 0, 8, 7, 9, 6, 10, 5, 11, 4, 12, 3, 13, 2, 14, 1, 15]

/-- The codes of a dynamic block, and how it sends their lengths. -/
structure DynamicHeader where
  lit : List ℕ
  dist : List ℕ
  codeLengths : List ℕ
  sent : ℕ
  items : List LengthItem

namespace DynamicHeader

def bits (header : DynamicHeader) : List Bool :=
  toLsb 5 (header.lit.length - 257) ++ (toLsb 5 (header.dist.length - 1) ++
    (toLsb 4 (header.sent - 4) ++
      ((codeLengthOrder.take header.sent).flatMap
          (fun place => toLsb 3 (header.codeLengths.getD place 0)) ++
        header.items.flatMap fun item => word header.codeLengths item.symbol ++ item.extra)))

structure Valid (header : DynamicHeader) : Prop where
  lit_length : 257 ≤ header.lit.length ∧ header.lit.length ≤ 286
  dist_length : 1 ≤ header.dist.length ∧ header.dist.length ≤ 32
  code_length : header.codeLengths.length = 19
  sent_bounds : 4 ≤ header.sent ∧ header.sent ≤ 19
  unsent : ∀ place ∈ codeLengthOrder.drop header.sent, header.codeLengths.getD place 0 = 0
  fits_lit : Fits 15 header.lit
  fits_dist : Fits 15 header.dist
  fits_code : Fits 7 header.codeLengths
  items_valid : ∀ item ∈ header.items, item.Valid ∧ Coded header.codeLengths item.symbol
  items_expand : header.items.foldlM LengthItem.expand [] = some (header.lit ++ header.dist)

end DynamicHeader

/-- A stored block skips some bits, which may be any. -/
inductive Block
  | stored (padding : List Bool) (bytes : List UInt8)
  | fixed (tokens : List Token)
  | dynamic (header : DynamicHeader) (tokens : List Token)

namespace Block

def tokens : Block → List Token
  | .stored _ bytes => bytes.map .literal
  | .fixed tokens | .dynamic _ tokens => tokens

def btype : Block → ℕ
  | .stored _ _ => 0
  | .fixed _ => 1
  | .dynamic _ _ => 2

def body : Block → List Bool
  | .stored padding bytes =>
    padding ++ (toLsb 16 bytes.length ++ (toLsb 16 (65535 - bytes.length) ++ ofBytes bytes))
  | .fixed tokens => tokensBits fixedLit fixedDist tokens
  | .dynamic header tokens => header.bits ++ tokensBits header.lit header.dist tokens

def bits (block : Block) (final : Bool) : List Bool :=
  final :: (toLsb 2 block.btype ++ block.body)

/-- The block may begin at a bit position, with some output there already. -/
def Valid (position : ℕ) (out : List UInt8) : Block → Prop
  | .stored padding bytes =>
    bytes.length < 2 ^ 16 ∧ padding.length < 8 ∧ 8 ∣ position + 3 + padding.length
  | .fixed tokens => TokensValid out tokens
  | .dynamic header tokens =>
    header.Valid ∧ Coded header.lit 256 ∧
      (∀ token ∈ tokens, TokenCoded header.lit header.dist token) ∧ TokensValid out tokens

end Block

def streamBits : List Block → List Bool
  | [] => []
  | [block] => block.bits true
  | block :: blocks => block.bits false ++ streamBits blocks

/-- Blocks from a bit position on, with some output there already. -/
def StreamValid : ℕ → List UInt8 → List Block → Prop
  | _, _, [] => True
  | position, out, block :: blocks =>
    block.Valid position out ∧
      StreamValid (position + 3 + block.body.length) (Lz77.expand block.tokens out) blocks

end EchOS.Compression.Deflate.Format
