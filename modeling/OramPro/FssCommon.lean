import OramPro.CountLoop

/-!
# Words, AES blocks and the pseudorandom generator

A block is sixteen bytes in memory order, so byte `j` is bits `8j .. 8j+7` and the byte
loops of the source that XOR two blocks are `^^^`. The AES compression `offline_prg` under
the `i`-th key of `aes_keys` is an arbitrary function `prg i`.
-/
namespace OramPro

abbrev Byte := BitVec 8
abbrev Block := BitVec 128

def byteAt (b : Block) (j : ℕ) : Byte := b.extractLsb' (8*j) 8

structure Fss where
  prg : ℕ → Block → Block
  numBits : ℕ
  prime : ℕ

/-- `getBit`, with positions counted from the most significant bit of 64. -/
def getBit (n : BitVec 64) (pos : ℕ) : Bool := n.getLsbD (64-pos)

/-- An array of two with `x` at index `a` and `y` at index `na = a ^ 1`. -/
def pick {α : Type*} (a : Bool) (x y : α) : Bool → α := fun b => if b = a then x else y

@[simp] lemma pick_self {α : Type*} (a : Bool) (x y : α) : pick a x y a = x := by simp [pick]
@[simp] lemma pick_not {α : Type*} (a : Bool) (x y : α) : pick a x y (!a) = y := by simp [pick]

/-- Output byte `j` of `prf` on `key`: block `j / 16` is the compression under key `j / 16`. -/
def prfByte (prg : ℕ → Block → Block) (key : Block) (j : ℕ) : Byte := byteAt (prg (j/16) key) (j%16)

/-- Output bytes `16b .. 16b+15`. -/
def prfSeed (prg : ℕ → Block → Block) (key : Block) (b : Bool) : Block := prg b.toNat key

/-- Output byte `32+b`, taken modulo 2. -/
def prfBit (prg : ℕ → Block → Block) (key : Block) (b : Bool) : Bool :=
  (prfByte prg key (32+b.toNat)).getLsbD 0

/-- `byteArr2Int64` reads eight bytes, the least significant first. -/
def byteArr2Int64 (arr : ℕ → Byte) : BitVec 64 :=
  (List.range 8).foldr (fun j v => v <<< 8 ||| (arr j).zeroExtend 64) 0

/-- The word at output bytes `40+8b .. 47+8b`. -/
def prfWord (prg : ℕ → Block → Block) (key : Block) (b : Bool) : BitVec 64 :=
  byteArr2Int64 fun j => prfByte prg key (40+8*b.toNat+j)

/-- The first four bytes of a block, the most significant first. -/
def head32 (s : Block) : ℕ :=
  (List.range 4).foldl (fun v j => v*256+(byteAt s j).toNat) 0

end OramPro
