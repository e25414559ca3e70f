import OramPro.DcfMpc

/-!
# Conventions of the selections

The three selections of `pre_op.h` on arrays. The oblivious transfer is ideal and moves whole blocks of
sixteen bytes; `shared_select` hands it the address of its one bit where the others hand it an array.
The first party is `false`.
-/
namespace OramPro.Select
open DcfMpc (addSent)

abbrev Byte := BitVec 8

section program

/-- The bytes of an array of `t`-byte values. -/
def bytes {t : ℕ} (x : ℕ → BitVec (8*t)) (k : ℕ) : Byte := (x (k/t)).extractLsb' (8*(k%t)) 8

/-- Value `i` of an array of bytes. -/
def elem (t : ℕ) (b : ℕ → Byte) (i : ℕ) : BitVec (8*t) :=
  BitVec.ofFnLE fun j : Fin (8*t) => (b (i*t+j/8)).getLsbD (j%8)

/-- A buffer after a transfer of `length` blocks; `b j` is the choice for block `j`. -/
def recv (length : ℕ) (b : ℕ → Bool) (data0 data1 buffer : ℕ → Byte) (k : ℕ) : Byte :=
  if k < 16*length then (if b (k/16) then data1 k else data0 k) else buffer k

section
variable (data0 data1 : Bool → ℕ → Byte) (select_bit : Bool → Bool) (memory : Bool → ℕ → Bool)
  (r res : Bool → ℕ → Byte) (lens : ℕ)

/-- `shared_select<uint8_t>` at party `p`. The transfer reads its choices behind the address of the one
bit, where `memory` is what the stack holds. -/
def shared_select (p : Bool) (i : ℕ) : Byte :=
  let z := fun p i => data0 p i ^^^ data1 p i
  let z_r := fun p i => z p i ^^^ r p i
  let b := fun j => if j = 0 then select_bit p else memory p j
  let res := fun i => recv (lens/16) b (r !p) (z_r !p) (res p) i ^^^ r p i
  let res := fun i => if select_bit p then res i ^^^ z p i else res i
  res i ^^^ data0 p i

end

section
variable {t : ℕ} (data0 data1 : Bool → ℕ → BitVec (8*t)) (select_bit : Bool → Bool)
  (r res : Bool → ℕ → BitVec (8*t)) (lens : ℕ)

/-- `add_shared_select<T>` at party `p`. -/
def add_shared_select (p : Bool) (i : ℕ) : BitVec (8*t) :=
  let sent := fun b i => addSent (data0 · i) (data1 · i) select_bit (r · i) (!p) b
  let buffer := recv (lens*t/16) (fun _ => select_bit p) (bytes (sent false)) (bytes (sent true)) (bytes (res p))
  elem t buffer i+r p i

/-- `half_select<T, is_second>` at party `p`: the first party sends if `is_second`, else the second one. -/
def half_select (is_second : Bool) (data0 data1 : ℕ → BitVec (8*t)) (select_bit : Bool)
    (res : Bool → ℕ → BitVec (8*t)) (lens : ℕ) (p : Bool) (i : ℕ) : BitVec (8*t) :=
  if p = is_second then
    let z := fun i => data0 i-res (!p) i
    let z_r := fun i => data1 i-res (!p) i
    elem t (recv (lens*t/16) (fun _ => select_bit) (bytes z) (bytes z_r) (bytes (res p))) i
  else res p i

end

end program

/-! ## Transfers of whole blocks -/

section transfer
variable {t : ℕ}

lemma elem_getLsbD (b : ℕ → Byte) (i : ℕ) {j : ℕ} (hj : j < 8*t) :
    (elem t b i).getLsbD j = (b (i*t+j/8)).getLsbD (j%8) := by
  rw [elem, BitVec.getLsbD_eq_getElem hj, BitVec.getElem_ofFnLE]

/-- A byte of a value lies in the array when the value does. -/
lemma byte_div {i j : ℕ} (hj : j < 8*t) : (i*t+j/8)/t = i ∧ (i*t+j/8)%t = j/8 := by
  have hlt : j/8 < t := by omega
  constructor
  · rw [Nat.mul_comm, Nat.mul_add_div (by omega), Nat.div_eq_of_lt hlt, add_zero]
  · exact Nat.mul_add_mod_of_lt hlt

/-- One choice for all blocks selects between the arrays, value by value. -/
lemma elem_recv {lens i : ℕ} (h : 16 ∣ lens*t) (hi : i < lens) (b : Bool) (x y : ℕ → BitVec (8*t))
    (buffer : ℕ → Byte) :
    elem t (recv (lens*t/16) (fun _ => b) (bytes x) (bytes y) buffer) i = if b then y i else x i := by
  refine BitVec.eq_of_getLsbD_eq fun j hj => ?_
  obtain ⟨hdiv, hmod⟩ := byte_div (i := i) hj
  have hin : i*t+j/8 < 16*(lens*t/16) := by
    have hle : (i+1)*t ≤ lens*t := Nat.mul_le_mul_right t hi
    rw [add_mul, one_mul] at hle
    omega
  have hbyte : ∀ z : ℕ → BitVec (8*t), (bytes z (i*t+j/8)).getLsbD (j%8) = (z i).getLsbD j := by
    intro z
    rw [bytes, hdiv, hmod, BitVec.getLsbD_extractLsb', Nat.div_add_mod, decide_eq_true (Nat.mod_lt _ (by omega)),
      Bool.true_and]
  rw [elem_getLsbD _ _ hj, recv, if_pos hin]
  cases b with
  | false => exact hbyte x
  | true => exact hbyte y

end transfer

/-! ## Orientations -/

/-- Inputs of `shared_select<uint8_t>`. -/
structure Shared where
  lens : ℕ
  data0 : Bool → ℕ → Byte
  data1 : Bool → ℕ → Byte
  select_bit : Bool → Bool
  memory : Bool → ℕ → Bool
  r : Bool → ℕ → Byte
  res : Bool → ℕ → Byte
  dvd : 16 ∣ lens

section shared
variable (s : Shared)

def Shared.result : Bool → ℕ → Byte := shared_select s.data0 s.data1 s.select_bit s.memory s.r s.res s.lens

/-- The results are shares of `data1` for the joint bit 1 and of `data0` for 0. -/
def Shared.Right (i : ℕ) : Prop := s.result false i ^^^ s.result true i =
  if s.select_bit false ^^ s.select_bit true then s.data1 false i ^^^ s.data1 true i
  else s.data0 false i ^^^ s.data0 true i

/-- The choice that a party makes for the block of byte `i`. -/
def Shared.choice (p : Bool) (i : ℕ) : Bool := if i/16 = 0 then s.select_bit p else s.memory p (i/16)

/-- The share of the difference that a party takes once too often or too rarely. -/
def Shared.surplus (p : Bool) (i : ℕ) : Byte :=
  if s.choice p i = s.select_bit p then 0#8 else s.data0 (!p) i ^^^ s.data1 (!p) i

/-- What a party takes of both differences, on top of its share of `data0`. -/
def Shared.taken (p : Bool) (i : ℕ) : Byte :=
  (if s.choice p i then s.data0 (!p) i ^^^ s.data1 (!p) i else 0#8) ^^^
    (if s.select_bit p then s.data0 p i ^^^ s.data1 p i else 0#8) ^^^ s.data0 p i

lemma ite_xor (b : Bool) (x y : Byte) : (if b then x ^^^ y else y) = (if b then x else 0#8) ^^^ y := by
  cases b
  · exact BitVec.zero_xor.symm
  · rfl

lemma shared_result {i : ℕ} (hi : i < s.lens) (p : Bool) :
    s.result p i = s.taken p i ^^^ (s.r true i ^^^ s.r false i) := by
  have hin : i < 16*(s.lens/16) := by
    have := s.dvd
    omega
  have hr : s.r (!p) i ^^^ s.r p i = s.r true i ^^^ s.r false i := by
    cases p
    · rfl
    · exact BitVec.xor_comm _ _
  have hres : s.result p i =
      (if s.select_bit p then ((if s.choice p i then (s.data0 (!p) i ^^^ s.data1 (!p) i) ^^^ s.r (!p) i
          else s.r (!p) i) ^^^ s.r p i) ^^^ (s.data0 p i ^^^ s.data1 p i)
        else (if s.choice p i then (s.data0 (!p) i ^^^ s.data1 (!p) i) ^^^ s.r (!p) i
          else s.r (!p) i) ^^^ s.r p i) ^^^ s.data0 p i := by
    simp only [Shared.result, shared_select, recv, if_pos hin, Shared.choice]
    rfl
  rw [hres, BitVec.xor_comm _ (s.data0 p i ^^^ s.data1 p i), ite_xor, ite_xor, ← hr, Shared.taken]
  ac_rfl

/-- One bit of the two taken values. -/
lemma taken_bit (c0 c1 s0 s1 a0 a1 b0 b1 : Bool) :
    ((((if c0 then b0 ^^ b1 else false) ^^ (if s0 then a0 ^^ a1 else false)) ^^ a0) ^^
      (((if c1 then a0 ^^ a1 else false) ^^ (if s1 then b0 ^^ b1 else false)) ^^ b0)) =
    ((if s0 ^^ s1 then a1 ^^ b1 else a0 ^^ b0) ^^
      ((if c0 = s0 then false else b0 ^^ b1) ^^ (if c1 = s1 then false else a0 ^^ a1))) := by
  revert c0 c1 s0 s1 a0 a1 b0 b1
  decide

/-- The two results with what is taken wrongly. -/
lemma shared_xor {i : ℕ} (hi : i < s.lens) : s.result false i ^^^ s.result true i =
    (if s.select_bit false ^^ s.select_bit true then s.data1 false i ^^^ s.data1 true i
      else s.data0 false i ^^^ s.data0 true i) ^^^ (s.surplus false i ^^^ s.surplus true i) := by
  have hpads : s.result false i ^^^ s.result true i = s.taken false i ^^^ s.taken true i := by
    rw [shared_result s hi, shared_result s hi, BitVec.xor_comm (s.taken true i), BitVec.xor_assoc,
      ← BitVec.xor_assoc (s.r true i ^^^ s.r false i), BitVec.xor_self, BitVec.zero_xor]
  rw [hpads]
  ext j hj
  have hbit := taken_bit (s.choice false i) (s.choice true i) (s.select_bit false) (s.select_bit true)
    (s.data0 false i)[j] (s.data1 false i)[j] (s.data0 true i)[j] (s.data1 true i)[j]
  simpa only [Shared.taken, Shared.surplus, BitVec.getElem_xor, apply_ite (fun x : Byte => x[j]),
    BitVec.getElem_zero, Bool.not_false, Bool.not_true] using hbit

lemma shared_iff {i : ℕ} (hi : i < s.lens) : s.Right i ↔ s.surplus false i = s.surplus true i := by
  have hkeep : ∀ v x y : Byte, v ^^^ (x ^^^ y) = v ↔ x = y := by
    intro v x y
    rw [← BitVec.xor_eq_zero_iff (x := x), ← BitVec.xor_right_inj v (x := x ^^^ y), BitVec.xor_zero]
  rw [Shared.Right, shared_xor s hi]
  exact hkeep _ _ _

end shared

/-- Inputs of `add_shared_select<T>` with `sizeof(T) = t`. -/
structure Arith (t : ℕ) where
  lens : ℕ
  data0 : Bool → ℕ → BitVec (8*t)
  data1 : Bool → ℕ → BitVec (8*t)
  select_bit : Bool → Bool
  r : Bool → ℕ → BitVec (8*t)
  res : Bool → ℕ → BitVec (8*t)
  dvd : 16 ∣ lens*t

section arith
variable {t : ℕ} (s : Arith t)

def Arith.result : Bool → ℕ → BitVec (8*t) := add_shared_select s.data0 s.data1 s.select_bit s.r s.res s.lens

def Arith.Right (i : ℕ) : Prop := s.result false i+s.result true i =
  if s.select_bit false ^^ s.select_bit true then s.data1 false i+s.data1 true i
  else s.data0 false i+s.data0 true i

/-- The bit that the parties share selects the other value. -/
lemma arith_result {i : ℕ} (hi : i < s.lens) : s.result false i+s.result true i =
    if s.select_bit false ^^ s.select_bit true then s.data0 false i+s.data0 true i
    else s.data1 false i+s.data1 true i := by
  rw [← DcfMpc.addSent_add (s.data0 · i) (s.data1 · i) s.select_bit (s.r · i)]
  have hres : ∀ p, s.result p i =
      addSent (s.data0 · i) (s.data1 · i) s.select_bit (s.r · i) (!p) (s.select_bit p)+s.r p i := by
    intro p
    simp only [Arith.result, add_shared_select, elem_recv s.dvd hi]
    cases s.select_bit p <;> rfl
  rw [hres, hres]
  rfl

lemma arith_iff {i : ℕ} (hi : i < s.lens) :
    s.Right i ↔ s.data0 false i+s.data0 true i = s.data1 false i+s.data1 true i := by
  rw [Arith.Right, arith_result s hi]
  split
  · exact Iff.rfl
  · exact eq_comm

end arith

/-- Inputs of `half_select<T, is_second>` with `sizeof(T) = t`. -/
structure Half (t : ℕ) where
  is_second : Bool
  lens : ℕ
  data0 : ℕ → BitVec (8*t)
  data1 : ℕ → BitVec (8*t)
  select_bit : Bool
  res : Bool → ℕ → BitVec (8*t)
  dvd : 16 ∣ lens*t

section half
variable {t : ℕ} (s : Half t)

def Half.result : Bool → ℕ → BitVec (8*t) := half_select s.is_second s.data0 s.data1 s.select_bit s.res s.lens

def Half.Right (i : ℕ) : Prop :=
  s.result false i+s.result true i = if s.select_bit then s.data1 i else s.data0 i

lemma half_right {i : ℕ} (hi : i < s.lens) : s.Right i := by
  have hrecv : s.result s.is_second i =
      if s.select_bit then s.data1 i-s.res (!s.is_second) i else s.data0 i-s.res (!s.is_second) i := by
    simp only [Half.result, half_select, if_true, elem_recv s.dvd hi]
  have hsend : s.result (!s.is_second) i = s.res (!s.is_second) i := by
    have hne : ¬(!s.is_second) = s.is_second := by cases s.is_second <;> decide
    simp only [Half.result, half_select, if_neg hne]
  have hsum : s.result false i+s.result true i = s.result s.is_second i+s.result (!s.is_second) i := by
    cases s.is_second
    · rfl
    · exact add_comm _ _
  rw [Half.Right, hsum, hrecv, hsend]
  split <;> exact sub_add_cancel _ _

end half

/-- `shared_select` is right where each party's choice for the block is its bit, or the surplus is the
same on both sides; `add_shared_select` where it has nothing to select; `half_select` always. The bytes behind
`&select_bit` are taken for bools that hold 0 or 1; to read another value there as a bool is undefined. -/
theorem select_exact (s : Shared) {t : ℕ} (a : Arith t) (h : Half t) :
    ((∀ i < s.lens, s.Right i) ↔ ∀ i < s.lens, s.surplus false i = s.surplus true i) ∧
      ((∀ i < a.lens, a.Right i) ↔
        ∀ i < a.lens, a.data0 false i+a.data0 true i = a.data1 false i+a.data1 true i) ∧
      ∀ i < h.lens, h.Right i :=
  ⟨forall₂_congr fun _ hi => shared_iff s hi,forall₂_congr fun _ hi => arith_iff a hi,fun _ hi => half_right h hi⟩

/-! ### Small arrays -/

/-- Zero and one, both bits clear. -/
def arithInput : Arith 1 := ⟨16,0,fun p _ => if p then 0 else 1,fun _ => false,0,0,by decide⟩

/-- Two blocks of zeros and ones, both bits clear; behind the bit of the first party lies a set one. -/
def sharedInput : Shared :=
  ⟨32,0,fun p _ => if p then 1 else 0,fun _ => false,fun p _ => !p,0,0,by decide⟩

/-- The joint bit 0 selects the second value, and in the second block a share of the difference. -/
theorem select_small : ¬arithInput.Right 0 ∧ ¬sharedInput.Right 16 := by
  rw [arith_iff arithInput (by decide), shared_iff sharedInput (by decide)]
  decide

/-- Two blocks under the joint bit 1; behind each bit lies its own value once more. -/
def sharedBlocks : Shared where
  lens := 32
  data0 p i := if p then BitVec.ofNat 8 (7*i) else 0x5a
  data1 p i := if p then 0xc3 else BitVec.ofNat 8 (11*i+3)
  select_bit p := p
  memory p _ := p
  r p i := if p then BitVec.ofNat 8 (29*i) else BitVec.ofNat 8 (31*i+1)
  res _ _ := 0xff
  dvd := by decide

/-- Four words under the joint bit 1: both values are 12, in different shares. -/
def arithWords : Arith 4 where
  lens := 4
  data0 p _ := if p then 7 else 5
  data1 p _ := if p then 112 else -100
  select_bit p := p
  r p i := if p then BitVec.ofNat _ (1234567*i) else BitVec.ofNat _ (7654321*i+1)
  res _ _ := 0xffffffff
  dvd := by decide

/-- Four words from 1000 and from 2000 on; the first party sends, and the bit of the second one is set. -/
def halfWords : Half 4 where
  is_second := true
  lens := 4
  data0 i := BitVec.ofNat _ (1000+i)
  data1 i := BitVec.ofNat _ (2000+i)
  select_bit := true
  res p i := if p then 0xffffffff else BitVec.ofNat _ (3141592653*(i+1))
  dvd := by decide

/-- Byte 20 is 223 xor 195, and the word 3 of the receiver and its pad add up to 2003. -/
theorem select_blocks : sharedBlocks.result false 20 ^^^ sharedBlocks.result true 20 = 28 ∧
    arithWords.result false 3+arithWords.result true 3 = 12 ∧
    halfWords.result false 3+halfWords.result true 3 = 2003 := by
  obtain ⟨hshared, harith, hhalf⟩ := select_exact sharedBlocks arithWords halfWords
  refine ⟨hshared.mpr ?_ 20 (by decide),harith.mpr ?_ 3 (by decide),hhalf 3 (by decide)⟩
  · decide
  · decide

end OramPro.Select
