import OramPro.Ghash

/-!
# The bits of a block

The loops of `GCM.cpp` that take a block apart. A block is a vector of two signed numbers; `do_aes` and
`do_Ghash` divide them by two at every turn, rounding towards zero, and `runGC` shifts them by two.
-/
namespace OramPro.BlockBits
open Ghash (Shareholder)

abbrev Lane := BitVec 64

/-- `block`, with `x[0]` and `x[1]` of type `long long`. -/
@[ext]
structure Block where
  lane0 : Lane
  lane1 : Lane
  deriving DecidableEq

section program

/-- `(uint64_t)x % 2` -/
def digit (x : Lane) : Lane := x % 2

def divided (x : Lane) : Lane := x.sdiv 2

def shifted (x : Lane) : Lane := x.sshiftRight 2

/-- One turn of a loop into booleans from position `base` on. -/
def turn (next : Lane → Lane) (base : ℕ) (s : Block × (ℕ → Bool)) (j : ℕ) : Block × (ℕ → Bool) :=
  let select := Function.update s.2 (base+j) (digit s.1.lane0 == 1)
  let select := Function.update select (base+j+64) (digit s.1.lane1 == 1)
  (⟨next s.1.lane0,next s.1.lane1⟩,select)

def decompose (next : Lane → Lane) (base : ℕ) (x : Block) (select : ℕ → Bool) : Block × (ℕ → Bool) :=
  (List.range 64).foldl (turn next base) (x,select)

/-- The loop of `do_aes` over the key, and that of player 0 over the message. -/
def do_aes (x : Block) (select : ℕ → Bool) : ℕ → Bool := (decompose divided 0 x select).2

/-- One turn of the loop of `do_Ghash`, over the key and the message. -/
def ghashTurn (s : Block × Block × (ℕ → Shareholder)) (i : ℕ) : Block × Block × (ℕ → Shareholder) :=
  let (key,msg,wires) := s
  let tmp := (digit key.lane0).setWidth 8
  let tmp2 := (digit key.lane1).setWidth 8
  let wires := Function.update wires (i+128) ⟨1,tmp⟩
  let wires := Function.update wires (i+192) ⟨1,tmp2⟩
  let tmp := (digit msg.lane0).setWidth 8
  let tmp2 := (digit msg.lane1).setWidth 8
  let wires := Function.update wires i ⟨1,tmp⟩
  let wires := Function.update wires (i+64) ⟨1,tmp2⟩
  (⟨divided key.lane0,divided key.lane1⟩,⟨divided msg.lane0,divided msg.lane1⟩,wires)

/-- The wires before the first gate of `do_Ghash`. -/
def do_Ghash (key msg : Block) (wires : ℕ → Shareholder) : ℕ → Shareholder :=
  ((List.range 64).foldl ghashTurn (key,msg,wires)).2.2

/-- The loops of `runGC` over the blocks from number `i` on, with what they leave of the blocks. Player 1 runs
over its `lens2` blocks in an array for `lens`; the writes behind it, where `lens2` is larger, are not modelled. -/
def runGC : List Block → ℕ → (ℕ → Bool) → List Block × (ℕ → Bool)
  | [], _, select => ([],select)
  | x :: msg, i, select =>
    let (x,select) := decompose shifted (i*128) x select
    let (msg,select) := runGC msg (i+1) select
    (x :: msg,select)

end program

/-! ## What the loops compute -/

/-- After `n` turns. -/
structure Decomposed (next : Lane → Lane) (base : ℕ) (x : Block) (select : ℕ → Bool) (n : ℕ)
    (s : Block × (ℕ → Bool)) : Prop where
  lane0 : s.1.lane0 = next^[n] x.lane0
  lane1 : s.1.lane1 = next^[n] x.lane1
  select0 : ∀ j < n, s.2 (base+j) = (digit (next^[j] x.lane0) == 1)
  select1 : ∀ j < n, s.2 (base+j+64) = (digit (next^[j] x.lane1) == 1)
  outside : ∀ a, a < base ∨ base+128 ≤ a → s.2 a = select a

section loops
variable {next : Lane → Lane} {base n : ℕ} {x : Block} {select : ℕ → Bool}

lemma Decomposed.turn {s : Block × (ℕ → Bool)} (h : Decomposed next base x select n s) (hn : n < 64) :
    Decomposed next base x select (n+1) (turn next base s n) := by
  refine ⟨?_,?_,fun j hj => ?_,fun j hj => ?_,fun a ha => ?_⟩
  · rw [Function.iterate_succ_apply', ← h.lane0]
    rfl
  · rw [Function.iterate_succ_apply', ← h.lane1]
    rfl
  · simp only [BlockBits.turn]
    rw [Function.update_of_ne (by omega)]
    rcases eq_or_ne j n with rfl | hne
    · rw [Function.update_self, h.lane0]
    · rw [Function.update_of_ne (by omega), h.select0 j (by omega)]
  · simp only [BlockBits.turn]
    rcases eq_or_ne j n with rfl | hne
    · rw [Function.update_self, h.lane1]
    · rw [Function.update_of_ne (by omega), Function.update_of_ne (by omega), h.select1 j (by omega)]
  · simp only [BlockBits.turn]
    rw [Function.update_of_ne (by omega), Function.update_of_ne (by omega), h.outside a ha]

lemma decomposed (next : Lane → Lane) (base : ℕ) (x : Block) (select : ℕ → Bool) :
    Decomposed next base x select 64 (decompose next base x select) :=
  CountLoop.foldl_range ⟨rfl,rfl,by simp,by simp,fun _ _ => rfl⟩ fun _ hn _ h => h.turn hn

/-- The loops of `runGC` treat every block by itself. -/
lemma runGC_outside (msg : List Block) (i : ℕ) (select : ℕ → Bool) :
    ∀ a < i*128, (runGC msg i select).2 a = select a := by
  induction msg generalizing i select with
  | nil => exact fun _ _ => rfl
  | cons x msg ih =>
    intro a ha
    simp only [runGC]
    rw [ih _ _ a (by omega), (decomposed shifted (i*128) x select).outside a (.inl ha)]

lemma runGC_block (msg : List Block) (i : ℕ) (select : ℕ → Bool) : ∀ k (hk : k < msg.length), ∀ j < 64,
    (runGC msg i select).2 ((i+k)*128+j) = (digit (shifted^[j] msg[k].lane0) == 1) ∧
      (runGC msg i select).2 ((i+k)*128+j+64) = (digit (shifted^[j] msg[k].lane1) == 1) := by
  induction msg generalizing i select with
  | nil => simp
  | cons x msg ih =>
    intro k hk j hj
    have hd := decomposed shifted (i*128) x select
    cases k with
    | zero =>
      simp only [runGC, Nat.add_zero, List.getElem_cons_zero]
      rw [runGC_outside _ _ _ _ (by omega), runGC_outside _ _ _ _ (by omega)]
      exact ⟨hd.select0 j hj,hd.select1 j hj⟩
    | succ k =>
      have hrec := ih (i+1) (decompose shifted (i*128) x select).2 k (by simpa using hk) j hj
      rwa [(by omega : i+1+k = i+(k+1))] at hrec

/-- After `n` turns of `do_Ghash`. -/
structure Placed (key msg : Block) (n : ℕ) (s : Block × Block × (ℕ → Shareholder)) : Prop where
  key0 : s.1.lane0 = divided^[n] key.lane0
  key1 : s.1.lane1 = divided^[n] key.lane1
  msg0 : s.2.1.lane0 = divided^[n] msg.lane0
  msg1 : s.2.1.lane1 = divided^[n] msg.lane1
  wires : ∀ j < n,
    s.2.2 (j+128) = ⟨1,(digit (divided^[j] key.lane0)).setWidth 8⟩ ∧
    s.2.2 (j+192) = ⟨1,(digit (divided^[j] key.lane1)).setWidth 8⟩ ∧
    s.2.2 j = ⟨1,(digit (divided^[j] msg.lane0)).setWidth 8⟩ ∧
    s.2.2 (j+64) = ⟨1,(digit (divided^[j] msg.lane1)).setWidth 8⟩

lemma Placed.turn {key msg : Block} {s : Block × Block × (ℕ → Shareholder)} (h : Placed key msg n s)
    (hn : n < 64) : Placed key msg (n+1) (ghashTurn s n) := by
  obtain ⟨k, m, w⟩ := s
  refine ⟨?_,?_,?_,?_,fun j hj => ?_⟩
  · rw [Function.iterate_succ_apply', ← h.key0]
    rfl
  · rw [Function.iterate_succ_apply', ← h.key1]
    rfl
  · rw [Function.iterate_succ_apply', ← h.msg0]
    rfl
  · rw [Function.iterate_succ_apply', ← h.msg1]
    rfl
  · simp only [ghashTurn]
    rcases eq_or_ne j n with rfl | hne
    · simp (disch := omega) only [Function.update_of_ne, Function.update_self]
      rw [← h.key0, ← h.key1, ← h.msg0, ← h.msg1]
      exact ⟨rfl,rfl,rfl,rfl⟩
    · simp (disch := omega) only [Function.update_of_ne]
      exact h.wires j (by omega)

lemma placed (key msg : Block) (wires : ℕ → Shareholder) :
    Placed key msg 64 ((List.range 64).foldl ghashTurn (key,msg,wires)) :=
  CountLoop.foldl_range ⟨rfl,rfl,rfl,rfl,by simp⟩ fun _ hn _ h => h.turn hn

end loops

/-! ## Digits by division and by shifts -/

section digits
variable (x : Lane)

lemma digit_beq (x : Lane) : (digit x == 1) = x.getLsbD 0 := by
  have hmod : (digit x).toNat = x.toNat%2 := BitVec.toNat_umod
  rw [BitVec.getLsbD, Nat.testBit_zero, ← hmod, beq_eq_decide]
  exact decide_eq_decide.mpr BitVec.toNat_inj.symm

lemma natAbs_divided (k : ℕ) : (divided^[k] x).toInt.natAbs = x.toInt.natAbs/2^k := by
  induction k with
  | zero => simp
  | succ k ih =>
    have hdiv : ∀ y : Lane, (divided y).toInt.natAbs = y.toInt.natAbs/2 := fun y => by
      rw [divided, BitVec.toInt_sdiv_of_ne_or_ne _ _ (.inr (by decide)), Int.natAbs_tdiv]
      rfl
    rw [Function.iterate_succ_apply', hdiv, ih, Nat.div_div_eq_div_mul, pow_succ]

/-- The digits by division are those of the absolute value. -/
lemma digit_divided (k : ℕ) : (digit (divided^[k] x) == 1) = x.toInt.natAbs.testBit k := by
  have hodd : ∀ y : Lane, y.toNat%2 = y.toInt.natAbs%2 := fun y => by
    rw [BitVec.toInt_eq_toNat_cond]
    split_ifs <;> omega
  rw [digit_beq, BitVec.getLsbD, Nat.testBit_zero, hodd, natAbs_divided, Nat.testBit_eq_decide_div_mod_eq]

/-- The digits by shifts are every other digit, and then the sign. -/
lemma digit_shifted (k : ℕ) :
    (digit (shifted^[k] x) == 1) = if 2*k < 64 then x.getLsbD (2*k) else x.msb := by
  have hiter : shifted^[k] x = x.sshiftRight (2*k) := by
    induction k with
    | zero => simp
    | succ k ih => rw [Function.iterate_succ_apply', ih, shifted, ← BitVec.sshiftRight_add, Nat.mul_succ]
  rw [digit_beq, hiter, BitVec.getLsbD_sshiftRight]
  simp

end digits

/-! ## Binary digits -/

/-- Positions from `base` on hold the binary digits of the block. -/
def IsDigits (select : ℕ → Bool) (base : ℕ) (x : Block) : Prop :=
  ∀ j < 64, select (base+j) = x.lane0.getLsbD j ∧ select (base+j+64) = x.lane1.getLsbD j

/-- The booleans that wires carry. -/
def carried (wires : ℕ → Shareholder) (i : ℕ) : Bool := (wires i).data == 1

def Block.All (P : Lane → Prop) (x : Block) : Prop := P x.lane0 ∧ P x.lane1

/-- A lane whose absolute value has the same digits: no number below zero but the least one. -/
def Divides (x : Lane) : Prop := 0 ≤ x.toInt ∨ x = BitVec.intMin 64

/-- A lane whose digits but the last are all the sign. -/
def Shifts (x : Lane) : Prop := x = 0 ∨ x = 1 ∨ x = -1 ∨ x = -2

lemma divides_iff (x : Lane) :
    (∀ j < 64, (digit (divided^[j] x) == 1) = x.getLsbD j) ↔ Divides x := by
  have habs : x.toInt.natAbs = x.toNat ↔ Divides x := by
    rw [Divides, ← BitVec.toNat_inj, BitVec.toNat_intMin, BitVec.toInt_eq_toNat_cond]
    split_ifs <;> omega
  have hlt : x.toInt.natAbs < 2^64 := by
    rw [BitVec.toInt_eq_toNat_cond]
    split_ifs <;> omega
  rw [← habs]
  constructor
  · intro h
    refine Nat.eq_of_testBit_eq fun j => ?_
    rcases lt_or_ge j 64 with hj | hj
    · rw [← digit_divided, h j hj, BitVec.getLsbD]
    · have hpow : 2^64 ≤ 2^j := Nat.pow_le_pow_right (by omega) hj
      rw [Nat.testBit_lt_two_pow (hlt.trans_le hpow), Nat.testBit_lt_two_pow (x.isLt.trans_le hpow)]
  · intro h j _
    rw [digit_divided, h, BitVec.getLsbD]

/-- If every digit is also the one at the double position, then all but the last are the sign. -/
lemma eq_msb_of_shifted {x : Lane} (h : ∀ j < 64, (digit (shifted^[j] x) == 1) = x.getLsbD j) :
    ∀ n, ∀ j < 64, 64 ≤ j+n → 1 ≤ j → x.getLsbD j = x.msb := by
  intro n
  induction n using Nat.strong_induction_on with
  | _ n ih =>
    intro j hj hn hone
    rw [← h j hj, digit_shifted]
    split_ifs with hdouble
    · exact ih (64-2*j) (by omega) (2*j) hdouble (by omega) (by omega)
    · rfl

lemma shifts_iff (x : Lane) : (∀ j < 64, (digit (shifted^[j] x) == 1) = x.getLsbD j) ↔ Shifts x := by
  constructor
  · intro h
    have hall := eq_msb_of_shifted h 64
    have heq : ∀ y : Lane, x.getLsbD 0 = y.getLsbD 0 → x.msb = y.msb →
        (∀ j < 64, 1 ≤ j → y.getLsbD j = y.msb) → x = y := fun y h0 hm hy => by
      refine BitVec.eq_of_getLsbD_eq fun j hj => ?_
      rcases Nat.eq_zero_or_pos j with rfl | hpos
      · exact h0
      · rw [hall j hj (by omega) hpos, hy j hj hpos, hm]
    cases h0 : x.getLsbD 0 <;> cases hm : x.msb
    · exact .inl (heq 0 h0 hm (by decide))
    · exact .inr (.inr (.inr (heq (-2) h0 hm (by decide))))
    · exact .inr (.inl (heq 1 h0 hm (by decide)))
    · exact .inr (.inr (.inl (heq (-1) h0 hm (by decide))))
  · intro h j hj
    rw [digit_shifted]
    rcases h with rfl | rfl | rfl | rfl <;> revert j <;> decide

lemma isDigits_iff {next : Lane → Lane} {select : ℕ → Bool} {base : ℕ} {x : Block} {P : Lane → Prop}
    (hP : ∀ y, (∀ j < 64, (digit (next^[j] y) == 1) = y.getLsbD j) ↔ P y)
    (h : ∀ j < 64, select (base+j) = (digit (next^[j] x.lane0) == 1) ∧
      select (base+j+64) = (digit (next^[j] x.lane1) == 1)) :
    IsDigits select base x ↔ x.All P := by
  rw [Block.All, ← hP, ← hP]
  constructor
  · intro hd
    exact ⟨fun j hj => (h j hj).1.symm.trans (hd j hj).1,fun j hj => (h j hj).2.symm.trans (hd j hj).2⟩
  · intro hd j hj
    exact ⟨(h j hj).1.trans (hd.1 j hj),(h j hj).2.trans (hd.2 j hj)⟩

section blocks
variable (x key msg : Block) (msgs : List Block) (select : ℕ → Bool) (wires : ℕ → Shareholder)

lemma do_aes_bits : ∀ j < 64, do_aes x select (0+j) = (digit (divided^[j] x.lane0) == 1) ∧
    do_aes x select (0+j+64) = (digit (divided^[j] x.lane1) == 1) := fun j hj =>
  have h := decomposed divided 0 x select
  ⟨h.select0 j hj,h.select1 j hj⟩

lemma digit_setWidth (y : Lane) : ((digit y).setWidth 8 == (1 : BitVec 8)) = (digit y == 1) := by
  have hlt : (digit y).toNat < 2 := (BitVec.toNat_umod).trans_lt (Nat.mod_lt _ (by decide))
  have hbyte : ((digit y).setWidth 8).toNat = (digit y).toNat := by
    rw [BitVec.toNat_setWidth, Nat.mod_eq_of_lt (by omega)]
  rw [beq_eq_decide, beq_eq_decide]
  refine decide_eq_decide.mpr ?_
  rw [← BitVec.toNat_inj, hbyte, ← BitVec.toNat_inj]
  rfl

lemma do_Ghash_key : ∀ j < 64,
    carried (do_Ghash key msg wires) (128+j) = (digit (divided^[j] key.lane0) == 1) ∧
    carried (do_Ghash key msg wires) (128+j+64) = (digit (divided^[j] key.lane1) == 1) := by
  intro j hj
  obtain ⟨h0, h1, -⟩ := (placed key msg wires).wires j hj
  rw [(by omega : 128+j = j+128), (by omega : j+128+64 = j+192), carried, carried, do_Ghash, h0, h1]
  exact ⟨digit_setWidth _,digit_setWidth _⟩

lemma do_Ghash_msg : ∀ j < 64,
    carried (do_Ghash key msg wires) (0+j) = (digit (divided^[j] msg.lane0) == 1) ∧
    carried (do_Ghash key msg wires) (0+j+64) = (digit (divided^[j] msg.lane1) == 1) := by
  intro j hj
  obtain ⟨-, -, h0, h1⟩ := (placed key msg wires).wires j hj
  rw [Nat.zero_add, carried, carried, do_Ghash, h0, h1]
  exact ⟨digit_setWidth _,digit_setWidth _⟩

lemma runGC_bits (k : ℕ) (hk : k < msgs.length) : ∀ j < 64,
    (runGC msgs 0 select).2 (k*128+j) = (digit (shifted^[j] msgs[k].lane0) == 1) ∧
    (runGC msgs 0 select).2 (k*128+j+64) = (digit (shifted^[j] msgs[k].lane1) == 1) := by
  intro j hj
  have h := runGC_block msgs 0 select k hk j hj
  rwa [Nat.zero_add] at h

/-- Division and shifts give the same digits for 0 and 1 only. -/
lemma agree_iff (y : Lane) : (∀ j < 64, (digit (divided^[j] y) == 1) = (digit (shifted^[j] y) == 1)) ↔
    y = 0 ∨ y = 1 := by
  constructor
  · intro h
    have hmsb : y.msb = false := by
      by_contra hneg
      rw [Bool.not_eq_false] at hneg
      have hsign : ∀ j < 64, 32 ≤ j → y.toInt.natAbs.testBit j = true := fun j hj hge => by
        rw [← digit_divided, h j hj, digit_shifted, if_neg (by omega), hneg]
      have hmin : y.toInt.natAbs = 2^63 := by
        have hge := Nat.ge_two_pow_of_testBit (hsign 63 (by decide) (by decide))
        have hint := BitVec.toInt_eq_toNat_cond y
        have hy := y.isLt
        split_ifs at hint <;> omega
      have := hsign 32 (by decide) (by decide)
      rw [hmin] at this
      exact absurd this (by decide)
    have hpos : Divides y := .inl (by rw [BitVec.toInt_eq_toNat_of_msb hmsb]; exact Int.natCast_nonneg _)
    have hshift : Shifts y := (shifts_iff y).mp fun j hj => by
      rw [← h j hj, (divides_iff y).mpr hpos j hj]
    rcases hshift with rfl | rfl | rfl | rfl
    · exact .inl rfl
    · exact .inr rfl
    · exact absurd hmsb (by decide)
    · exact absurd hmsb (by decide)
  · intro h j hj
    have hd : Divides y := by rcases h with rfl | rfl <;> exact .inl (by decide)
    have hs : Shifts y := by
      rcases h with rfl | rfl
      · exact .inl rfl
      · exact .inr (.inl rfl)
    rw [(divides_iff y).mpr hd j hj, (shifts_iff y).mpr hs j hj]

/-- The three loops give the same booleans for the block, as the key, as the message and as block `k` of
a list. -/
def Agree (k : ℕ) (hk : k < msgs.length) : Prop := ∀ j < 128,
  carried (do_Ghash msgs[k] msg wires) (128+j) = do_aes msgs[k] select j ∧
  carried (do_Ghash key msgs[k] wires) j = do_aes msgs[k] select j ∧
  (runGC msgs 0 select).2 (k*128+j) = do_aes msgs[k] select j

lemma forall_positions {P : ℕ → Prop} : (∀ j < 128, P j) ↔ ∀ j < 64, P j ∧ P (j+64) := by
  constructor
  · exact fun h j hj => ⟨h j (by omega),h (j+64) (by omega)⟩
  · intro h j hj
    rcases lt_or_ge j 64 with hlow | hhigh
    · exact (h j hlow).1
    · have := (h (j-64) (by omega)).2
      rwa [Nat.sub_add_cancel hhigh] at this

lemma agree_block_iff (k : ℕ) (hk : k < msgs.length) :
    Agree key msg msgs select wires k hk ↔ msgs[k].All fun y => y = 0 ∨ y = 1 := by
  have haes : ∀ j < 64, do_aes msgs[k] select j = (digit (divided^[j] msgs[k].lane0) == 1) ∧
      do_aes msgs[k] select (j+64) = (digit (divided^[j] msgs[k].lane1) == 1) := fun j hj => by
    have := do_aes_bits msgs[k] select j hj
    rwa [Nat.zero_add] at this
  rw [Agree, forall_positions, Block.All, ← agree_iff, ← agree_iff]
  constructor
  · intro h
    refine ⟨fun j hj => ?_,fun j hj => ?_⟩
    · rw [← (haes j hj).1, ← (h j hj).1.2.2, (runGC_bits msgs select k hk j hj).1]
    · rw [← (haes j hj).2, ← (h j hj).2.2.2, ← (runGC_bits msgs select k hk j hj).2, Nat.add_assoc]
  · intro h j hj
    have hkey := do_Ghash_key msgs[k] msg wires j hj
    have hmsg := do_Ghash_msg key msgs[k] wires j hj
    have hgc := runGC_bits msgs select k hk j hj
    rw [Nat.zero_add] at hmsg
    rw [← Nat.add_assoc, ← Nat.add_assoc, (haes j hj).1, (haes j hj).2]
    exact ⟨⟨hkey.1,hmsg.1,hgc.1.trans (h.1 j hj).symm⟩,hkey.2,hmsg.2,hgc.2.trans (h.2 j hj).symm⟩

/-- The loops of `do_aes` and `do_Ghash` give the binary digits of a block exactly if no lane is below
zero but the least number, and the loop of `runGC` exactly if every lane is one of four numbers. They
agree exactly if every lane is 0 or 1. -/
theorem digits_iff :
    (IsDigits (do_aes x select) 0 x ↔ x.All Divides) ∧
    (IsDigits (carried (do_Ghash key msg wires)) 128 key ↔ key.All Divides) ∧
    (IsDigits (carried (do_Ghash key msg wires)) 0 msg ↔ msg.All Divides) ∧
    (∀ k (hk : k < msgs.length),
      IsDigits (runGC msgs 0 select).2 (k*128) msgs[k] ↔ msgs[k].All Shifts) ∧
    ∀ k (hk : k < msgs.length),
      Agree key msg msgs select wires k hk ↔ msgs[k].All fun y => y = 0 ∨ y = 1 := by
  refine ⟨isDigits_iff divides_iff (do_aes_bits x select),
    isDigits_iff divides_iff (do_Ghash_key key msg wires),
    isDigits_iff divides_iff (do_Ghash_msg key msg wires),
    fun k hk => isDigits_iff shifts_iff (runGC_bits msgs select k hk),
    fun k hk => agree_block_iff key msg msgs select wires k hk⟩

/-- For -1 division gives only the lowest digit, and for 2 shifts lose the one digit there is. -/
theorem digits_differ :
    (¬ ∀ (x : Block) (select : ℕ → Bool), IsDigits (do_aes x select) 0 x) ∧
    (¬ ∀ (key msg : Block) (wires : ℕ → Shareholder), IsDigits (carried (do_Ghash key msg wires)) 128 key) ∧
    ¬ ∀ (msgs : List Block) (select : ℕ → Bool) k (hk : k < msgs.length),
      IsDigits (runGC msgs 0 select).2 (k*128) msgs[k] := by
  have hneg : ¬ (⟨-1,0⟩ : Block).All Divides := fun h => by
    have := h.1
    rw [Divides] at this
    revert this
    decide
  refine ⟨fun h => ?_,fun h => ?_,fun h => ?_⟩
  · exact hneg ((isDigits_iff divides_iff (do_aes_bits _ _)).mp (h ⟨-1,0⟩ fun _ => false))
  · exact hneg ((isDigits_iff divides_iff (do_Ghash_key _ _ _)).mp (h ⟨-1,0⟩ ⟨0,0⟩ default))
  · have htwo := (isDigits_iff shifts_iff (runGC_bits _ _ 0 _)).mp
      (h [⟨2,0⟩] (fun _ => false) 0 (by decide))
    rcases htwo.1 with h | h | h | h <;> exact absurd h (by decide)

end blocks

end OramPro.BlockBits
