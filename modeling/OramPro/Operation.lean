import OramPro.Compare
import OramPro.Ram

/-!
# The operations of the machine

Every operation takes four-party shares and leaves replicated shares of its result. The rounds
of an operation only postpone the receive phase of a reveal, so an operation is written as the
sequence of its reveals.
-/
namespace OramPro

open Party

/-- Negation at the odd parties, which turns the result of a read into additive shares. -/
def negOdd (x : Party → Word) (p : Party) : Word := if p.isEven then x p else -x p

@[simp] lemma open4_negOdd (x : Party → Word) : open4 (negOdd x) = openRead x := by
  simp only [open4, openRead, negOdd, isEven, if_true, Bool.false_eq_true, if_false]
  ring

/-! ## Addition and subtraction -/

structure AddDraw where
  conv : ZeroDraw
  overflow : OverflowDraw

/-- `Add_sub` of type 1: the replicated sum and its carry. -/
def addOp (d : AddDraw) (R A : Party → Word) : (Party → Word) × (Party → Word) :=
  (toReplicated d.conv fun p => R p+A p,overflow d.overflow overflowAdd R A)

/-- `Add_sub` of type 2: the replicated difference and its borrow. -/
def subOp (d : AddDraw) (R A : Party → Word) : (Party → Word) × (Party → Word) :=
  (toReplicated d.conv fun p => R p-A p,overflow d.overflow overflowSub R A)

lemma open4_add (x y : Party → Word) : open4 (fun p => x p+y p) = open4 x+open4 y := by
  simp only [open4]
  ring

lemma open4_sub (x y : Party → Word) : open4 (fun p => x p-y p) = open4 x-open4 y := by
  simp only [open4]
  ring

/-! ## Multiplication -/

structure MulDraw where
  msb_33 : GateDraw
  msb_34 : GateDraw
  msb_33_diag : GateDraw
  msb_34_diag : GateDraw
  msb_ans : GateDraw
  gt_fp : GateDraw

section mul
variable (d : MulDraw) (R A : Party → Word)

/-- The first factor in 64 bits, without the surplus of the sum of its shares. -/
def mulR64 (p : Party) : BitVec 64 :=
  let R64 := twopcReveal (fun q => (R q).zeroExtend 64) p
  let mR33 := gate2Reduce msb33 d.msb_33 (gate1 msb33 d.msb_33 (fun q => (R q).toNat) false) p
  let mR34 := gate2Reduce msb34 d.msb_34 (gate1 msb34 d.msb_34 (fun q => (R q).toNat) false) p
  R64-mR33.zeroExtend 64 <<< 32-mR34.zeroExtend 64 <<< 33

/-- The second factor, shared along the diagonals. -/
def mulA64 (p : Party) : BitVec 64 :=
  let A64 := diagReveal (fun q => (A q).zeroExtend 64) p
  let mA33 := gate2Diag msb33 d.msb_33_diag
    (gate1 msb33 d.msb_33_diag (fun q => (A q).toNat) false) p
  let mA34 := gate2Diag msb34 d.msb_34_diag
    (gate1 msb34 d.msb_34_diag (fun q => (A q).toNat) false) p
  A64-mA33.zeroExtend 64 <<< 32-mA34.zeroExtend 64 <<< 33

/-- What `Mul` stores in its two results and in its flag. -/
structure MulOut where
  low : Party → Word
  high : Party → Word
  flag : Party → Word

def mulOp : MulOut :=
  let total_mul p := mulR64 d R p*mulA64 d A p
  let total_rep := twopcReveal total_mul
  let low p := (total_rep p).setWidth 32
  let ms_bit := gate2Reduce msb33 d.msb_ans (gate1 msb33 d.msb_ans (fun p => (low p).toNat) true)
  { low := low
    high := fun p => (total_rep p >>> 32).setWidth 32+ms_bit p
    flag := gate2Reduce ic32 d.gt_fp (gate1 ic32 d.gt_fp (fun p => (total_mul p).toNat) false) }

end mul

section mulSpec
variable {d : MulDraw} {R A : Party → Word}

lemma shiftLeft_add (x y : Word) (s : ℕ) (hs : s = 32 ∨ s = 33) :
    x.zeroExtend 64 <<< s+y.zeroExtend 64 <<< s = (x+y).zeroExtend 64 <<< s := by
  apply BitVec.eq_of_toNat_eq
  rcases hs with rfl | rfl <;>
    simp only [BitVec.toNat_add, BitVec.toNat_shiftLeft, BitVec.toNat_setWidth, Nat.shiftLeft_eq,
      BitVec.truncate_eq_setWidth] <;> omega

lemma word_one : (1 : Word).toNat = 1 := rfl

lemma word_zero : (0 : Word).toNat = 0 := rfl

/-- The high half of a sum of two halves takes the carry of the low halves. -/
lemma high_add (t u : BitVec 64) :
    (t >>> 32).setWidth 32+(u >>> 32).setWidth 32
      +(if 2^32 ≤ (t.setWidth 32).toNat+(u.setWidth 32).toNat then 1 else 0 : Word) =
      ((t+u) >>> 32).setWidth 32 := by
  apply BitVec.eq_of_toNat_eq
  by_cases hc : 2^32 ≤ (t.setWidth 32).toNat+(u.setWidth 32).toNat
  · rw [if_pos hc]
    simp only [BitVec.toNat_add, BitVec.toNat_setWidth, BitVec.toNat_ushiftRight,
      Nat.shiftRight_eq_div_pow, word_one] at hc ⊢
    omega
  · rw [if_neg hc]
    simp only [BitVec.toNat_add, BitVec.toNat_setWidth, BitVec.toNat_ushiftRight,
      Nat.shiftRight_eq_div_pow, word_zero] at hc ⊢
    omega

/-- A sum of four words is the shared word plus its bits 32 and 33. -/
lemma surplus (R : Party → Word) :
    (R player0).zeroExtend 64+(R player1).zeroExtend 64+(R player2).zeroExtend 64
        +(R player3).zeroExtend 64
      -(gateBit msb33 (gateSum (fun q => (R q).toNat) false)).zeroExtend 64 <<< 32
      -(gateBit msb34 (gateSum (fun q => (R q).toNat) false)).zeroExtend 64 <<< 33 =
      (open4 R).zeroExtend 64 := by
  have hsum : ((R player0).zeroExtend 64+(R player1).zeroExtend 64+(R player2).zeroExtend 64
      +(R player3).zeroExtend 64).toNat = gateSum (fun q => (R q).toNat) false := by
    simp only [BitVec.toNat_add, BitVec.truncate_eq_setWidth, BitVec.toNat_setWidth, gateSum,
      Bool.false_eq_true, if_false]
    omega
  have hr : (open4 R).toNat = gateSum (fun q => (R q).toNat) false%2^32 := toNat_open4 R
  have hlt : gateSum (fun q => (R q).toNat) false < 2^34 := by
    simp only [gateSum, Bool.false_eq_true, if_false]
    omega
  generalize gateSum (fun q => (R q).toNat) false = S at hsum hr hlt ⊢
  generalize (R player0).zeroExtend 64+(R player1).zeroExtend 64+(R player2).zeroExtend 64
    +(R player3).zeroExtend 64 = z at hsum ⊢
  apply BitVec.eq_of_toNat_eq
  simp only [gateBit, msb33, msb34]
  by_cases h32 : 2^32 ≤ S%2^33 <;> by_cases h33 : 2^33 ≤ S%2^34 <;>
    simp only [h32, h33, if_true, if_false, word_one, word_zero, BitVec.toNat_sub, BitVec.toNat_shiftLeft,
      BitVec.truncate_eq_setWidth, BitVec.toNat_setWidth, hsum, hr, Nat.shiftLeft_eq] <;> omega

/-- The bits 32 and 33 that the lift of a word takes off. -/
def bit33 (R : Party → Word) : Word := gateBit msb33 (gateSum (fun q => (R q).toNat) false)
def bit34 (R : Party → Word) : Word := gateBit msb34 (gateSum (fun q => (R q).toNat) false)

lemma lift_twopc {m33 m34 : Party → Word} (h33 : Replicated m33 ∧ openRep m33 = bit33 R)
    (h34 : Replicated m34 ∧ openRep m34 = bit34 R) :
    let R64 p := twopcReveal (fun q => (R q).zeroExtend 64) p-(m33 p).zeroExtend 64 <<< 32
      -(m34 p).zeroExtend 64 <<< 33
    Replicated R64 ∧ openRep R64 = (open4 R).zeroExtend 64 := by
  obtain ⟨⟨a0, a1⟩, a2⟩ := h33
  obtain ⟨⟨b0, b1⟩, b2⟩ := h34
  refine ⟨⟨?_,?_⟩,?_⟩
  · simp only [twopcReveal, twopcRecv, twopc, a0, b0]
    ring
  · simp only [twopcReveal, twopcRecv, twopc, a1, b1]
    ring
  · rw [← surplus R]
    simp only [bit33, bit34] at a2 b2
    rw [← a2, ← b2]
    simp only [openRep, ← shiftLeft_add _ _ 32 (.inl rfl), ← shiftLeft_add _ _ 33 (.inr rfl),
      twopcReveal, twopcRecv, twopc]
    ring

/-- The two parties of a diagonal hold one share and those of the other diagonal the other. -/
def Diagonal {w : ℕ} (d : Party → BitVec w) (v : BitVec w) : Prop :=
  d player0 = d player2 ∧ d player1 = d player3 ∧ d player0+d player1 = v

lemma lift_diag {m33 m34 : Party → Word} (h33 : Diagonal m33 (bit33 R)) (h34 : Diagonal m34 (bit34 R)) :
    Diagonal (fun p => diagReveal (fun q => (R q).zeroExtend 64) p-(m33 p).zeroExtend 64 <<< 32
      -(m34 p).zeroExtend 64 <<< 33) ((open4 R).zeroExtend 64) := by
  obtain ⟨a0, a1, a2⟩ := h33
  obtain ⟨b0, b1, b2⟩ := h34
  refine ⟨?_,?_,?_⟩
  · simp only [diagReveal, diagRecv, diag, a0, b0]
    ring
  · simp only [diagReveal, diagRecv, diag, a1, b1]
    ring
  · rw [← surplus R]
    simp only [bit33, bit34] at a2 b2
    rw [← a2, ← b2]
    simp only [← shiftLeft_add _ _ 32 (.inl rfl), ← shiftLeft_add _ _ 33 (.inr rfl), diagReveal,
      diagRecv, diag]
    ring

lemma open4_mul_diag {x y : Party → BitVec 64} {u v : BitVec 64} (hx : Replicated x ∧ openRep x = u)
    (hy : Diagonal y v) : open4 (fun p => x p*y p) = u*v := by
  obtain ⟨⟨r0, r1⟩, rfl⟩ := hx
  obtain ⟨a0, a1, rfl⟩ := hy
  simp only [open4, openRep, ← r0, ← r1, ← a0, ← a1]
  ring

lemma product_toNat (x y : Word) : (x.zeroExtend 64*y.zeroExtend 64).toNat = x.toNat*y.toNat := by
  have hx := x.isLt
  have hy := y.isLt
  have hlt : x.toNat*y.toNat < 2^32*2^32 := Nat.mul_lt_mul'' hx hy
  simp only [BitVec.toNat_mul, BitVec.truncate_eq_setWidth, BitVec.toNat_setWidth]
  rw [Nat.mod_eq_of_lt (by omega : x.toNat < 2^64), Nat.mod_eq_of_lt (by omega : y.toNat < 2^64),
    Nat.mod_eq_of_lt (by omega)]

lemma toNat_open4_long (x : Party → BitVec 64) :
    (open4 x).toNat = gateSum (fun p => (x p).toNat) false%2^64 := by
  simp only [open4, BitVec.toNat_add, gateSum, Bool.false_eq_true, if_false]
  omega

section halves
variable {total_mul : Party → BitVec 64} {x y : Word}
  (h : open4 total_mul = x.zeroExtend 64*y.zeroExtend 64)
include h

lemma total_sum : gateSum (fun p => (total_mul p).toNat) false%2^64 = x.toNat*y.toNat := by
  rw [← toNat_open4_long, h, product_toNat]

lemma total_rep : Replicated (twopcReveal total_mul) ∧
    twopcReveal total_mul player0+twopcReveal total_mul player2 = x.zeroExtend 64*y.zeroExtend 64 := by
  refine ⟨⟨add_comm _ _,add_comm _ _⟩,?_⟩
  rw [← h]
  simp only [twopcReveal, twopcRecv, twopc, open4]
  ring

lemma low_open : let low := fun p => (twopcReveal total_mul p).setWidth 32
    Replicated low ∧ openRep low = x*y := by
  intro low
  obtain ⟨hrep, hsum⟩ := total_rep h
  refine ⟨⟨congrArg (BitVec.setWidth 32) hrep.1,congrArg (BitVec.setWidth 32) hrep.2⟩,?_⟩
  simp only [low, openRep]
  rw [← BitVec.setWidth_add _ _ (by norm_num), hsum, BitVec.setWidth_mul _ _ (by norm_num)]
  simp

/-- The high word takes the carry of the two low words. -/
lemma high_open {ms_bit : Party → Word} (hb : Replicated ms_bit ∧ openRep ms_bit =
      gateBit msb33 (gateSum (fun p => ((twopcReveal total_mul p).setWidth 32).toNat) true)) :
    let high := fun p => (twopcReveal total_mul p >>> 32).setWidth 32+ms_bit p
    Replicated high ∧ openRep high = BitVec.ofNat 32 (x.toNat*y.toNat/2^32) := by
  intro high
  obtain ⟨hbrep, hbit⟩ := hb
  obtain ⟨hrep, hsum⟩ := total_rep h
  refine ⟨⟨?_,?_⟩,?_⟩
  · exact congrArg₂ (fun (t : BitVec 64) (b : Word) => (t >>> 32).setWidth 32+b) hrep.1 hbrep.1
  · exact congrArg₂ (fun (t : BitVec 64) (b : Word) => (t >>> 32).setWidth 32+b) hrep.2 hbrep.2
  · have hhigh := high_add (twopcReveal total_mul player0) (twopcReveal total_mul player2)
    have h0 := ((twopcReveal total_mul player0).setWidth 32).isLt
    have h2 := ((twopcReveal total_mul player2).setWidth 32).isLt
    simp only [gateBit, msb33, gateSum, if_true] at hbit
    rw [Nat.mod_eq_of_lt (by omega)] at hbit
    have hshift : ((x.zeroExtend 64*y.zeroExtend 64) >>> 32).setWidth 32 =
        BitVec.ofNat 32 (x.toNat*y.toNat/2^32) := by
      apply BitVec.eq_of_toNat_eq
      rw [BitVec.toNat_setWidth, BitVec.toNat_ushiftRight, product_toNat,
        Nat.shiftRight_eq_div_pow, BitVec.toNat_ofNat]
    rw [hsum, ← hbit] at hhigh
    rw [← hshift, ← hhigh]
    simp only [high, openRep]
    ring

end halves

lemma total_mul_open : open4 (fun p => mulR64 d R p*mulA64 d A p) =
    (open4 R).zeroExtend 64*(open4 A).zeroExtend 64 :=
  open4_mul_diag (lift_twopc (gate2Reduce_open _ _) (gate2Reduce_open _ _))
    (lift_diag (gate2Diag_open _ _) (gate2Diag_open _ _))

/-- `Mul` computes both halves of the product and whether the high half is non-zero. -/
theorem mulOp_open :
    (Replicated (mulOp d R A).low ∧ openRep (mulOp d R A).low = open4 R*open4 A) ∧
    (Replicated (mulOp d R A).high ∧ openRep (mulOp d R A).high =
      BitVec.ofNat 32 ((open4 R).toNat*(open4 A).toNat/2^32)) ∧
    (Replicated (mulOp d R A).flag ∧ openRep (mulOp d R A).flag =
      if 2^32 ≤ (open4 R).toNat*(open4 A).toNat then 1 else 0) := by
  have htotal := total_mul_open (d := d) (R := R) (A := A)
  obtain ⟨hfrep, hflag⟩ := gate2Reduce_open (g := ic32) (d := d.gt_fp)
    (fun p => (mulR64 d R p*mulA64 d A p).toNat) false
  refine ⟨low_open htotal,high_open htotal (gate2Reduce_open _ true),hfrep,hflag.trans ?_⟩
  simp only [gateBit, ic32, total_sum htotal]

end mulSpec

/-! ## Products of shares -/

/-- `1-flag` for replicated shares. -/
def notFlag (flag : Party → Word) (p : Party) : Word := if p.isFirst then 1-flag p else -flag p

/-- `1-A` for shares on the diagonals, and for a selector shared by each pair. -/
def notEven (A : Party → Word) (p : Party) : Word := if p.isEven then 1-A p else -A p

/-- Each pair of parties shares `b`. -/
def PairShared (beta : Party → Word) (b : Word) : Prop :=
  beta player0+beta player1 = b ∧ beta player2+beta player3 = b

lemma notFlag_spec {flag : Party → Word} (h : Replicated flag) :
    Replicated (notFlag flag) ∧ openRep (notFlag flag) = 1-openRep flag := by
  obtain ⟨h0, h2⟩ := h
  simp only [Replicated, notFlag, isFirst, if_true, Bool.false_eq_true, if_false, h0, h2, openRep]
  exact ⟨⟨trivial,trivial⟩,by ring⟩

lemma sub_rep {y z : Party → Word} (hy : Replicated y) (hz : Replicated z) :
    Replicated fun p => y p-z p := ⟨congrArg₂ _ hy.1 hz.1,congrArg₂ _ hy.2 hz.2⟩

/-- The negated borrow is the order, and taking an equality flag off leaves the strict order exactly
where that flag is right. -/
lemma notFlag_order {borrow : Party → Word} {R A : Word} (h : Replicated borrow)
    (hopen : openRep borrow = if R.toNat < A.toNat then 1 else 0) (eq_cmp : Party → Word) :
    openRep (notFlag borrow) = (if A.toNat ≤ R.toNat then 1 else 0) ∧
    (openRep (fun p => notFlag borrow p-eq_cmp p) = (if A.toNat < R.toNat then 1 else 0) ↔
      openRep eq_cmp = if R = A then 1 else 0) := by
  have hle : openRep (notFlag borrow) = if A.toNat ≤ R.toNat then 1 else 0 := by
    rw [(notFlag_spec h).2, hopen]
    by_cases hlt : R.toNat < A.toNat
    · rw [if_pos hlt, if_neg (by omega), sub_self]
    · rw [if_neg hlt, if_pos (by omega), sub_zero]
  have hsub : openRep (fun p => notFlag borrow p-eq_cmp p) = openRep (notFlag borrow)-openRep eq_cmp := by
    simp only [openRep]
    ring
  have hstrict : (if A.toNat < R.toNat then 1 else 0 : Word) =
      (if A.toNat ≤ R.toNat then 1 else 0)-(if R = A then 1 else 0) := by
    by_cases he : R = A
    · rw [if_pos he, he, if_pos le_rfl, if_neg (lt_irrefl _), sub_self]
    · have hne : R.toNat ≠ A.toNat := fun hn => he (BitVec.eq_of_toNat_eq hn)
      rw [if_neg he, sub_zero]
      by_cases hlt : A.toNat < R.toNat
      · rw [if_pos hlt, if_pos hlt.le]
      · rw [if_neg hlt, if_neg (by omega)]
  refine ⟨hle,?_⟩
  rw [hsub, hle, hstrict, sub_right_inj]

lemma open4_diag_mul (x : Party → Word) {y : Party → Word} (h : Replicated y) :
    open4 (fun p => diagReveal x p*y p) = open4 x*openRep y := by
  simp only [open4, openRep, diagReveal, diagRecv, diag, ← h.1, ← h.2]
  ring

lemma open4_twopc_mul (x A : Party → Word) :
    open4 (fun p => twopcReveal x p*diagReveal A p) = open4 x*open4 A := by
  simp only [open4, twopcReveal, twopcRecv, diagReveal, diagRecv, twopc, diag]
  ring

lemma open4_mul_pair {x beta : Party → Word} {b : Word} (h : Replicated x) (hb : PairShared beta b) :
    open4 (fun p => x p*beta p) = openRep x*b := by
  obtain ⟨h0, h2⟩ := h
  obtain ⟨b0, b2⟩ := hb
  simp only [open4, openRep, ← h0, ← h2]
  linear_combination x player0*b0+x player2*b2

lemma twopcReveal_rep (x : Party → Word) :
    Replicated (twopcReveal x) ∧ openRep (twopcReveal x) = open4 x := by
  refine ⟨⟨add_comm _ _,add_comm _ _⟩,?_⟩
  simp only [openRep, twopcReveal, twopcRecv, twopc, open4]
  ring

/-! ## Moves -/

/-- `Mov` of type 1. It leaves its flag slot alone. -/
def movOp (d : ZeroDraw) (A : Party → Word) : Party → Word := toReplicated d A

/-- `Mov` of type 2: `a*flag+(1-flag)*res`. -/
def cmovOp (d : ZeroDraw) (A res flag : Party → Word) : Party → Word :=
  toReplicated d fun p => diagReveal A p*flag p+notFlag flag p*diagReveal res p

lemma cmovOp_open {d : ZeroDraw} {A res flag : Party → Word} (h : Replicated flag) :
    openRep (cmovOp d A res flag) = open4 A*openRep flag+open4 res*(1-openRep flag) := by
  obtain ⟨hrep, hopen⟩ := notFlag_spec h
  have hcomm : (fun p => diagReveal A p*flag p+notFlag flag p*diagReveal res p) =
      fun p => diagReveal A p*flag p+diagReveal res p*notFlag flag p := by
    funext p
    rw [mul_comm (notFlag flag p)]
  rw [cmovOp, toReplicated_open, hcomm, open4_add, open4_diag_mul A h, open4_diag_mul res hrep,
    hopen]

/-! ## Memory -/

def loadOp (d : ZeroDraw) (N : DataLen) (f : Fss) (tr : Party → FssTriple)
    (mem : Party → ℕ → Word) (A : Party → Word) : Party → Word :=
  toReplicated d (negOdd (read N f tr mem A false (· * ·) (· + ·)))

/-- What `Store` leaves: the replicated register and the new memory. -/
structure StoreOut where
  res : Party → Word
  mem : Party → ℕ → Word

def storeTarget (Ri beta buffer : Party → Word) (p : Party) : Word :=
  Ri p*beta p+notEven beta p*buffer p

def storeOp (d : ZeroDraw) (N : DataLen) (f : Fss) (tr : Party → WriteTuple)
    (mem : Party → ℕ → Word) (Ri A buffer beta : Party → Word) : StoreOut :=
  let Ri' := toReplicated d Ri
  let target := storeTarget Ri' beta buffer
  ⟨Ri',write2 N f tr mem A target buffer false true (write1 N tr A target buffer)⟩

lemma storeTarget_open {Ri beta buffer : Party → Word} {b : Word} (hR : Replicated Ri)
    (hbuf : Replicated buffer) (hb : PairShared beta b) :
    open4 (storeTarget Ri beta buffer) = openRep Ri*b+openRep buffer*(1-b) := by
  have hnot : PairShared (notEven beta) (1-b) := by
    obtain ⟨b0, b2⟩ := hb
    simp only [PairShared, notEven, isEven, if_true, Bool.false_eq_true, if_false]
    exact ⟨by rw [← b0]; ring,by rw [← b2]; ring⟩
  have hcomm : storeTarget Ri beta buffer = fun p => Ri p*beta p+buffer p*notEven beta p := by
    funext p
    rw [storeTarget, mul_comm (notEven beta p)]
  rw [hcomm, open4_add, open4_mul_pair hR hb, open4_mul_pair hbuf hnot]

lemma readIndex_four {N : DataLen} (hd : N.len ∣ 2^32) (idex : Party → Word) :
    ReadIndex N idex false ((open4 idex).toNat%N.len) := Names.wraps rfl hd

lemma writeIndex_four {N : DataLen} (hd : N.len ∣ 2^32) (idex : Party → Word) :
    WriteIndex N idex false ((open4 idex).toNat%N.len) := Names.wraps rfl hd

lemma open4_read {N : DataLen} {f : Fss} {tr : Party → FssTriple} {mem : Party → ℕ → Word}
    (hd : N.len ∣ 2^32) (htr : ReadOk N f tr) (hm : ∀ j < N.len, Replicated fun p => mem p j)
    (idex : Party → Word) :
    open4 (negOdd (read N f tr mem idex false (· * ·) (· + ·))) =
      openRep fun p => mem p ((open4 idex).toNat%N.len) := by
  rw [open4_negOdd]
  exact read_word htr (readIndex_four hd idex) hm

/-- A store replaces the addressed word when `b` is set and keeps the memory otherwise. -/
theorem storeOp_open {d : ZeroDraw} {N : DataLen} {f : Fss} {tr : Party → WriteTuple}
    {mem : Party → ℕ → Word} (Ri : Party → Word) {A buffer beta : Party → Word} {b : Word}
    (hd : N.len ∣ 2^32) (htr : WriteOk N f tr) (hm : ∀ j < N.len, Replicated fun p => mem p j)
    (hbuf : Replicated buffer)
    (hold : openRep buffer = openRep fun p => mem p ((open4 A).toNat%N.len))
    (hb : PairShared beta b) {j : ℕ} (hj : j < N.len) :
    let mem' := (storeOp d N f tr mem Ri A buffer beta).mem
    Replicated (fun p => mem' p j) ∧ openRep (fun p => mem' p j) =
      openRep (fun p => mem p j)+
        if j = (open4 A).toNat%N.len then (open4 Ri-openRep fun p => mem p j)*b else 0 := by
  have htarget : Target (storeTarget (toReplicated d Ri) beta buffer) true
      (open4 Ri*b+openRep buffer*(1-b)) := by
    have h := storeTarget_open (toReplicated_rep d Ri) hbuf hb
    rw [toReplicated_open] at h
    exact h
  have hwrite := write2_open htr (writeIndex_four hd A) htarget hbuf hj (hm j hj)
  simp only [storeOp]
  refine ⟨hwrite.1,hwrite.2.trans ?_⟩
  by_cases he : j = (open4 A).toNat%N.len
  · rw [if_pos he, if_pos he, hold, ← he]
    generalize openRep (fun p => mem p j) = old
    ring
  · rw [if_neg he, if_neg he]

/-! ## Tapes -/

structure ReadOpDraw where
  conv : ZeroDraw
  tr1 : Party → FssTriple
  tr2 : Party → FssTriple

/-- What `Read` leaves: result, flag and the two read counters. -/
structure TapeOut where
  res : Party → Word
  flag : Party → Word
  rc0 : Party → Word
  rc1 : Party → Word

/-- The selector after `offline`: halved at the first pair, unchanged at the second. -/
def betaRep (beta : Party → Word) (p : Party) : Word :=
  let beta_rep := twopcReveal beta p
  if p.isFirst then beta_rep/2 else beta_rep

def readOp (d : ReadOpDraw) (N : DataLen) (f1 f2 : Fss) (tape1 tape2 : Party → ℕ → Word)
    (rc0 rc1 A beta flag0 flag1 : Party → Word) : TapeOut :=
  let x0 := negOdd (read N f1 d.tr1 tape1 rc0 false (· * ·) (· + ·))
  let x1 := negOdd (read N f2 d.tr2 tape2 rc1 false (· * ·) (· + ·))
  let tmp1 := twopcReveal fun p => x1 p-x0 p
  let A_tmp := diagReveal A
  let rc_up0 p := notEven A_tmp p*betaRep beta p
  let rc_up1 p := A_tmp p*betaRep beta p
  let flag p := notEven A_tmp p*flag0 p+A_tmp p*flag1 p
  { res := toReplicated d.conv fun p => x0 p+tmp1 p*A_tmp p
    flag := twopcReveal flag
    rc0 := fun p => rc0 p+notFlag flag0 p*diagReveal rc_up0 p
    rc1 := fun p => rc1 p+notFlag flag1 p*diagReveal rc_up1 p }

section tapes
variable {d : ReadOpDraw} {N : DataLen} {f1 f2 : Fss} {tape1 tape2 : Party → ℕ → Word}
  (rc0 rc1 A : Party → Word) {beta flag0 flag1 : Party → Word} {b : Word}

/-- The halved selector of the first pair is zero, so the second pair holds all of it. -/
lemma betaRep_eq (hb : PairShared beta b) (h01 : b = 0 ∨ b = 1) (p : Party) :
    betaRep beta p = if p.isFirst then 0 else b := by
  obtain ⟨b0, b2⟩ := hb
  have hhalf : b/2 = 0 := by rcases h01 with rfl | rfl <;> rfl
  cases p <;> simp only [betaRep, twopcReveal, twopcRecv, twopc, isFirst, if_true,
    Bool.false_eq_true, if_false]
  · rw [b0, hhalf]
  · rw [add_comm, b0, hhalf]
  · exact b2
  · rw [add_comm, b2]

lemma open4_notEven_mul {y : Party → Word} (h : Replicated y) :
    open4 (fun p => notEven (diagReveal A) p*y p) = (1-open4 A)*openRep y := by
  simp only [open4, openRep, notEven, diagReveal, diagRecv, diag, isEven, if_true,
    Bool.false_eq_true, if_false, ← h.1, ← h.2]
  ring

/-- The result selects between the tapes, the flag between the two comparisons. -/
theorem readOp_open (hd : N.len ∣ 2^32) (h1 : ReadOk N f1 d.tr1) (h2 : ReadOk N f2 d.tr2)
    (ht1 : ∀ j < N.len, Replicated fun p => tape1 p j)
    (ht2 : ∀ j < N.len, Replicated fun p => tape2 p j) (hf0 : Replicated flag0)
    (hf1 : Replicated flag1) (hb : PairShared beta b) (h01 : b = 0 ∨ b = 1) :
    let out := readOp d N f1 f2 tape1 tape2 rc0 rc1 A beta flag0 flag1
    let x0 := openRep fun p => tape1 p ((open4 rc0).toNat%N.len)
    let x1 := openRep fun p => tape2 p ((open4 rc1).toNat%N.len)
    (Replicated out.res ∧ openRep out.res = x0+open4 A*(x1-x0)) ∧
    (Replicated out.flag ∧ openRep out.flag =
      (1-open4 A)*openRep flag0+open4 A*openRep flag1) ∧
    open4 out.rc0 = open4 rc0+(1-open4 A)*(1-openRep flag0)*b ∧
    open4 out.rc1 = open4 rc1+open4 A*(1-openRep flag1)*b := by
  obtain ⟨n0, n0'⟩ := notFlag_spec hf0
  obtain ⟨n1, n1'⟩ := notFlag_spec hf1
  have e0 := open4_read hd h1 ht1 rc0
  have e1 := open4_read hd h2 ht2 rc1
  refine ⟨⟨toReplicated_rep _ _,?_⟩,⟨(twopcReveal_rep _).1,?_⟩,?_,?_⟩
  · simp only [readOp, toReplicated_open]
    rw [open4_add, open4_twopc_mul, open4_sub, e0, e1]
    ring
  · simp only [readOp]
    rw [(twopcReveal_rep _).2, open4_add, open4_notEven_mul A hf0, open4_diag_mul A hf1]
  · simp only [readOp]
    rw [open4_add]
    congr 1
    simp only [open4, betaRep_eq hb h01, diagReveal, diagRecv, diag, isFirst, notEven, isEven, if_true,
      Bool.false_eq_true, if_false, ← n0.1, ← n0.2]
    rw [← n0', openRep]
    ring
  · simp only [readOp]
    rw [open4_add]
    congr 1
    simp only [open4, betaRep_eq hb h01, diagReveal, diagRecv, diag, isFirst, if_true,
      Bool.false_eq_true, if_false, ← n1.1, ← n1.2]
    rw [← n1', openRep]
    ring

end tapes

/-! ## Jumps -/

/-- `Jump_op` of type 1. -/
def jumpOp (A pc beta : Party → Word) (p : Party) : Word :=
  beta p*twopcReveal (fun q => A q-pc q) p

/-- `Jump_op` of type 2, and of type 3 with the two factors exchanged. -/
def condJump (A pc taken other beta : Party → Word) (p : Party) : Word :=
  twopcReveal (fun q => diagReveal A q*taken q+diagReveal pc q*other q-pc q) p*beta p

def cjumpOp (A pc flag beta : Party → Word) : Party → Word :=
  condJump A pc flag (notFlag flag) beta

def cnjumpOp (A pc flag beta : Party → Word) : Party → Word :=
  condJump A pc (notFlag flag) flag beta

section jumps
variable (A pc : Party → Word) {flag beta : Party → Word} {b : Word}

lemma jumpOp_open (hb : PairShared beta b) : open4 (jumpOp A pc beta) = (open4 A-open4 pc)*b := by
  obtain ⟨hrep, hopen⟩ := twopcReveal_rep fun q => A q-pc q
  have hcomm : jumpOp A pc beta = fun p => twopcReveal (fun q => A q-pc q) p*beta p := by
    funext p
    rw [jumpOp, mul_comm]
  rw [hcomm, open4_mul_pair hrep hb, hopen, open4_sub]

lemma condJump_open {taken other : Party → Word} (ht : Replicated taken) (ho : Replicated other)
    (hb : PairShared beta b) : open4 (condJump A pc taken other beta) =
      (open4 A*openRep taken+open4 pc*openRep other-open4 pc)*b := by
  obtain ⟨hrep, hopen⟩ := twopcReveal_rep fun q =>
    diagReveal A q*taken q+diagReveal pc q*other q-pc q
  have hmul : open4 (condJump A pc taken other beta) = _ := open4_mul_pair hrep hb
  rw [hmul, hopen, open4_sub (fun q => diagReveal A q*taken q+diagReveal pc q*other q) pc, open4_add,
    open4_diag_mul A ht, open4_diag_mul pc ho]

end jumps

end OramPro
