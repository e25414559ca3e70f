import OramPro.CompareQueue
import OramPro.Operation

/-!
# Multiplication in rounds

`Mul` runs six comparisons, each on key queues of its own. The interval gate of `IC_OFF` works modulo
`2^64` without any reduction, on the queues that the other comparisons use.
-/
namespace OramPro

open Party

/-! ## The interval gate -/

/-- One element of `IC_OFF`: correct keys for both ends of the interval under a mask, and four shares of
the mask. -/
structure IcItem (f : Fss) (p q : ℕ) where
  r_in : ℕ
  keys : GateKeys
  mask : Party → BitVec 64
  r_in_lt : r_in < 2^32
  mask_sum : gateSum (fun r => (mask r).toNat) false ≡ r_in [MOD 2^64]
  low : LtCorrect f keys.lt_00 keys.lt_01 (r_in+p)
  high : LtCorrect f keys.lt_10 keys.lt_11 (r_in+q)

def icOff {f : Fss} {p q : ℕ} (items : List (IcItem f p q)) (if_reduce : Bool) (s : Party → Queues)
    (r : Party) : Queues where
  mks := (s r).mks ++ items.map fun e => ⟨e.keys.mks r,e.mask r⟩
  mhelp := (s r).mhelp ++ if if_reduce then items.map fun e => e.keys.mhelp r else []

section ic
variable {w : ℕ} (f : Fss) (q : Party → Queues) (R : Party → ℕ → BitVec w)

def ic1 (is_rep : Bool) (p : Party) (i : ℕ) : BitVec 64 :=
  let mask := (q p).mks[i]!.mask
  if is_rep && !p.isEven then mask else (R p i).zeroExtend 64+mask

def ic2 (tmp_ptr : Party → ℕ → BitVec 64) (if_reduce : Bool) (p : Party) (i : ℕ) : Word :=
  let tmp := fourpcReveal (fun r => tmp_ptr r i) p
  flagOf player1 player2 if_reduce (evalFlag f (q p).mks[i]!.key tmp)
    (evalFlag f (q p).mhelp[i]! tmp) p

end ic

/-! ## The rounds -/

/-- The access structures of the six comparisons. -/
structure MulAccess where
  msb_33 : Fss
  msb_34 : Fss
  msb_33_diag : Fss
  msb_34_diag : Fss
  msb_ans : Fss
  gt_fp : Fss
  bits_33 : msb_33.numBits = 33
  bits_34 : msb_34.numBits = 34
  bits_33_diag : msb_33_diag.numBits = 33
  bits_34_diag : msb_34_diag.numBits = 34
  bits_ans : msb_ans.numBits = 33
  bits_gt : gt_fp.numBits = 64

/-- What the aid deals out in `offline`. -/
structure MulItems (f : MulAccess) where
  msb_33 : MsbItem f.msb_33
  msb_34 : MsbItem f.msb_34
  msb_33_diag : MsbItem f.msb_33_diag
  msb_34_diag : MsbItem f.msb_34_diag
  msb_ans : MsbItem f.msb_ans
  gt_fp : IcItem f.gt_fp 0 (2^32)

/-- The queues of the six comparisons. -/
structure MulState where
  msb_33 : Party → Queues
  msb_34 : Party → Queues
  msb_33_diag : Party → Queues
  msb_34_diag : Party → Queues
  msb_ans : Party → Queues
  gt_fp : Party → Queues

def mulOffline {f : MulAccess} (e : MulItems f) : MulState where
  msb_33 := msbOff [e.msb_33] true fun _ => .new
  msb_34 := msbOff [e.msb_34] true fun _ => .new
  msb_33_diag := msbDiagOff [e.msb_33_diag] true fun _ => .new
  msb_34_diag := msbDiagOff [e.msb_34_diag] true fun _ => .new
  msb_ans := msbOff [e.msb_ans] true fun _ => .new
  gt_fp := icOff [e.gt_fp] true fun _ => .new

/-- The buffers that `round1` fills. -/
structure MulBuf where
  buf_33 : Party → ℕ → ℕ
  buf_34 : Party → ℕ → ℕ
  buf_33_diag : Party → ℕ → ℕ
  buf_34_diag : Party → ℕ → ℕ

/-- `total_mul` before it is revealed, and the buffer of the interval gate. -/
structure MulTotal where
  total_mul : Party → BitVec 64
  buf_gt : Party → ℕ → BitVec 64

/-- The two results and flags, and the buffer of the last gate. -/
structure MulRegs where
  res0 : Party → Word
  res1 : Party → Word
  flag0 : Party → Word
  flag1 : Party → Word
  buf_ans : Party → ℕ → ℕ

section rounds
variable (f : MulAccess) (s : MulState) (R A : Party → Word)

def mulRound1 : MulBuf where
  buf_33 := msb1 s.msb_33 (fun p _ => R p) 33 0 false
  buf_34 := msb1 s.msb_34 (fun p _ => R p) 34 0 false
  buf_33_diag := msb1 s.msb_33_diag (fun p _ => A p) 33 0 false
  buf_34_diag := msb1 s.msb_34_diag (fun p _ => A p) 34 0 false

def mulRound2 (b : MulBuf) : MulTotal :=
  let R64 p := twopcReveal (fun q => (R q).zeroExtend 64) p
  let A64 p := diagReveal (fun q => (A q).zeroExtend 64) p
  let mR33 p := msb2 f.msb_33 s.msb_33 33 0 b.buf_33 true p 0
  let mR34 p := msb2 f.msb_34 s.msb_34 34 0 b.buf_34 true p 0
  let mA33 p := msbDiag2 f.msb_33_diag s.msb_33_diag 33 0 b.buf_33_diag true p 0
  let mA34 p := msbDiag2 f.msb_34_diag s.msb_34_diag 34 0 b.buf_34_diag true p 0
  let total_mul p := (R64 p-(mR33 p).zeroExtend 64 <<< 32-(mR34 p).zeroExtend 64 <<< 33)
    *(A64 p-(mA33 p).zeroExtend 64 <<< 32-(mA34 p).zeroExtend 64 <<< 33)
  ⟨total_mul,ic1 s.gt_fp (fun p _ => total_mul p) false⟩

/-- `flag[1]` still holds what it held before the operation. -/
def mulRound3 (flag1 : Party → Word) (t : MulTotal) : MulRegs :=
  let total_rep := twopcReveal t.total_mul
  let res0 p := (total_rep p).setWidth 32
  { res0 := res0
    res1 := fun p => (total_rep p >>> 32).setWidth 32
    flag0 := fun p => ic2 f.gt_fp s.gt_fp t.buf_gt true p 0
    flag1 := flag1
    buf_ans := msb1 s.msb_ans (fun p _ => res0 p) 33 0 true }

def mulRoundEnd (r : MulRegs) : MulRegs :=
  let ms_bit p := msb2 f.msb_ans s.msb_ans 33 0 r.buf_ans true p 0
  { r with res1 := fun p => r.res1 p+ms_bit p, flag1 := r.flag0 }

/-- From `offline` to `roundend`. -/
def mulRun {f : MulAccess} (e : MulItems f) (R A flag1 : Party → Word) : MulRegs :=
  let s := mulOffline e
  mulRoundEnd f s (mulRound3 f s flag1 (mulRound2 f s R A (mulRound1 s R A)))

end rounds

/-! ## What the gates return -/

section ic
variable {f : Fss} {q : ℕ} {w : ℕ} (e : IcItem f 0 q) (R : Party → ℕ → BitVec w)

lemma ic1_reveal (hw : w ≤ 64) (p : Party) :
    fourpcReveal (fun r => ic1 (icOff [e] true fun _ => .new) R false r 0) p =
      BitVec.ofNat 64 ((gateSum (fun r => (R r 0).toNat) false+e.r_in)%2^64) := by
  have hshare : ∀ r, (ic1 (icOff [e] true fun _ => .new) R false r 0).toNat ≡
      (R r 0).toNat+(e.mask r).toNat [MOD 2^64] := by
    intro r
    have hR : ((R r 0).zeroExtend 64).toNat = (R r 0).toNat := BitVec.toNat_setWidth_of_le hw
    rw [← hR]
    exact toNat_add_modEq le_rfl ((R r 0).zeroExtend 64) (e.mask r)
  have hsum := gateSum_modEq hshare
  rw [gateSum_add] at hsum
  have hopen := hsum.trans (e.mask_sum.add_left _)
  apply BitVec.eq_of_toNat_eq
  rw [fourpcReveal_eq, toNat_open4_long, BitVec.toNat_ofNat, Nat.mod_mod]
  exact hopen

/-- The flags of an interval from 0 tell whether the sum has reached its end. -/
lemma ic_flags (h64 : f.numBits = 64) (hq : q ≤ 2^63) (hw : w ≤ 64) :
    Carries true (fun p => ic2 f (icOff [e] true fun _ => .new)
        (ic1 (icOff [e] true fun _ => .new) R false) true p 0)
      (if q ≤ gateSum (fun p => (R p 0).toNat) false%2^64 then 1 else 0) := by
  have hr := e.r_in_lt
  have hlt : (gateSum (fun r => (R r 0).toNat) false+e.r_in)%2^64 < 2^f.numBits := by
    rw [h64]
    exact Nat.mod_lt _ (Nat.two_pow_pos 64)
  have hlow := evalFlag_sub e.low h64.le hlt (by rw [h64]; omega)
  have hhigh := evalFlag_sub e.high h64.le hlt (by rw [h64]; omega)
  rw [Nat.add_zero] at hlow
  have hbit := mask_threshold (by omega : e.r_in < 2^64) (by omega : e.r_in+q ≤ 2^64)
    (rfl : _ = (gateSum (fun r => (R r 0).toNat) false+e.r_in)%2^64)
  rw [← hlow, ← hhigh] at hbit
  have hcarry := keys_carries hbit true
  simp only [ic2, ic1_reveal e R hw]
  exact hcarry

end ic

/-! ### The gate of a single element -/

section gate_item
variable (d : GateDraw)

lemma delta_lt : d.delta.toNat < 2^32 := d.delta.isLt

lemma low_end : (d.delta.zeroExtend 64).toNat = d.delta.toNat+0 :=
  BitVec.toNat_setWidth_of_le (by norm_num)

lemma high_end : (d.delta.zeroExtend 64+BitVec.ofNat 64 ic32.top).toNat = d.delta.toNat+2^32 := by
  have hδ := delta_lt d
  rw [BitVec.toNat_add, low_end, BitVec.toNat_ofNat]
  simp only [ic32]
  omega

lemma word_mask_sum : gateSum (fun p => (BitVec.ofNat 64 (gateMask ic32 d p)).toNat) false ≡
    d.delta.toNat [MOD 2^64] := by
  have hmod : ∀ p, (BitVec.ofNat 64 (gateMask ic32 d p)).toNat ≡ gateMask ic32 d p [MOD 2^64] :=
    fun p => BitVec.toNat_ofNat _ _ ▸ Nat.mod_modEq _ _
  exact (gateSum_modEq hmod).trans gateMask_sum

lemma ic32_pos : 0 < (gateAccess ic32 d).numBits := by
  norm_num [gateAccess, ic32]

end gate_item

/-- The interval gate of `mulOp` uses an element of `IC_OFF`. -/
def icGateItem (d : GateDraw) : IcItem (gateAccess ic32 d) 0 (2^32) where
  r_in := d.delta.toNat
  keys := gateKeys ic32 d
  mask p := BitVec.ofNat 64 (gateMask ic32 d p)
  r_in_lt := delta_lt d
  mask_sum := word_mask_sum d
  low := genLt_correct (ic32_pos d) ic32.le _ (low_end d)
  high := genLt_correct (ic32_pos d) ic32.le _ (high_end d)

lemma ic_eq_gate {w : ℕ} (d : GateDraw) (hw : w ≤ 64) (R : Party → ℕ → BitVec w) :
    let s := icOff [icGateItem d] true fun _ => .new
    (fun p => ic2 (gateAccess ic32 d) s (ic1 s R false) true p 0) =
      gate2Reduce ic32 d (gate1 ic32 d (fun r => (R r 0).toNat) false) := by
  intro s
  funext p
  simp only [s, ic2, ic1_reveal (icGateItem d) R hw]
  cases p <;> simp only [gate2Reduce, gate2, gateOpen_gate1] <;> rfl

/-! ## The product -/

section product
variable {f : MulAccess} (e : MulItems f) (R A : Party → Word)

lemma msb_bit {f : Fss} {L : ℕ} (e : MsbItem f) (hL : f.numBits = L) (h0 : 0 < L) (h64 : L ≤ 64)
    (R : Party → Word) (is_rep : Bool) :
    let s := msbOff [e] true fun _ => .new
    let m p := msb2 f s L 0 (msb1 s (fun p _ => R p) L 0 is_rep) true p 0
    Replicated m ∧ openRep m = msbBit L (gateSum (fun p => (R p).toNat) is_rep) := by
  subst hL
  have hat : e.At (msbOff [e] true fun _ => .new) (0+0) := fun _ => rfl
  have hhelp : e.HelpAt (msbOff [e] true fun _ => .new) (0+0) := fun _ => rfl
  have hflags := rounds_flags (R := fun p _ => R p) e h64 (by norm_num) hat
    (fun (_ : true = true) => hhelp) is_rep
  have hcarry := flagsOf_carries e (S := gateSum (fun p => (R p).toNat) is_rep) h0 h64 true
  rw [← hflags] at hcarry
  exact hcarry

lemma msbDiag_bit {f : Fss} {L : ℕ} (e : MsbItem f) (hL : f.numBits = L) (h0 : 0 < L) (h64 : L ≤ 64)
    (R : Party → Word) :
    let s := msbDiagOff [e] true fun _ => .new
    Diagonal (fun p => msbDiag2 f s L 0 (msb1 s (fun p _ => R p) L 0 false) true p 0)
      (msbBit L (gateSum (fun p => (R p).toNat) false)) := by
  subst hL
  have hat : e.DiagAt (msbDiagOff [e] true fun _ => .new) (0+0) := fun _ => ⟨rfl,rfl⟩
  have hflags := roundsDiag_flags (R := fun p _ => R p) e h64 (by norm_num) hat false
  have hcarry := flagsDiag_carries e (S := gateSum (fun p => (R p).toNat) false) h0 h64
  rw [← hflags] at hcarry
  exact hcarry

/-- What the parties reveal at the end of `round2`. -/
def mulTotal : Party → BitVec 64 :=
  (mulRound2 f (mulOffline e) R A (mulRound1 (mulOffline e) R A)).total_mul

lemma mulTotal_open : open4 (mulTotal e R A) = (open4 R).zeroExtend 64*(open4 A).zeroExtend 64 := by
  have h33 := msb_bit e.msb_33 f.bits_33 (by norm_num) (by norm_num) R false
  have h34 := msb_bit e.msb_34 f.bits_34 (by norm_num) (by norm_num) R false
  have d33 := msbDiag_bit e.msb_33_diag f.bits_33_diag (by norm_num) (by norm_num) A
  have d34 := msbDiag_bit e.msb_34_diag f.bits_34_diag (by norm_num) (by norm_num) A
  exact open4_mul_diag (lift_twopc h33 h34) (lift_diag d33 d34)

end product

/-- The rounds of `Mul` leave replicated words of the product and a replicated flag that tells whether
its high word is zero. -/
theorem mul_exact {f : MulAccess} (e : MulItems f) (R A flag1 : Party → Word) :
    let out := mulRun e R A flag1
    (Replicated out.res0 ∧ openRep out.res0 = BitVec.ofNat 32 ((open4 R).toNat*(open4 A).toNat)) ∧
    (Replicated out.res1 ∧
      openRep out.res1 = BitVec.ofNat 32 ((open4 R).toNat*(open4 A).toNat/2^32)) ∧
    out.flag0 = out.flag1 ∧ Replicated out.flag0 ∧
      openRep out.flag0 = if 2^32 ≤ (open4 R).toNat*(open4 A).toNat then 1 else 0 := by
  intro out
  have htotal := mulTotal_open e R A
  obtain ⟨hlrep, hlow⟩ := low_open htotal
  have hflag := ic_flags e.gt_fp (fun p _ => mulTotal e R A p) f.bits_gt (by norm_num) le_rfl
  simp only [total_sum htotal] at hflag
  refine ⟨⟨hlrep,hlow.trans ?_⟩,high_open htotal (msb_bit e.msb_ans f.bits_ans (by norm_num)
    (by norm_num) _ true),rfl,hflag⟩
  rw [BitVec.ofNat_mul, BitVec.ofNat_toNat, BitVec.ofNat_toNat, BitVec.setWidth_eq, BitVec.setWidth_eq]

/-! ## The operation of the machine -/

def mulAccess (d : MulDraw) : MulAccess :=
  ⟨gateAccess msb33 d.msb_33,gateAccess msb34 d.msb_34,gateAccess msb33 d.msb_33_diag,
    gateAccess msb34 d.msb_34_diag,gateAccess msb33 d.msb_ans,gateAccess ic32 d.gt_fp,
    rfl,rfl,rfl,rfl,rfl,rfl⟩

def mulGates (d : MulDraw) : MulItems (mulAccess d) where
  msb_33 := gateItem d.msb_33 rfl
  msb_34 := gateItem d.msb_34 rfl
  msb_33_diag := gateItem d.msb_33_diag rfl
  msb_34_diag := gateItem d.msb_34_diag rfl
  msb_ans := gateItem d.msb_ans rfl
  gt_fp := icGateItem d.gt_fp

lemma gate_round {g : Gate} (d : GateDraw) (htop : g.top = 2^(g.L-1)) (R : Party → Word)
    (is_rep : Bool) : let s := msbOff [gateItem d htop] true fun _ => .new
    (fun p => msb2 (gateAccess g d) s g.L 0 (msb1 s (fun p _ => R p) g.L 0 is_rep) true p 0) =
      gate2Reduce g d (gate1 g d (fun r => (R r).toNat) is_rep) := by
  have hat : (gateItem d htop).At (msbOff [gateItem d htop] true fun _ => .new) (0+0) := fun _ => rfl
  have hhelp : (gateItem d htop).HelpAt (msbOff [gateItem d htop] true fun _ => .new) (0+0) :=
    fun _ => rfl
  exact roundsReduce_eq_gate (R := fun p _ => R p) d htop (by norm_num) hat hhelp is_rep

lemma gateDiag_round {g : Gate} (d : GateDraw) (htop : g.top = 2^(g.L-1)) (R : Party → Word) :
    let s := msbDiagOff [gateItem d htop] true fun _ => .new
    (fun p => msbDiag2 (gateAccess g d) s g.L 0 (msb1 s (fun p _ => R p) g.L 0 false) true p 0) =
      gate2Diag g d (gate1 g d (fun r => (R r).toNat) false) := by
  have hat : (gateItem d htop).DiagAt (msbDiagOff [gateItem d htop] true fun _ => .new) (0+0) :=
    fun _ => ⟨rfl,rfl⟩
  exact roundsDiag_eq_gate (R := fun p _ => R p) d htop (by norm_num) hat false

/-- The bit that `roundend` adds to the high words. -/
def msbAns {f : MulAccess} (e : MulItems f) (low : Party → Word) (p : Party) : Word :=
  let s := (mulOffline e).msb_ans
  msb2 f.msb_ans s 33 0 (msb1 s (fun p _ => low p) 33 0 true) true p 0

/-- On the gates of the machine the rounds compute what its operation does. -/
theorem mulRun_eq_op (d : MulDraw) (R A flag1 : Party → Word) :
    let out := mulRun (mulGates d) R A flag1
    out.res0 = (mulOp d R A).low ∧ out.res1 = (mulOp d R A).high ∧ out.flag0 = (mulOp d R A).flag ∧
      out.flag1 = (mulOp d R A).flag := by
  intro out
  have htotal : mulTotal (mulGates d) R A = fun p => mulR64 d R p*mulA64 d A p := by
    funext p
    have h33 := congrFun (gate_round (g := msb33) d.msb_33 rfl R false) p
    have h34 := congrFun (gate_round (g := msb34) d.msb_34 rfl R false) p
    have d33 := congrFun (gateDiag_round (g := msb33) d.msb_33_diag rfl A) p
    have d34 := congrFun (gateDiag_round (g := msb34) d.msb_34_diag rfl A) p
    simp only [mulR64, mulA64]
    rw [← h33, ← h34, ← d33, ← d34]
    rfl
  have hlow : out.res0 = (mulOp d R A).low := by
    funext p
    exact congrArg (fun t => (twopcReveal t p).setWidth 32) htotal
  have hans := gate_round (g := msb33) d.msb_ans rfl (mulOp d R A).low true
  have hhigh : out.res1 = (mulOp d R A).high := by
    funext p
    have hres : out.res1 p = (twopcReveal (mulTotal (mulGates d) R A) p >>> 32).setWidth 32
        +msbAns (mulGates d) out.res0 p := rfl
    have hbit : msbAns (mulGates d) (mulOp d R A).low p = _ := congrFun hans p
    rw [hres, hlow, hbit, htotal]
    rfl
  have hflag : out.flag0 = (mulOp d R A).flag := by
    have hic := ic_eq_gate d.gt_fp (w := 64) le_rfl fun p _ => mulTotal (mulGates d) R A p
    refine hic.trans ?_
    simp only [htotal]
    rfl
  exact ⟨hlow,hhigh,hflag,hflag⟩

end OramPro
