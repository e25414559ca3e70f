import OramPro.Compare

/-!
# The key queues of the comparisons

Every party of a `Compare` keeps a vector `mks` of less-than keys, each with its share of the mask,
and a vector `mhelp` of second keys. `msb` takes its keys from the front of both and drops them from
`mks`; its split rounds read behind `bias` and drop nothing. An array is a function of its index, of
which the entries below `len` count.
-/
namespace OramPro

open Party

/-- `msb_tuple` -/
structure MsbTuple where
  key : ServerKeyLt
  mask : BitVec 64

deriving instance Inhabited for CWEq, TreeKey, ServerKeyLt, MsbTuple

/-- What one party has received in the offline phase. -/
structure Queues where
  mks : List MsbTuple
  mhelp : List ServerKeyLt

def Queues.new : Queues := ⟨[],[]⟩

/-- The queues without their first `bias` elements. -/
def Queues.skip (bias : ℕ) (q : Queues) : Queues := ⟨q.mks.drop bias,q.mhelp.drop bias⟩

/-! ## The offline phase -/

/-- Two keys whose values differ by one below `thr` and agree from there on. -/
def LtCorrect (f : Fss) (k0 k1 : ServerKeyLt) (thr : ℕ) : Prop :=
  ∀ x : BitVec 64, evaluateLt f k0 x-evaluateLt f k1 x =
    if x.toNat%2^f.numBits < thr%2^f.numBits then 1 else 0

/-- One element of `msb_off`: correct keys for a mask and for the mask plus half of the modulus, and
four shares of the mask. -/
structure MsbItem (f : Fss) where
  delta : ℕ
  keys : GateKeys
  mask : Party → BitVec 64
  delta_lt : delta < 2^(f.numBits-1)
  mask_sum : gateSum (fun p => (mask p).toNat) false ≡ delta [MOD 2^f.numBits]
  low : LtCorrect f keys.lt_00 keys.lt_01 delta
  high : LtCorrect f keys.lt_10 keys.lt_11 (delta+2^(f.numBits-1))

section offline
variable {f : Fss} (items : List (MsbItem f)) (if_reduce : Bool) (q : Party → Queues) (p : Party)

def msbOff : Queues where
  mks := (q p).mks ++ items.map fun e => ⟨e.keys.mks p,e.mask p⟩
  mhelp := (q p).mhelp ++ if if_reduce then items.map fun e => e.keys.mhelp p else []

def msbDiagOff : Queues where
  mks := (q p).mks ++ items.map fun e => ⟨e.keys.mksDiag p,e.mask p⟩
  mhelp := (q p).mhelp ++ if if_reduce then items.map fun e => e.keys.mhelpDiag p else []

end offline

/-! ## The online phase -/

section online
variable {w : ℕ} (f : Fss) (q : Party → Queues) (R : Party → ℕ → BitVec w) (msb_len bias : ℕ)

def evalFlag (k : ServerKeyLt) (x : BitVec 64) : Word := (evaluateLt f k x).setWidth 32

/-- What a party learns from the masked shares of one element. -/
def msbReveal (tmp : Party → ℕ) (p : Party) : BitVec 64 :=
  BitVec.ofNat 64 (fourpcRecvBy (fun a b => (a+b)%2^msb_len) tmp tmp p)

/-- `flags[i]` from the values of the two keys. With `if_reduce` the party `pc` takes its second
value from one and the party `pn` negates it. -/
def flagOf (pc pn : Party) (if_reduce : Bool) (e temp : Word) (p : Party) : Word :=
  let flag := match p with
    | player0 => 1-e
    | player3 => -e
    | _ => e
  if if_reduce then flag+(if p = pc then 1-temp else if p = pn then -temp else temp) else flag

/-- `msb`: the flags, and the queues afterwards. -/
def msb (len : ℕ) (if_reduce : Bool) : (Party → ℕ → Word) × (Party → Queues) :=
  let R_plus p i := ((R p i).zeroExtend 64+(q p).mks[i]!.mask).toNat%2^msb_len
  let tmp p i := msbReveal msb_len (fun r => R_plus r i) p
  (fun p i => flagOf player1 player2 if_reduce (evalFlag f (q p).mks[i]!.key (tmp p i))
    (evalFlag f (q p).mhelp[i]! (tmp p i)) p,
   fun p => { q p with mks := (q p).mks.drop len })

/-- `msb_1`: with `is_rep` the odd parties send their mask share alone. -/
def msb1 (is_rep : Bool) (p : Party) (i : ℕ) : ℕ :=
  let mask := (q p).mks[bias+i]!.mask
  if is_rep && !p.isEven then mask.toNat%2^msb_len
  else ((R p i).zeroExtend 64+mask).toNat%2^msb_len

def msb2 (tmp_ptr : Party → ℕ → ℕ) (if_reduce : Bool) (p : Party) (i : ℕ) : Word :=
  let tmp := msbReveal msb_len (fun r => tmp_ptr r i) p
  flagOf player1 player2 if_reduce (evalFlag f (q p).mks[bias+i]!.key tmp)
    (evalFlag f (q p).mhelp[bias+i]! tmp) p

def msbDiag2 (tmp_ptr : Party → ℕ → ℕ) (if_reduce : Bool) (p : Party) (i : ℕ) : Word :=
  let tmp := msbReveal msb_len (fun r => tmp_ptr r i) p
  flagOf player2 player1 if_reduce (evalFlag f (q p).mks[bias+i]!.key tmp)
    (evalFlag f (q p).mhelp[bias+i]! tmp) p

end online

/-! ## One element -/

/-- The bit above the lower half of the modulus. -/
def msbBit (L S : ℕ) : Word := if 2^(L-1) ≤ S%2^L then 1 else 0

lemma mask_bit {L δ S x : ℕ} (h0 : 0 < L) (hδ : δ < 2^(L-1)) (hx : x = (S+δ)%2^L) :
    (if x < δ then 1 else 0)+1-(if x < δ+2^(L-1) then 1 else 0) = msbBit L S := by
  have hpow : 2^L = 2*2^(L-1) := by
    rw [← pow_succ', Nat.sub_add_cancel h0]
  exact mask_threshold (by omega) (by omega) hx

section item
variable {f : Fss} (e : MsbItem f)

lemma evalFlag_sub {k0 k1 : ServerKeyLt} {thr x : ℕ} (h : LtCorrect f k0 k1 thr)
    (h64 : f.numBits ≤ 64) (hx : x < 2^f.numBits) (ht : thr < 2^f.numBits) :
    evalFlag f k0 (BitVec.ofNat 64 x)-evalFlag f k1 (BitVec.ofNat 64 x) =
      if x < thr then 1 else 0 := by
  have hle := Nat.pow_le_pow_right (n := 2) (by norm_num) h64
  have hk := h (BitVec.ofNat 64 x)
  rw [BitVec.toNat_ofNat, Nat.mod_eq_of_lt (by omega : x < 2^64), Nat.mod_eq_of_lt hx,
    Nat.mod_eq_of_lt ht] at hk
  have hcut : ∀ u v : BitVec 64, u.setWidth 32-v.setWidth 32 = (u-v).setWidth 32 := by
    intro u v
    bv_omega
  rw [evalFlag, evalFlag, hcut, hk]
  split <;> rfl

/-- The four values at the opened sum combine to the bit. -/
lemma MsbItem.bit (h0 : 0 < f.numBits) (h64 : f.numBits ≤ 64) {S x : ℕ}
    (hx : x = (S+e.delta)%2^f.numBits) :
    evalFlag f e.keys.lt_00 (BitVec.ofNat 64 x)-evalFlag f e.keys.lt_01 (BitVec.ofNat 64 x)+1
      -(evalFlag f e.keys.lt_10 (BitVec.ofNat 64 x)-evalFlag f e.keys.lt_11 (BitVec.ofNat 64 x)) =
      msbBit f.numBits S := by
  have hδ := e.delta_lt
  have hpow : 2^f.numBits = 2*2^(f.numBits-1) := by
    rw [← pow_succ', Nat.sub_add_cancel h0]
  have hxlt : x < 2^f.numBits := hx ▸ Nat.mod_lt _ (Nat.two_pow_pos _)
  rw [evalFlag_sub e.low h64 hxlt (by omega), evalFlag_sub e.high h64 hxlt (by omega)]
  exact mask_bit h0 hδ hx

/-- The flags carry a bit: as four shares, or replicated with `if_reduce`. -/
def Carries (if_reduce : Bool) (flags : Party → Word) (b : Word) : Prop :=
  if if_reduce then Replicated flags ∧ openRep flags = b else open4 flags = b

/-- The parties of a diagonal hold the same share of a bit. -/
def CarriesDiag (flags : Party → Word) (b : Word) : Prop :=
  flags player0 = flags player2 ∧ flags player1 = flags player3 ∧ flags player0+flags player1 = b

/-- The flags at an opened value, with the first keys of `e` and the second keys of `e'`. -/
def flagsOf (e e' : MsbItem f) (x : BitVec 64) (if_reduce : Bool) (p : Party) : Word :=
  flagOf player1 player2 if_reduce (evalFlag f (e.keys.mks p) x) (evalFlag f (e'.keys.mhelp p) x) p

def flagsDiag (x : BitVec 64) (p : Party) : Word :=
  flagOf player2 player1 true (evalFlag f (e.keys.mksDiag p) x) (evalFlag f (e.keys.mhelpDiag p) x) p

/-- Where the four values combine to a bit, the flags of the parties carry it. -/
lemma keys_carries {f : Fss} {k : GateKeys} {x : BitVec 64} {b : Word}
    (h : evalFlag f k.lt_00 x-evalFlag f k.lt_01 x+1-(evalFlag f k.lt_10 x-evalFlag f k.lt_11 x) = b)
    (if_reduce : Bool) : Carries if_reduce (fun p => flagOf player1 player2 if_reduce
      (evalFlag f (k.mks p) x) (evalFlag f (k.mhelp p) x) p) b := by
  subst h
  cases if_reduce
  · rw [Carries, if_neg Bool.false_ne_true]
    simp only [open4, flagOf, Bool.false_eq_true, if_false, GateKeys.mks]
    ring
  · rw [Carries, if_pos rfl]
    simp only [Replicated, openRep, flagOf, if_true, GateKeys.mks, GateKeys.mhelp,
      reduceCtorEq, if_false]
    refine ⟨⟨?_,?_⟩,?_⟩ <;> ring

section flags
variable {S : ℕ} (h0 : 0 < f.numBits) (h64 : f.numBits ≤ 64)
include h0 h64

lemma flagsOf_carries (if_reduce : Bool) :
    Carries if_reduce (flagsOf e e (BitVec.ofNat 64 ((S+e.delta)%2^f.numBits)) if_reduce)
      (msbBit f.numBits S) := keys_carries (e.bit h0 h64 rfl) if_reduce

lemma flagsDiag_carries :
    CarriesDiag (flagsDiag e (BitVec.ofNat 64 ((S+e.delta)%2^f.numBits))) (msbBit f.numBits S) := by
  have h := e.bit h0 h64 (S := S) rfl
  rw [CarriesDiag, ← h]
  simp only [flagsDiag, flagOf, if_true, GateKeys.mksDiag, GateKeys.mhelpDiag, reduceCtorEq, if_false]
  refine ⟨?_,?_,?_⟩ <;> ring

end flags

/-! ## The opened value -/

variable {w : ℕ} {q : Party → Queues} {R : Party → ℕ → BitVec w} {bias i : ℕ}

/-- Position `j` of `mks` holds the first keys of `e` and the shares of its mask. -/
def MsbItem.At (q : Party → Queues) (j : ℕ) : Prop :=
  ∀ p, (q p).mks[j]! = ⟨e.keys.mks p,e.mask p⟩

def MsbItem.HelpAt (q : Party → Queues) (j : ℕ) : Prop := ∀ p, (q p).mhelp[j]! = e.keys.mhelp p

def MsbItem.DiagAt (q : Party → Queues) (j : ℕ) : Prop :=
  ∀ p, (q p).mks[j]! = ⟨e.keys.mksDiag p,e.mask p⟩ ∧ (q p).mhelp[j]! = e.keys.mhelpDiag p

lemma toNat_add_modEq {L : ℕ} (h : L ≤ 64) (a b : BitVec 64) :
    (a+b).toNat ≡ a.toNat+b.toNat [MOD 2^L] := by
  rw [BitVec.toNat_add]
  exact (Nat.mod_modEq _ _).of_dvd (pow_dvd_pow 2 h)

/-- The shares that take part: with `is_rep` those of the even parties. -/
lemma gateSum_even (u : Party → ℕ) (is_rep : Bool) :
    gateSum (fun p => if is_rep && !p.isEven then 0 else u p) false = gateSum u is_rep := by
  cases is_rep <;> simp [gateSum, isEven]

lemma msb1_reveal (hm : ∀ p, (q p).mks[bias+i]!.mask = e.mask p) (h64 : f.numBits ≤ 64) (hw : w ≤ 64) (is_rep : Bool)
    (p : Party) : msbReveal f.numBits (fun r => msb1 q R f.numBits bias is_rep r i) p =
      BitVec.ofNat 64 ((gateSum (fun r => (R r i).toNat) is_rep+e.delta)%2^f.numBits) := by
  rw [msbReveal, fourpcRecvBy_mod]
  congr 1
  have hshare : ∀ r, msb1 q R f.numBits bias is_rep r i ≡
      (if is_rep && !r.isEven then 0 else (R r i).toNat)+(e.mask r).toNat [MOD 2^f.numBits] := by
    intro r
    rw [msb1, hm r]
    have hR : ((R r i).zeroExtend 64).toNat = (R r i).toNat := BitVec.toNat_setWidth_of_le hw
    split
    · rw [Nat.zero_add]
      exact Nat.mod_modEq _ _
    · rw [← hR]
      exact (Nat.mod_modEq _ _).trans (toNat_add_modEq h64 _ _)
  have hsum := gateSum_modEq hshare
  rw [gateSum_add, gateSum_even] at hsum
  exact hsum.trans (e.mask_sum.add_left _)

section rounds
variable (h64 : f.numBits ≤ 64) (hw : w ≤ 64)
include h64 hw

/-- The two rounds of the split version evaluate the keys at the masked sum. -/
lemma rounds_flags {e' : MsbItem f} {if_reduce : Bool} (h : e.At q (bias+i))
    (hh : if_reduce = true → e'.HelpAt q (bias+i)) (is_rep : Bool) :
    (fun p => msb2 f q f.numBits bias (msb1 q R f.numBits bias is_rep) if_reduce p i) =
      flagsOf e e' (BitVec.ofNat 64 ((gateSum (fun r => (R r i).toNat) is_rep+e.delta)%2^f.numBits))
        if_reduce := by
  have hx := msb1_reveal e (R := R) (fun p => congrArg MsbTuple.mask (h p)) h64 hw is_rep
  funext p
  cases if_reduce
  · rw [msb2, hx, h p]
    rfl
  · rw [msb2, hx, h p, hh rfl p]
    rfl

lemma roundsDiag_flags (h : e.DiagAt q (bias+i)) (is_rep : Bool) :
    (fun p => msbDiag2 f q f.numBits bias (msb1 q R f.numBits bias is_rep) true p i) =
      flagsDiag e (BitVec.ofNat 64
        ((gateSum (fun r => (R r i).toNat) is_rep+e.delta)%2^f.numBits)) := by
  have hx := msb1_reveal e (R := R) (fun p => congrArg MsbTuple.mask (h p).1) h64 hw is_rep
  funext p
  rw [msbDiag2, hx, (h p).1, (h p).2]
  rfl

end rounds

end item

/-! ## The elements that the aid deals out -/

/-- The random values of one turn of the loop in `msb_off`; `rand()` yields 31 bits. -/
structure MsbDraw where
  delta : BitVec 64
  delta_lt : delta.toNat < 2^31
  key0 : LtDraw
  key1 : LtDraw
  d0 : BitVec 64
  d1 : BitVec 64
  d2 : BitVec 64

/-- The subtraction of `fourpc_share` in `msb_off`. -/
def maskCb (msb_len : ℕ) (a b : BitVec 64) : BitVec 64 :=
  BitVec.ofNat 64 ((a+BitVec.ofNat 64 (2^msb_len)-b).toNat%2^msb_len)

def maskShares (msb_len : ℕ) (d : MsbDraw) : Party → BitVec 64
  | player0 => maskCb msb_len (maskCb msb_len (maskCb msb_len d.delta d.d0) d.d1) d.d2
  | player1 => d.d0
  | player2 => d.d1
  | player3 => d.d2

lemma maskCb_add {L : ℕ} (h : L ≤ 64) (a b : BitVec 64) :
    (maskCb L a b).toNat+b.toNat ≡ a.toNat [MOD 2^L] := by
  have hpow : 2^L ≤ 2^64 := Nat.pow_le_pow_right (by norm_num) h
  have hlt := Nat.mod_lt (a+BitVec.ofNat 64 (2^L)-b).toNat (Nat.two_pow_pos L)
  have hcut : (maskCb L a b).toNat = (a+BitVec.ofNat 64 (2^L)-b).toNat%2^L := by
    rw [maskCb, BitVec.toNat_ofNat, Nat.mod_eq_of_lt (by omega)]
  have hback : a+BitVec.ofNat 64 (2^L)-b+b = a+BitVec.ofNat 64 (2^L) := sub_add_cancel _ _
  have hsum := (toNat_add_modEq h (a+BitVec.ofNat 64 (2^L)-b) b).symm
  rw [hback] at hsum
  have htop : (BitVec.ofNat 64 (2^L)).toNat ≡ 0 [MOD 2^L] := by
    rw [BitVec.toNat_ofNat]
    exact ((Nat.mod_modEq _ _).of_dvd (pow_dvd_pow 2 h)).trans (by simp [Nat.ModEq])
  rw [hcut]
  refine ((Nat.mod_modEq _ _).add_right _).trans (hsum.trans ((toNat_add_modEq h _ _).trans ?_))
  simpa using htop.add_left a.toNat

lemma maskShares_sum {L : ℕ} (h : L ≤ 64) (d : MsbDraw) :
    gateSum (fun p => (maskShares L d p).toNat) false ≡ d.delta.toNat [MOD 2^L] := by
  have e2 := maskCb_add h (maskCb L (maskCb L d.delta d.d0) d.d1) d.d2
  have e1 := maskCb_add h (maskCb L d.delta d.d0) d.d1
  have e0 := maskCb_add h d.delta d.d0
  have h210 := (((e2.add_right d.d1.toNat).trans e1).add_right d.d0.toNat).trans e0
  simp only [gateSum, Bool.false_eq_true, if_false, maskShares]
  convert h210 using 1
  ring

lemma genLt_correct {f : Fss} (h0 : 0 < f.numBits) (h64 : f.numBits ≤ 64) {a : BitVec 64} (k : LtDraw)
    {thr : ℕ} (ha : a.toNat = thr) : LtCorrect f (genLt f a k).1 (genLt f a k).2 thr := by
  subst ha
  exact fun x => evaluateLt_sub h0 h64 x

/-- The keys and shares that `msb_off` sends. -/
def msbItem (f : Fss) (h32 : 32 ≤ f.numBits) (h63 : f.numBits ≤ 63) (d : MsbDraw) : MsbItem f :=
  have hpow : 2^31 ≤ 2^(f.numBits-1) := Nat.pow_le_pow_right (by norm_num) (by omega)
  have hle : 2^(f.numBits-1) ≤ 2^62 := Nat.pow_le_pow_right (by norm_num) (by omega)
  have hd := d.delta_lt
  have hhigh : (d.delta+BitVec.ofNat 64 (2^(f.numBits-1))).toNat = d.delta.toNat+2^(f.numBits-1) := by
    rw [BitVec.toNat_add, BitVec.toNat_ofNat]
    omega
  let k0 := genLt f d.delta d.key0
  let k1 := genLt f (d.delta+BitVec.ofNat 64 (2^(f.numBits-1))) d.key1
  { delta := d.delta.toNat
    keys := ⟨k0.1,k0.2,k1.1,k1.2⟩
    mask := maskShares f.numBits d
    delta_lt := hd.trans_le hpow
    mask_sum := maskShares_sum (by omega) d
    low := genLt_correct (by omega) (by omega) _ rfl
    high := genLt_correct (by omega) (by omega) _ hhigh }

/-! ## The gates of a single element -/

section gate
variable {g : Gate} (d : GateDraw) (htop : g.top = 2^(g.L-1))
include htop

lemma gate_pos : 0 < g.L := by
  by_contra h0
  have hroom := g.room
  rw [show g.L = 0 by omega] at hroom
  omega

/-- A gate whose threshold is half of its modulus uses an element of `msb_off`. -/
def gateItem : MsbItem (gateAccess g d) :=
  have hroom := g.room
  have hδ := d.delta.isLt
  have hle : 2^g.L ≤ 2^64 := Nat.pow_le_pow_right (by norm_num) g.le
  have hpow : 2^g.L = 2*2^(g.L-1) := by
    rw [← pow_succ', Nat.sub_add_cancel (gate_pos htop)]
  have h0 : (d.delta.zeroExtend 64).toNat = d.delta.toNat :=
    BitVec.toNat_setWidth_of_le (by norm_num)
  have h1 : (d.delta.zeroExtend 64+BitVec.ofNat 64 g.top).toNat = d.delta.toNat+2^(g.L-1) := by
    rw [BitVec.toNat_add, h0, BitVec.toNat_ofNat]
    omega
  have hmask : ∀ p, (BitVec.ofNat 64 (gateMask g d p)).toNat = gateMask g d p := by
    intro p
    rw [BitVec.toNat_ofNat, Nat.mod_eq_of_lt]
    have hlt := fun a => Nat.mod_lt a (Nat.two_pow_pos g.L)
    cases p
    · exact (hlt _).trans_le hle
    · exact d.d0.isLt.trans (by norm_num)
    · exact d.d1.isLt.trans (by norm_num)
    · exact d.d2.isLt.trans (by norm_num)
  { delta := d.delta.toNat
    keys := gateKeys g d
    mask p := BitVec.ofNat 64 (gateMask g d p)
    delta_lt := by
      show d.delta.toNat < 2^(g.L-1)
      omega
    mask_sum := by
      simp only [hmask]
      exact gateMask_sum
    low := genLt_correct (gate_pos htop) g.le _ h0
    high := genLt_correct (gate_pos htop) g.le _ h1 }

/-- The rounds on such an element are the gate. -/
lemma rounds_eq_gate {w : ℕ} (hw : w ≤ 64) {q : Party → Queues} {R : Party → ℕ → BitVec w} {bias i : ℕ}
    (h : (gateItem d htop).At q (bias+i)) (is_rep : Bool) :
    (fun p => msb2 (gateAccess g d) q g.L bias (msb1 q R g.L bias is_rep) false p i) =
      gate2 g d (gate1 g d (fun r => (R r i).toNat) is_rep) := by
  have hhelp : false = true → (gateItem d htop).HelpAt q (bias+i) := fun hr =>
    absurd hr Bool.false_ne_true
  refine (rounds_flags (R := R) (gateItem d htop) g.le hw h hhelp is_rep).trans ?_
  funext p
  cases p <;> simp only [gate2, gateOpen_gate1] <;> rfl

lemma roundsReduce_eq_gate {w : ℕ} (hw : w ≤ 64) {q : Party → Queues} {R : Party → ℕ → BitVec w}
    {bias i : ℕ} (h : (gateItem d htop).At q (bias+i)) (hh : (gateItem d htop).HelpAt q (bias+i))
    (is_rep : Bool) :
    (fun p => msb2 (gateAccess g d) q g.L bias (msb1 q R g.L bias is_rep) true p i) =
      gate2Reduce g d (gate1 g d (fun r => (R r i).toNat) is_rep) := by
  refine (rounds_flags (R := R) (gateItem d htop) g.le hw h (fun (_ : true = true) => hh) is_rep).trans ?_
  funext p
  cases p <;> simp only [gate2Reduce, gate2, gateOpen_gate1] <;> rfl

lemma roundsDiag_eq_gate {w : ℕ} (hw : w ≤ 64) {q : Party → Queues} {R : Party → ℕ → BitVec w}
    {bias i : ℕ} (h : (gateItem d htop).DiagAt q (bias+i)) (is_rep : Bool) :
    (fun p => msbDiag2 (gateAccess g d) q g.L bias (msb1 q R g.L bias is_rep) true p i) =
      gate2Diag g d (gate1 g d (fun r => (R r i).toNat) is_rep) := by
  refine (roundsDiag_flags (R := R) (gateItem d htop) g.le hw h is_rep).trans ?_
  funext p
  cases p <;> simp only [gate2Diag, gateOpen_gate1] <;> rfl

end gate

/-! ## Whole queues -/

section queue
variable {f : Fss} {w : ℕ} {q : Party → Queues} {R : Party → ℕ → BitVec w}

/-- The shares with which the split version works: with `is_rep` only those of the even parties. -/
def evenOnly (is_rep : Bool) (R : Party → ℕ → BitVec w) (p : Party) (i : ℕ) : BitVec w :=
  if is_rep && !p.isEven then 0 else R p i

lemma getElem!_skip {α : Type*} [Inhabited α] (l : List α) (bias i : ℕ) :
    (l.drop bias)[i]! = l[bias+i]! := by
  rw [List.getElem!_eq_getElem?_getD, List.getElem!_eq_getElem?_getD, List.getElem?_drop]

/-- The split version is `msb` on the queues behind `bias`. -/
lemma rounds_eq_msb (msb_len bias len : ℕ) (is_rep if_reduce : Bool) (p : Party) (i : ℕ) :
    msb2 f q msb_len bias (msb1 q R msb_len bias is_rep) if_reduce p i =
      (msb f (fun r => (q r).skip bias) (evenOnly is_rep R) msb_len len if_reduce).1 p i := by
  have hshare : ∀ r, msb1 q R msb_len bias is_rep r i =
      ((evenOnly is_rep R r i).zeroExtend 64+((q r).mks.drop bias)[i]!.mask).toNat%2^msb_len := by
    intro r
    rw [msb1, evenOnly, getElem!_skip]
    split
    · simp
    · rfl
  simp only [msb2, hshare, msb, Queues.skip, getElem!_skip]

lemma msb_eq_rounds (msb_len len : ℕ) (if_reduce : Bool) (p : Party) (i : ℕ) :
    (msb f q R msb_len len if_reduce).1 p i =
      msb2 f q msb_len 0 (msb1 q R msb_len 0 false) if_reduce p i :=
  (rounds_eq_msb msb_len 0 len false if_reduce p i).symm

lemma msb_flags {e e' : MsbItem f} {if_reduce : Bool} (h64 : f.numBits ≤ 64) (hw : w ≤ 64) {i : ℕ}
    (h : e.At q i) (hh : if_reduce = true → e'.HelpAt q i) (len : ℕ) :
    (fun p => (msb f q R f.numBits len if_reduce).1 p i) = flagsOf e e' (BitVec.ofNat 64
      ((gateSum (fun r => (R r i).toNat) false+e.delta)%2^f.numBits)) if_reduce := by
  have hflags := @rounds_flags f e w q R 0 i h64 hw e' if_reduce (by rwa [Nat.zero_add])
    (by rwa [Nat.zero_add]) false
  simp only [msb_eq_rounds]
  exact hflags

lemma msb_eq_gate {g : Gate} (d : GateDraw) (htop : g.top = 2^(g.L-1)) (hf : gateAccess g d = f)
    (hw : w ≤ 64) {i : ℕ} (h : (gateItem d htop).At q i) (len : ℕ) :
    (fun p => (msb f q R g.L len false).1 p i) =
      gate2 g d (gate1 g d (fun r => (R r i).toNat) false) := by
  subst hf
  simp only [msb_eq_rounds]
  exact rounds_eq_gate d htop hw (by rwa [Nat.zero_add]) false

lemma getElem!_map_new {α β : Type*} [Inhabited β] (g : α → β) {l : List α} {j : ℕ}
    (hj : j < l.length) : ([] ++ l.map g)[j]! = g l[j] := by
  simp [hj]

variable (items : List (MsbItem f)) {j : ℕ}

lemma msbOff_at (off : Bool) (hj : j < items.length) :
    items[j].At (msbOff items off fun _ => .new) j := fun _ => getElem!_map_new _ hj

lemma msbOff_helpAt (hj : j < items.length) :
    items[j].HelpAt (msbOff items true fun _ => .new) j := fun _ => getElem!_map_new _ hj

lemma msbDiagOff_at (hj : j < items.length) :
    items[j].DiagAt (msbDiagOff items true fun _ => .new) j :=
  fun _ => ⟨getElem!_map_new _ hj,getElem!_map_new _ hj⟩

end queue

/-- All variants of the gate yield the top bit of the shared sum modulo `2^L`. -/
theorem msb_exact {f : Fss} (h0 : 0 < f.numBits) (h63 : f.numBits ≤ 63) (items : List (MsbItem f))
    {w : ℕ} (hw : w ≤ 64) (R : Party → ℕ → BitVec w) :
    let L := f.numBits
    let bit is_rep i := msbBit L (gateSum (fun r => (R r i).toNat) is_rep)
    (∀ off if_reduce len i, (if_reduce = true → off = true) → len ≤ items.length → i < len →
      Carries if_reduce
        (fun p => (msb f (msbOff items off fun _ => .new) R L len if_reduce).1 p i) (bit false i)) ∧
    (∀ bias len i is_rep, bias+len ≤ items.length → i < len →
      let q := msbDiagOff items true fun _ => .new
      CarriesDiag (fun p => msbDiag2 f q L bias (msb1 q R L bias is_rep) true p i) (bit is_rep i)) ∧
    (∀ off if_reduce bias len i is_rep, (if_reduce = true → off = true) →
      bias+len ≤ items.length → i < len →
      let q := msbOff items off fun _ => .new
      Carries if_reduce (fun p => msb2 f q L bias (msb1 q R L bias is_rep) if_reduce p i)
        (bit is_rep i)) ∧
    ∀ q bias len is_rep if_reduce p i, msb2 f q L bias (msb1 q R L bias is_rep) if_reduce p i =
      (msb f (fun r => (q r).skip bias) (evenOnly is_rep R) L len if_reduce).1 p i := by
  intro L bit
  have hrounds : ∀ off if_reduce bias len i is_rep, (if_reduce = true → off = true) →
      bias+len ≤ items.length → i < len → Carries if_reduce
        (fun p => msb2 f (msbOff items off fun _ => .new) L bias
          (msb1 (msbOff items off fun _ => .new) R L bias is_rep) if_reduce p i) (bit is_rep i) := by
    intro off if_reduce bias len i is_rep hoff hn hi
    have hj : bias+i < items.length := by omega
    have hhelp : if_reduce = true → items[bias+i].HelpAt (msbOff items off fun _ => .new) (bias+i) := by
      intro hr
      rw [hoff hr]
      exact msbOff_helpAt items hj
    rw [rounds_flags items[bias+i] (by omega) hw (msbOff_at items off hj) hhelp]
    exact flagsOf_carries _ h0 (by omega) if_reduce
  refine ⟨?_,?_,hrounds,fun q bias len is_rep if_reduce p i => rounds_eq_msb L bias len _ _ p i⟩
  · intro off if_reduce len i hoff hn hi
    simp only [msb_eq_rounds]
    exact hrounds off if_reduce 0 len i false hoff (by omega) hi
  · intro bias len i is_rep hn hi
    have hj : bias+i < items.length := by omega
    intro q
    rw [roundsDiag_flags items[bias+i] (by omega) hw (msbDiagOff_at items hj)]
    exact flagsDiag_carries _ h0 (by omega)

/-- Thirty-two bits: the shares 7, 7, 7 and `2^31` set the top bit. -/
theorem msb_exact_one :
    let f : Fss := ⟨fun _ s => s,32,0⟩
    let k : LtDraw := ⟨⟨0,1,0,0,0⟩,fun _ => ⟨0,0,0,0,0⟩,⟨3,4⟩,fun _ => ⟨0,0⟩⟩
    let item := msbItem f le_rfl (by norm_num) ⟨77,by decide,k,k,1,2,3⟩
    let R : Party → ℕ → Word := fun p _ => if p = player3 then 2^31 else 7
    open4 (fun p => (msb f (msbOff [item] false fun _ => .new) R 32 1 false).1 p 0) = 1 := by
  intro f k item R
  have hbit : msbBit 32 (gateSum (fun r => (R r 0).toNat) false) = 1 := by decide
  rw [← hbit]
  exact (msb_exact (f := f) (by norm_num) (by norm_num) [item] (by norm_num) R).1 false false 1 0
    (by decide) le_rfl Nat.zero_lt_one

end OramPro
