import OramPro.CompareQueue

/-!
# Carry and borrow from the key queues

`overflow` calls `msb` three times on the queues of `scmp_off`: on both operands and on the
combination of their 33-bit lifts. Its rounds read the same keys at the offsets 0, `len` and
`2*len`. With `if_reduce` only the third call reads `mhelp`, from which the first two calls have
dropped nothing.
-/
namespace OramPro

open Party

/-! ## Zero shares -/

/-- The buffer of a `Convert` object; its counters are of type `uint16_t`. -/
structure Convert where
  zero_share : ℕ → ZeroDraw
  zero_share_len : ℕ
  ptr : ℕ

namespace Convert
variable (c : Convert) (data : Party → ℕ → Word) (len : ℕ)

/-- `fourpc_zeroshare` -/
def zeroshare (zero : ℕ → ZeroDraw) (len : ℕ) : Convert := ⟨zero,len%2^16,0⟩

/-- `fourpc_share_2_replicated_share_1`, which does nothing when the zero shares run out. -/
def share1 (p : Party) (i : ℕ) : Word :=
  if c.zero_share_len < len%2^16+c.ptr then data p i
  else if i < len%2^16 then data p i+zeroShare (c.zero_share (c.ptr+i)) p else data p i

/-- `fourpc_share_2_replicated_share_2` -/
def share2 : (Party → ℕ → Word) × Convert :=
  if c.zero_share_len < len%2^16+c.ptr then (data,c)
  else (fun p i => if i < len%2^16 then twopcReveal (fun r => data r i) p else data p i,
    { c with ptr := (c.ptr+len%2^16)%2^16 })

/-- `fourpc_share_2_replicated_share` -/
def share : (Party → ℕ → Word) × Convert := c.share2 (c.share1 data len) len

variable {data len}

/-- The first use of a buffer of the right size. -/
lemma share_zeroshare (zero : ℕ → ZeroDraw) (h16 : len < 2^16) {i : ℕ} (hi : i < len) (p : Party) :
    ((zeroshare zero len).share data len).1 p i = toReplicated (zero i) (fun r => data r i) p := by
  have hlen : len%2^16 = len := Nat.mod_eq_of_lt h16
  simp only [share, share1, share2, zeroshare, hlen, hi, Nat.add_zero, Nat.zero_add, lt_irrefl,
    if_true, if_false, toReplicated]

end Convert

/-! ## The calls -/

/-- What the offline phase leaves with the parties. -/
structure CompareState where
  q : Party → Queues
  conv : Convert

def scmpOff {f : Fss} (items : List (MsbItem f)) (zero : ℕ → ZeroDraw) (len : ℕ) (if_reduce : Bool) :
    CompareState := ⟨msbOff items if_reduce fun _ => .new,.zeroshare zero len⟩

/-- `R_hat[i]` for a share and its part of the surplus. -/
def hatLen (extend_len : ℕ) (x beta : Word) : ℕ :=
  (x.toNat+2^extend_len-beta.toNat*2^32%2^extend_len)%2^extend_len

/-- In `overflow` the width 64 is a case of its own. -/
def hatFull (extend_len : ℕ) (x beta : Word) : ℕ :=
  if extend_len = 64 then (x.zeroExtend 64-beta.zeroExtend 64 <<< 32).toNat
  else hatLen extend_len x beta

/-- The callback of `Add_sub`: type 1 adds, and every other type subtracts. -/
def cbOf (type_of : ℕ) : ℕ → ℕ → ℕ := if type_of = 1 then overflowAdd else overflowSub

section calls
variable (f : Fss) (s : CompareState) (R A : Party → ℕ → Word) (len extend_len : ℕ)
  (share_cb : ℕ → ℕ → ℕ)

/-- The operand of the third `msb`, and the queues before it. -/
def overflowHat : (Party → ℕ → BitVec 64) × (Party → Queues) :=
  let betar := msb f s.q R 33 len false
  let betaa := msb f betar.2 A 33 len false
  (fun p i => BitVec.ofNat 64 (share_cb (hatFull extend_len (R p i) (betar.1 p i))
    (hatFull extend_len (A p i) (betaa.1 p i))),betaa.2)

/-- `Compare::overflow` -/
def overflowCall (if_reduce : Bool) : (Party → ℕ → Word) × CompareState :=
  let A_hat := overflowHat f s R A len extend_len share_cb
  let flags := msb f A_hat.2 A_hat.1 extend_len len if_reduce
  if if_reduce then (flags.1,⟨flags.2,s.conv⟩)
  else
    let r := s.conv.share flags.1 len
    (r.1,⟨flags.2,r.2⟩)

/-- `overflow_1` fills the two buffers of `tmps_64`. -/
def overflow1 : (Party → ℕ → ℕ) × (Party → ℕ → ℕ) :=
  (msb1 s.q R 33 0 false,msb1 s.q A 33 len false)

/-- `overflow_2` leaves the masked shares of the third gate in `tmps_64[0]`. -/
def overflow2 (tmps_64 : (Party → ℕ → ℕ) × (Party → ℕ → ℕ)) : Party → ℕ → ℕ :=
  let R_plus := msb2 f s.q extend_len 0 tmps_64.1 false
  let A_plus := msb2 f s.q extend_len len tmps_64.2 false
  msb1 s.q (fun p i => BitVec.ofNat 64 (share_cb (hatLen extend_len (R p i) (R_plus p i))
    (hatLen extend_len (A p i) (A_plus p i)))) extend_len (2*len) false

def overflow3 (tmp_ptr : Party → ℕ → ℕ) (if_reduce : Bool) : Party → ℕ → Word :=
  let flags := msb2 f s.q extend_len (2*len) tmp_ptr if_reduce
  if if_reduce then flags else s.conv.share1 flags len

def overflowEnd (flags : Party → ℕ → Word) : (Party → ℕ → Word) × Convert := s.conv.share2 flags len

/-- The four rounds without `if_reduce`. -/
def overflowRounds : Party → ℕ → Word :=
  let tmps_64 := overflow1 s R A len
  let tmp_ptr := overflow2 f s R A len extend_len share_cb tmps_64
  (overflowEnd s len (overflow3 f s len extend_len tmp_ptr false)).1

end calls

section rounds
variable {f : Fss} {s : CompareState} {R A : Party → ℕ → Word} {len : ℕ} {share_cb : ℕ → ℕ → ℕ}

/-- Without `if_reduce` the second keys do not matter. -/
lemma msb_mks {w : ℕ} {q q' : Party → Queues} (R : Party → ℕ → BitVec w)
    (h : ∀ p, (q p).mks = (q' p).mks) (msb_len len : ℕ) :
    (msb f q R msb_len len false).1 = (msb f q' R msb_len len false).1 := by
  funext p i
  simp only [msb, flagOf, Bool.false_eq_true, if_false, h]

lemma evenOnly_false {w : ℕ} (R : Party → ℕ → BitVec w) : evenOnly false R = R := rfl

lemma hatFull_33 : hatFull 33 = hatLen 33 := by
  funext x beta
  exact if_neg (by norm_num)

/-- The rounds compute what the single call does. -/
theorem overflowRounds_eq :
    overflowRounds f s R A len 33 share_cb = (overflowCall f s R A len 33 share_cb false).1 := by
  have hR : msb2 f s.q 33 0 (msb1 s.q R 33 0 false) false = (msb f s.q R 33 len false).1 := by
    funext p i
    exact (msb_eq_rounds 33 len false p i).symm
  have hA : msb2 f s.q 33 len (msb1 s.q A 33 len false) false =
      (msb f (msb f s.q R 33 len false).2 A 33 len false).1 := by
    funext p i
    rw [rounds_eq_msb 33 len len, evenOnly_false]
    exact congrFun (congrFun (msb_mks A (fun r => rfl) 33 len) p) i
  have hthird : ∀ tmp : Party → ℕ → BitVec 64,
      msb2 f s.q 33 (2*len) (msb1 s.q tmp 33 (2*len) false) false =
      (msb f (msb f (msb f s.q R 33 len false).2 A 33 len false).2 tmp 33 len false).1 := by
    intro tmp
    funext p i
    rw [rounds_eq_msb 33 (2*len) len, evenOnly_false]
    refine congrFun (congrFun (msb_mks tmp (fun r => ?_) 33 len) p) i
    simp only [Queues.skip, msb, List.drop_drop, two_mul]
  simp only [overflowRounds, overflow1, overflow2, overflow3, overflowEnd, overflowCall, overflowHat,
    hatFull_33, hR, hA, hthird, Bool.false_eq_true, if_false, Convert.share]

end rounds

/-! ## The operand of the third gate -/

/-- The carry of an addition, or the borrow of a subtraction. -/
def carryOf (type_of : ℕ) (R A : Word) : Word :=
  if type_of = 1 then (if 2^32 ≤ R.toNat+A.toNat then 1 else 0)
  else if R.toNat < A.toNat then 1 else 0

lemma cbOf_lt (type_of a b : ℕ) : cbOf type_of a b < 2^33 := by
  unfold cbOf overflowAdd overflowSub
  split <;> exact Nat.mod_lt _ (by norm_num)

lemma cbOf_sum (type_of : ℕ) (u : Party → ℕ) {v : Party → ℕ} (hv : ∀ p, v p < 2^33) :
    gateSum (fun p => cbOf type_of (u p) (v p)) false%2^33 =
      cbOf type_of (gateSum u false%2^33) (gateSum v false%2^33) := by
  by_cases h : type_of = 1
  · simp only [cbOf, if_pos h]
    exact overflowAdd_sum u v
  · simp only [cbOf, if_neg h]
    exact overflowSub_sum u hv

/-- Bit 32 of the combined words is the carry or the borrow. -/
lemma msbBit_cbOf {type_of S : ℕ} {R A : Word} (hS : S%2^33 = cbOf type_of R.toNat A.toNat) :
    msbBit 33 S = carryOf type_of R A := by
  have hr := R.isLt
  have ha := A.isLt
  rw [msbBit, hS]
  by_cases h : type_of = 1
  · simp only [cbOf, carryOf, if_pos h, overflowAdd]
    rw [Nat.mod_eq_of_lt (by omega)]
  · simp only [cbOf, carryOf, if_neg h, overflowSub]
    by_cases hlt : R.toNat < A.toNat
    · rw [if_pos hlt, if_pos (by omega)]
    · rw [if_neg hlt, if_neg (by omega)]

section queue
variable {f : Fss} {q : Party → Queues} {e : MsbItem f} {w : ℕ} {j : ℕ}

/-- An element behind the dropped ones moves to the front; the second keys stay where they are. -/
lemma MsbItem.At.drop {len : ℕ} (h : e.At q (len+j)) (R : Party → ℕ → BitVec w) (msb_len : ℕ)
    (if_reduce : Bool) : e.At (msb f q R msb_len len if_reduce).2 j := by
  intro p
  simp only [msb, getElem!_skip]
  exact h p

lemma MsbItem.HelpAt.drop (h : e.HelpAt q j) (R : Party → ℕ → BitVec w) (msb_len len : ℕ)
    (if_reduce : Bool) : e.HelpAt (msb f q R msb_len len if_reduce).2 j := h

end queue

section operand
variable {f : Fss} {q : Party → Queues} {e : MsbItem f} {i : ℕ}

/-- The lifted shares of a word add up to the word modulo `2^33`. -/
lemma hatLen_sum (h33 : f.numBits = 33) (h : e.At q i) (R : Party → ℕ → Word) (len : ℕ) :
    gateSum (fun p => hatLen 33 (R p i) ((msb f q R 33 len false).1 p i)) false%2^33 =
      (open4 fun p => R p i).toNat := by
  have hhelp : false = true → e.HelpAt q i := fun hr => absurd hr Bool.false_ne_true
  have hflags := msb_flags (R := R) (by omega) (by norm_num : 32 ≤ 64) h hhelp len
  have hcarry := flagsOf_carries e (S := gateSum (fun r => (R r i).toNat) false) (by omega) (by omega)
    false
  rw [← hflags, h33] at hcarry
  exact hat_sum_bit hcarry

end operand

/-- What the third gate opens: the combined words under the mask of its element. -/
def opened (type_of : ℕ) (R A : Word) (delta : ℕ) : BitVec 64 :=
  BitVec.ofNat 64 ((cbOf type_of R.toNat A.toNat+delta)%2^33)

section third
variable {f : Fss} {s : CompareState} {R A : Party → ℕ → Word} {len i : ℕ} (type_of : ℕ)
  {er ea es e' : MsbItem f} (h33 : f.numBits = 33) (hr : er.At s.q i) (ha : ea.At s.q (len+i))
include h33 hr ha

lemma overflowHat_sum :
    gateSum (fun p => ((overflowHat f s R A len 33 (cbOf type_of)).1 p i).toNat) false%2^33 =
      cbOf type_of (open4 fun p => R p i).toNat (open4 fun p => A p i).toNat := by
  have hcut : ∀ p, ((overflowHat f s R A len 33 (cbOf type_of)).1 p i).toNat =
      cbOf type_of (hatLen 33 (R p i) ((msb f s.q R 33 len false).1 p i))
        (hatLen 33 (A p i) ((msb f (msb f s.q R 33 len false).2 A 33 len false).1 p i)) := by
    intro p
    simp only [overflowHat, hatFull_33, BitVec.toNat_ofNat]
    exact Nat.mod_eq_of_lt ((cbOf_lt _ _ _).trans (by norm_num))
  have hlt : ∀ x b, hatLen 33 x b < 2^33 := fun x b => Nat.mod_lt _ (by norm_num)
  simp only [hcut]
  rw [cbOf_sum type_of _ fun p => hlt _ _, hatLen_sum h33 hr, hatLen_sum h33 (ha.drop R 33 false)]

/-- The third gate evaluates the keys of element `2*len+i` at the opened value, and with `if_reduce`
the second keys that are still at position `i`. -/
lemma third_flags (hs : es.At s.q (len+(len+i))) {if_reduce : Bool}
    (hh : if_reduce = true → e'.HelpAt s.q i) :
    let hat := overflowHat f s R A len 33 (cbOf type_of)
    (fun p => (msb f hat.2 hat.1 33 len if_reduce).1 p i) = flagsOf es e'
      (opened type_of (open4 fun p => R p i) (open4 fun p => A p i) es.delta) if_reduce := by
  intro hat
  have hAt : es.At hat.2 i := (hs.drop R 33 false).drop A 33 false
  have hHelp : if_reduce = true → e'.HelpAt hat.2 i := fun h =>
    ((hh h).drop R 33 len false).drop A 33 len false
  have hflags := msb_flags (R := hat.1) (by omega) le_rfl hAt hHelp len
  rw [h33] at hflags
  rw [hflags, opened, ← overflowHat_sum type_of h33 hr ha, Nat.mod_add_mod]

end third

/-! ## The flags -/

section flags
variable {f : Fss} (items : List (MsbItem f)) (zero : ℕ → ZeroDraw) (R A : Party → ℕ → Word)
  {len i : ℕ} (type_of : ℕ) (h33 : f.numBits = 33) (hlen : items.length = 3*len) (hi : i < len)
include h33 hlen hi

/-- Without `if_reduce`, with any second keys in the queues. -/
lemma overflowCall_flags (off : Bool) (h16 : len < 2^16) :
    let flags p := (overflowCall f (scmpOff items zero len off) R A len 33 (cbOf type_of) false).1 p i
    Replicated flags ∧
      openRep flags = carryOf type_of (open4 fun p => R p i) (open4 fun p => A p i) := by
  intro flags
  have hr : items[i].At (scmpOff items zero len off).q i := msbOff_at items off (by omega)
  have ha : items[len+i].At (scmpOff items zero len off).q (len+i) := msbOff_at items off (by omega)
  have hs : items[len+(len+i)].At (scmpOff items zero len off).q (len+(len+i)) :=
    msbOff_at items off (by omega)
  have hhelp : false = true → items[i].HelpAt (scmpOff items zero len off).q i :=
    fun h => absurd h Bool.false_ne_true
  have hthird := third_flags (R := R) (A := A) type_of h33 hr ha hs hhelp
  have hcarry := flagsOf_carries items[len+(len+i)] (S := cbOf type_of (open4 fun p => R p i).toNat
    (open4 fun p => A p i).toNat) (by omega) (by omega) false
  rw [h33] at hcarry
  have hopen : open4 (fun p => (msb f
      (overflowHat f (scmpOff items zero len off) R A len 33 (cbOf type_of)).2
      (overflowHat f (scmpOff items zero len off) R A len 33 (cbOf type_of)).1 33 len false).1 p i) =
      carryOf type_of (open4 fun p => R p i) (open4 fun p => A p i) := by
    rw [hthird, ← msbBit_cbOf (Nat.mod_eq_of_lt (cbOf_lt _ _ _))]
    exact hcarry
  have hconv : flags = toReplicated (zero i) (fun p => (msb f
      (overflowHat f (scmpOff items zero len off) R A len 33 (cbOf type_of)).2
      (overflowHat f (scmpOff items zero len off) R A len 33 (cbOf type_of)).1 33 len false).1 p i) := by
    funext p
    exact Convert.share_zeroshare zero h16 hi p
  rw [hconv, toReplicated_open, hopen]
  exact ⟨toReplicated_rep _ _,rfl⟩

/-- With `if_reduce` the second keys are those of the first call. -/
lemma overflowCall_reduce :
    (fun p => (overflowCall f (scmpOff items zero len true) R A len 33 (cbOf type_of) true).1 p i) =
      flagsOf items[len+(len+i)] items[i] (opened type_of (open4 fun p => R p i)
        (open4 fun p => A p i) items[len+(len+i)].delta) true := by
  have hr : items[i].At (scmpOff items zero len true).q i := msbOff_at items true (by omega)
  have ha : items[len+i].At (scmpOff items zero len true).q (len+i) := msbOff_at items true (by omega)
  have hs : items[len+(len+i)].At (scmpOff items zero len true).q (len+(len+i)) :=
    msbOff_at items true (by omega)
  have hh : items[i].HelpAt (scmpOff items zero len true).q i := msbOff_helpAt items (by omega)
  exact third_flags (R := R) (A := A) type_of h33 hr ha hs fun (_ : true = true) => hh

end flags

/-! ## The operation of the machine -/

section machine
variable {f : Fss} {s : CompareState} {R A : Party → ℕ → Word} {len i : ℕ} {r a sum : GateDraw}

lemma msb33_half : msb33.top = 2^(msb33.L-1) := rfl

/-- The queues hold the keys of three gates at the places that the three calls read. -/
structure GatesAt (f : Fss) (q : Party → Queues) (r a sum : GateDraw) (len i : ℕ) : Prop where
  accessR : gateAccess msb33 r = f
  accessA : gateAccess msb33 a = f
  accessSum : gateAccess msb33 sum = f
  r : (gateItem r msb33_half).At q i
  a : (gateItem a msb33_half).At q (len+i)
  sum : (gateItem sum msb33_half).At q (len+(len+i))

/-- On such queues the call does for each index what the comparison of single words does. -/
theorem overflowCall_eq_overflow (h : GatesAt f s.q r a sum len i) (zero : ℕ → ZeroDraw)
    (hconv : s.conv = .zeroshare zero len) (h16 : len < 2^16) (hi : i < len) (type_of : ℕ) :
    (fun p => (overflowCall f s R A len 33 (cbOf type_of) false).1 p i) =
      overflow ⟨r,a,sum,zero i⟩ (cbOf type_of) (fun p => R p i) fun p => A p i := by
  have hR : (fun p => (msb f s.q R 33 len false).1 p i) = msbWord r fun p => R p i :=
    msb_eq_gate r msb33_half h.accessR (by norm_num) h.r len
  have hA : (fun p => (msb f (msb f s.q R 33 len false).2 A 33 len false).1 p i) =
      msbWord a fun p => A p i :=
    msb_eq_gate a msb33_half h.accessA (by norm_num) (h.a.drop R 33 false) len
  have hat : ∀ p, ((overflowHat f s R A len 33 (cbOf type_of)).1 p i).toNat =
      cbOf type_of (hat (R p i) (msbWord r (fun p => R p i) p))
        (hat (A p i) (msbWord a (fun p => A p i) p)) := by
    intro p
    rw [← hR, ← hA]
    simp only [overflowHat, hatFull_33, BitVec.toNat_ofNat]
    exact Nat.mod_eq_of_lt ((cbOf_lt _ _ _).trans (by norm_num))
  have hthird := msb_eq_gate (R := (overflowHat f s R A len 33 (cbOf type_of)).1) sum msb33_half
    h.accessSum le_rfl ((h.sum.drop R 33 false).drop A 33 false) len
  simp only [hat] at hthird
  have hshare : (fun p => (overflowCall f s R A len 33 (cbOf type_of) false).1 p i) =
      toReplicated (zero i) fun p => (msb f (overflowHat f s R A len 33 (cbOf type_of)).2
        (overflowHat f s R A len 33 (cbOf type_of)).1 33 len false).1 p i := by
    funext p
    simp only [overflowCall, Bool.false_eq_true, if_false, hconv]
    exact Convert.share_zeroshare zero h16 hi p
  rw [hshare, overflow]
  exact congrArg _ hthird

end machine

/-! ## Second keys of another element -/

/-- At `x` the second keys of `e'` can stand in for those of `e`: both masks are on the same side,
and the two values that make up a share have the same sum. -/
structure SameAt {f : Fss} (e e' : MsbItem f) (x : BitVec 64) : Prop where
  side : x.toNat < e'.delta ↔ x.toNat < e.delta
  share0 : evalFlag f e'.keys.lt_00 x+evalFlag f e'.keys.lt_10 x =
    evalFlag f e.keys.lt_00 x+evalFlag f e.keys.lt_10 x
  share1 : evalFlag f e'.keys.lt_01 x+evalFlag f e'.keys.lt_11 x =
    evalFlag f e.keys.lt_01 x+evalFlag f e.keys.lt_11 x

lemma sameAt_refl {f : Fss} (e : MsbItem f) (x : BitVec 64) : SameAt e e x := ⟨Iff.rfl,rfl,rfl⟩

lemma evalFlag_low {f : Fss} (e : MsbItem f) (h64 : f.numBits ≤ 64) {x : BitVec 64}
    (hx : x.toNat < 2^f.numBits) : evalFlag f e.keys.lt_00 x-evalFlag f e.keys.lt_01 x =
      if x.toNat < e.delta then 1 else 0 := by
  have h := evalFlag_sub e.low h64 hx
    (e.delta_lt.trans_le (Nat.pow_le_pow_right (by norm_num) (Nat.sub_le _ _)))
  rwa [BitVec.ofNat_toNat, BitVec.setWidth_eq] at h

lemma bit_sub_bit (a b : Prop) [Decidable a] [Decidable b] :
    (if a then 1 else 0 : Word)-(if b then 1 else 0) = 0 ↔ (a ↔ b) := by
  by_cases ha : a <;> by_cases hb : b <;> simp [ha, hb]

lemma toNat_ofNat_mod_lt (S L : ℕ) : (BitVec.ofNat 64 (S%2^L)).toNat < 2^L :=
  (Nat.mod_le _ _).trans_lt (Nat.mod_lt _ (Nat.two_pow_pos _))

section second
variable {f : Fss} (h0 : 0 < f.numBits) (h64 : f.numBits ≤ 64) (e e' : MsbItem f) (S : ℕ)
include h0 h64

/-- The flags open to the bit, shifted by what the two masks say about `x`. -/
lemma flagsOf_open :
    let x := BitVec.ofNat 64 ((S+e.delta)%2^f.numBits)
    openRep (flagsOf e e' x true) = msbBit f.numBits S
      +((if x.toNat < e'.delta then 1 else 0)-(if x.toNat < e.delta then 1 else 0)) := by
  intro x
  have hbit : evalFlag f e.keys.lt_00 x-evalFlag f e.keys.lt_01 x+1
      -(evalFlag f e.keys.lt_10 x-evalFlag f e.keys.lt_11 x) = msbBit f.numBits S := e.bit h0 h64 rfl
  have hlt : x.toNat < 2^f.numBits := toNat_ofNat_mod_lt _ _
  rw [← evalFlag_low e' h64 hlt, ← evalFlag_low e h64 hlt, ← hbit]
  show 1-evalFlag f e.keys.lt_10 x+evalFlag f e'.keys.lt_00 x
    +(evalFlag f e.keys.lt_11 x+-evalFlag f e'.keys.lt_01 x) = _
  ring

/-- With the second keys of `e'` the flags are still right exactly where these can stand in. -/
lemma flagsOf_iff :
    let x := BitVec.ofNat 64 ((S+e.delta)%2^f.numBits)
    Carries true (flagsOf e e' x true) (msbBit f.numBits S) ↔ SameAt e e' x := by
  intro x
  have hside : openRep (flagsOf e e' x true) = msbBit f.numBits S ↔
      (x.toNat < e'.delta ↔ x.toNat < e.delta) := by
    rw [flagsOf_open h0 h64 e e' S, add_eq_left]
    exact bit_sub_bit _ _
  have hcarry : Carries true (flagsOf e e' x true) (msbBit f.numBits S) ↔
      (1-evalFlag f e.keys.lt_10 x+evalFlag f e'.keys.lt_00 x =
        evalFlag f e.keys.lt_00 x+(1-evalFlag f e'.keys.lt_10 x) ∧
      evalFlag f e.keys.lt_11 x+-evalFlag f e'.keys.lt_01 x =
        -evalFlag f e.keys.lt_01 x+evalFlag f e'.keys.lt_11 x) ∧
      openRep (flagsOf e e' x true) = msbBit f.numBits S := Iff.rfl
  rw [hcarry, hside]
  constructor
  · rintro ⟨⟨h1, h2⟩, h3⟩
    exact ⟨h3,by linear_combination h1,by linear_combination -h2⟩
  · rintro ⟨h1, h2, h3⟩
    exact ⟨⟨by linear_combination h2,by linear_combination -h3⟩,h1⟩

end second

/-- `overflow` with `if_reduce`: replicated flags that open to the carry or borrow, which is what the
plain call yields. -/
def ReduceAgrees (f : Fss) (items : List (MsbItem f)) (zero : ℕ → ZeroDraw) (R A : Party → ℕ → Word)
    (len type_of : ℕ) : Prop :=
  ∀ i < len,
    let flags p := (overflowCall f (scmpOff items zero len true) R A len 33 (cbOf type_of) true).1 p i
    let plain p := (overflowCall f (scmpOff items zero len false) R A len 33 (cbOf type_of) false).1 p i
    Replicated flags ∧ openRep flags = carryOf type_of (open4 fun p => R p i) (open4 fun p => A p i) ∧
      (len < 2^16 → openRep flags = openRep plain)

/-- The first two calls of `msb` drop elements of `mks` alone, so the third one pairs element
`2*len+i` with the second keys of element `i`. Its flags are right exactly where these can stand in
for the missing ones. -/
theorem overflow_reduce_iff {f : Fss} (h33 : f.numBits = 33) (items : List (MsbItem f))
    (zero : ℕ → ZeroDraw) (R A : Party → ℕ → Word) {len : ℕ} (hlen : items.length = 3*len)
    (type_of : ℕ) : ReduceAgrees f items zero R A len type_of ↔
      ∀ i e e', items[i]? = some e' → items[2*len+i]? = some e → SameAt e e'
        (opened type_of (open4 fun p => R p i) (open4 fun p => A p i) e.delta) := by
  have hflags : ∀ i (hi : i < len), Carries true
      (fun p => (overflowCall f (scmpOff items zero len true) R A len 33 (cbOf type_of) true).1 p i)
      (carryOf type_of (open4 fun p => R p i) (open4 fun p => A p i)) ↔
      ∀ e e', items[i]? = some e' → items[2*len+i]? = some e → SameAt e e'
        (opened type_of (open4 fun p => R p i) (open4 fun p => A p i) e.delta) := by
    intro i hi
    have hiff := flagsOf_iff (by omega) (by omega) items[len+(len+i)] items[i]
      (cbOf type_of (open4 fun p => R p i).toNat (open4 fun p => A p i).toNat)
    rw [h33, msbBit_cbOf (Nat.mod_eq_of_lt (cbOf_lt _ _ _))] at hiff
    rw [overflowCall_reduce items zero R A type_of h33 hlen hi]
    have h1 : items[i]? = some items[i] := List.getElem?_eq_getElem (by omega)
    have h2 : items[2*len+i]? = some items[len+(len+i)] := by
      rw [two_mul, Nat.add_assoc]
      exact List.getElem?_eq_getElem (by omega)
    refine hiff.trans ⟨fun h e e' he' he => ?_,fun h => h _ _ h1 h2⟩
    obtain rfl := Option.some.inj (h1.symm.trans he')
    obtain rfl := Option.some.inj (h2.symm.trans he)
    exact h
  constructor
  · intro h i e e' he' he
    have hi : i < len := by
      have := (List.getElem?_eq_some_iff.mp he).1
      omega
    exact (hflags i hi).mp ⟨(h i hi).1,(h i hi).2.1⟩ e e' he' he
  · intro h i hi flags plain
    obtain ⟨hrep, hopen⟩ := (hflags i hi).mpr fun e e' he' he => h i e e' he' he
    refine ⟨hrep,hopen,fun h16 => hopen.trans ?_⟩
    exact (overflowCall_flags items zero R A type_of h33 hlen hi false h16).2.symm

def reduceFss : Fss := ⟨fun _ s => s,33,0⟩

def reduceItem (delta : BitVec 64) (h : delta.toNat < 2^31) : MsbItem reduceFss :=
  let k : LtDraw := ⟨⟨0,1,0,0,0⟩,fun _ => ⟨0,0,0,0,0⟩,⟨3,4⟩,fun _ => ⟨0,0⟩⟩
  msbItem _ (by norm_num [reduceFss]) (by norm_num [reduceFss]) ⟨delta,h,k,k,1,2,3⟩

/-- Three elements with the masks 5, 5 and 0. -/
def reduceItems : List (MsbItem reduceFss) :=
  [reduceItem 5 (by decide),reduceItem 5 (by decide),reduceItem 0 (by decide)]

/-- The sum of 3 and 0 has no carry, but the flag says that it has: the opened 3 is below the mask
of the first element and not below the mask of the third. -/
theorem overflow_reduce_wrong :
    let R : Party → ℕ → Word := fun p _ => if p = player0 then 3 else 0
    let A : Party → ℕ → Word := fun _ _ => 0
    let flags p := (overflowCall reduceFss (scmpOff reduceItems (fun _ => ⟨0,0,0⟩) 1 true) R A 1 33
      (cbOf 1) true).1 p 0
    openRep flags = 1 ∧ carryOf 1 (open4 fun p => R p 0) (open4 fun p => A p 0) = 0 ∧
      ¬ReduceAgrees reduceFss reduceItems (fun _ => ⟨0,0,0⟩) R A 1 1 := by
  intro R A flags
  have hr : (open4 fun p => R p 0) = 3 := by decide
  have ha : (open4 fun p => A p 0) = 0 := by decide
  have hcarry : carryOf 1 3 0 = 0 := by decide
  have hopen : openRep flags = 1 := by
    have hflags : flags = flagsOf (reduceItem 0 (by decide)) (reduceItem 5 (by decide)) (opened 1 3 0 0)
        true := by
      rw [← hr, ← ha]
      exact overflowCall_reduce reduceItems (fun _ => ⟨0,0,0⟩) R A 1 rfl rfl Nat.zero_lt_one
    have h := flagsOf_open (by norm_num [reduceFss]) (by norm_num [reduceFss]) (reduceItem 0 (by decide))
      (reduceItem 5 (by decide)) 3
    have hval : msbBit 33 3+((if 3 < 5 then 1 else 0)-(if 3 < 0 then 1 else 0)) = (1 : Word) := by
      decide
    rw [hflags]
    exact h.trans hval
  rw [hr, ha, hcarry]
  refine ⟨hopen,rfl,fun h => ?_⟩
  have hagree := (h 0 Nat.zero_lt_one).2.1
  rw [hr, ha, hcarry] at hagree
  exact absurd (hopen.symm.trans hagree) (by decide)

/-- With three equal elements the second keys are the right ones. -/
theorem overflow_reduce_equal :
    ReduceAgrees reduceFss (List.replicate 3 (reduceItem 5 (by decide))) (fun _ => ⟨0,0,0⟩)
      (fun _ _ => 3) (fun _ _ => 7) 1 1 := by
  refine (overflow_reduce_iff rfl _ _ _ _ rfl 1).mpr fun i e e' he' he => ?_
  have h := List.eq_of_mem_replicate (List.mem_of_getElem? he)
  have h' := List.eq_of_mem_replicate (List.mem_of_getElem? he')
  rw [h, h']
  exact sameAt_refl _ _

end OramPro
