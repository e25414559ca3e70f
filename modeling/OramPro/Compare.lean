import OramPro.FourParty
import OramPro.FssLt

/-!
# Comparison gates

A gate opens a masked sum and evaluates two less-than keys on it: one for the mask and one for
the mask plus a threshold. `msb` has the threshold `2^(L-1)` and so returns the top bit of the
sum modulo `2^L`; `IC` for `[0, 2^32)` works modulo `2^64` and has the threshold `2^32`. Words of
64 bits are naturals here, with every reduction written out.
-/
namespace OramPro

open Party

/-- Random values for one pair of less-than keys. -/
structure LtDraw where
  root : RootDraw
  level : ℕ → LevelDraw
  rootV : WordDraw
  levelV : ℕ → WordDraw

/-- Random values for one gate, with the access structure that the aid sends out. -/
structure GateDraw where
  f : Fss
  delta : Word
  key0 : LtDraw
  key1 : LtDraw
  d0 : Word
  d1 : Word
  d2 : Word

/-- The keys `lt_00`, `lt_01` of the mask and `lt_10`, `lt_11` of the mask plus the threshold. -/
structure GateKeys where
  lt_00 : ServerKeyLt
  lt_01 : ServerKeyLt
  lt_10 : ServerKeyLt
  lt_11 : ServerKeyLt

namespace GateKeys

/-- Who gets which key in `msb_off` and `IC_OFF`. -/
def mks (k : GateKeys) : Party → ServerKeyLt
  | player1 => k.lt_00 | player3 => k.lt_01 | player0 => k.lt_10 | player2 => k.lt_11

/-- The second key of a party when `if_reduce` is set. -/
def mhelp (k : GateKeys) : Party → ServerKeyLt
  | player0 => k.lt_00 | player2 => k.lt_01 | player1 => k.lt_10 | player3 => k.lt_11

/-- Who gets which key in `msb_diag_off`. -/
def mksDiag (k : GateKeys) : Party → ServerKeyLt
  | player2 => k.lt_00 | player3 => k.lt_01 | player0 => k.lt_10 | player1 => k.lt_11

def mhelpDiag (k : GateKeys) : Party → ServerKeyLt
  | player0 => k.lt_00 | player1 => k.lt_01 | player2 => k.lt_10 | player3 => k.lt_11

end GateKeys

/-- The width of the opened value and the threshold. -/
structure Gate where
  L : ℕ
  top : ℕ
  room : top+2^32 ≤ 2^L
  le : L ≤ 64

/-- `msb` for the default width 33 and for width 34. -/
def msb33 : Gate := ⟨33,2^32,by norm_num,by norm_num⟩
def msb34 : Gate := ⟨34,2^33,by norm_num,by norm_num⟩

/-- `IC` for `p = 0` and `q = 2^32`. -/
def ic32 : Gate := ⟨64,2^32,by norm_num,by norm_num⟩

section gate
variable (g : Gate) (d : GateDraw)

def genLt (f : Fss) (a : BitVec 64) (k : LtDraw) : ServerKeyLt × ServerKeyLt :=
  generateTreeLt f a 1 k.root k.level k.rootV k.levelV

def gateAccess : Fss := { d.f with numBits := g.L }

def gateKeys : GateKeys :=
  let delta0 := d.delta.zeroExtend 64
  let k0 := genLt (gateAccess g d) delta0 d.key0
  let k1 := genLt (gateAccess g d) (delta0+BitVec.ofNat 64 g.top) d.key1
  ⟨k0.1,k0.2,k1.1,k1.2⟩

/-- The shares of the mask that `fourpc_share` hands out. -/
def gateMask : Party → ℕ :=
  let share_cb a b := (a+2^g.L-b)%2^g.L
  fun
  | player0 => share_cb (share_cb (share_cb d.delta.toNat d.d0.toNat) d.d1.toNat) d.d2.toNat
  | player1 => d.d0.toNat
  | player2 => d.d1.toNat
  | player3 => d.d2.toNat

/-- `msb_1` and `IC_1`: with `is_rep` the odd parties send their mask share alone. -/
def gate1 (R : Party → ℕ) (is_rep : Bool) (p : Party) : ℕ :=
  if is_rep && !p.isEven then gateMask g d p%2^g.L else (R p+gateMask g d p)%2^g.L

def gateOpen (tmp : Party → ℕ) (p : Party) : ℕ := fourpcRecvBy (fun a b => (a+b)%2^g.L) tmp tmp p

def evalGate (k : ServerKeyLt) (x : ℕ) : Word :=
  (evaluateLt (gateAccess g d) k (BitVec.ofNat 64 x)).setWidth 32

/-- `msb_2` without `if_reduce`: four shares of the bit. -/
def gate2 (tmp : Party → ℕ) (p : Party) : Word :=
  let e := evalGate g d ((gateKeys g d).mks p) (gateOpen g tmp p)
  match p with
  | player0 => 1-e
  | player1 => e
  | player2 => e
  | player3 => -e

/-- `msb_2` and `IC_2` with `if_reduce`: replicated shares of the bit. -/
def gate2Reduce (tmp : Party → ℕ) (p : Party) : Word :=
  let temp := evalGate g d ((gateKeys g d).mhelp p) (gateOpen g tmp p)
  match p with
  | player0 => gate2 g d tmp player0+temp
  | player1 => gate2 g d tmp player1+(1-temp)
  | player2 => gate2 g d tmp player2+-temp
  | player3 => gate2 g d tmp player3+temp

/-- `msb_diag_2` with `if_reduce`: the two shares lie on the diagonals. -/
def gate2Diag (tmp : Party → ℕ) (p : Party) : Word :=
  let e := evalGate g d ((gateKeys g d).mksDiag p) (gateOpen g tmp p)
  let temp := evalGate g d ((gateKeys g d).mhelpDiag p) (gateOpen g tmp p)
  match p with
  | player0 => 1-e+temp
  | player1 => e+-temp
  | player2 => e+(1-temp)
  | player3 => -e+temp

end gate

/-! ## What a gate returns -/

section spec
variable {g : Gate} {d : GateDraw} {S : ℕ}

/-- The sum that a gate looks at: with `is_rep` only the even parties contribute. -/
def gateSum (R : Party → ℕ) (is_rep : Bool) : ℕ :=
  if is_rep then R player0+R player2 else R player0+R player1+R player2+R player3

lemma fourpcRecvBy_mod (m : ℕ) (tmp : Party → ℕ) (p : Party) :
    fourpcRecvBy (fun a b => (a+b)%m) tmp tmp p = gateSum tmp false%m := by
  cases p <;> simp [fourpcRecvBy, Party.all, Nat.mod_add_mod, gateSum] <;> congr 1 <;> omega

lemma gateOpen_eq (tmp : Party → ℕ) (p : Party) :
    gateOpen g tmp p = (tmp player0+tmp player1+tmp player2+tmp player3)%2^g.L :=
  fourpcRecvBy_mod _ tmp p

lemma gateMask_sum : gateMask g d player0+gateMask g d player1+gateMask g d player2+
    gateMask g d player3 ≡ d.delta.toNat [MOD 2^g.L] := by
  have hroom := g.room
  have hstep : ∀ a b : ℕ, b ≤ 2^g.L → (a+2^g.L-b)%2^g.L+b ≡ a [MOD 2^g.L] := by
    intro a b hb
    have h1 : (a+2^g.L-b)%2^g.L+b ≡ a+2^g.L-b+b [MOD 2^g.L] := (Nat.mod_modEq _ _).add_right b
    rw [show a+2^g.L-b+b = a+2^g.L by omega] at h1
    exact h1.trans (by simp [Nat.ModEq])
  have b0 := d.d0.isLt
  have b1 := d.d1.isLt
  have b2 := d.d2.isLt
  have e2 := hstep (((d.delta.toNat+2^g.L-d.d0.toNat)%2^g.L+2^g.L-d.d1.toNat)%2^g.L) d.d2.toNat
    (by omega)
  have e1 := hstep ((d.delta.toNat+2^g.L-d.d0.toNat)%2^g.L) d.d1.toNat (by omega)
  have e0 := hstep d.delta.toNat d.d0.toNat (by omega)
  have h21 := (e2.add_right d.d1.toNat).trans e1
  have h210 := (h21.add_right d.d0.toNat).trans e0
  simp only [gateMask]
  convert h210 using 1
  ring

lemma gateOpen_gate1 (R : Party → ℕ) (is_rep : Bool) (p : Party) :
    gateOpen g (gate1 g d R is_rep) p = (gateSum R is_rep+d.delta.toNat)%2^g.L := by
  rw [gateOpen_eq]
  have hm := gateMask_sum (g := g) (d := d)
  have hmod : ∀ a, a%2^g.L ≡ a [MOD 2^g.L] := fun a => Nat.mod_modEq a _
  have hsum : gate1 g d R is_rep player0+gate1 g d R is_rep player1+gate1 g d R is_rep player2+
      gate1 g d R is_rep player3 ≡ gateSum R is_rep+(gateMask g d player0+gateMask g d player1+
        gateMask g d player2+gateMask g d player3) [MOD 2^g.L] := by
    cases is_rep
    · have h := (((hmod (R player0+gateMask g d player0)).add
        (hmod (R player1+gateMask g d player1))).add
        (hmod (R player2+gateMask g d player2))).add (hmod (R player3+gateMask g d player3))
      have he : gateSum R false+(gateMask g d player0+gateMask g d player1+gateMask g d player2+
          gateMask g d player3) = R player0+gateMask g d player0+(R player1+gateMask g d player1)+
            (R player2+gateMask g d player2)+(R player3+gateMask g d player3) := by
        simp only [gateSum, Bool.false_eq_true, if_false]
        ring
      rw [he]
      exact h
    · have h := (((hmod (R player0+gateMask g d player0)).add
        (hmod (gateMask g d player1))).add
        (hmod (R player2+gateMask g d player2))).add (hmod (gateMask g d player3))
      have he : gateSum R true+(gateMask g d player0+gateMask g d player1+gateMask g d player2+
          gateMask g d player3) = R player0+gateMask g d player0+gateMask g d player1+
            (R player2+gateMask g d player2)+gateMask g d player3 := by
        simp only [gateSum, if_true]
        ring
      rw [he]
      exact h
  exact hsum.trans (hm.add_left _)

def gateBit (g : Gate) (S : ℕ) : Word := if g.top ≤ S%2^g.L then 1 else 0

lemma evalGate_sub {a : BitVec 64} (k : LtDraw) {x : ℕ} (hx : x < 2^g.L) (ha : a.toNat < 2^g.L) :
    evalGate g d (genLt (gateAccess g d) a k).1 x-evalGate g d (genLt (gateAccess g d) a k).2 x =
      if x < a.toNat then 1 else 0 := by
  have hle := Nat.pow_le_pow_right (n := 2) (by norm_num) g.le
  have hroom := g.room
  have hpos : 0 < g.L := by
    by_contra h0
    rw [show g.L = 0 by omega] at hroom
    omega
  have hx64 : (BitVec.ofNat 64 x).toNat%2^g.L = x := by
    rw [BitVec.toNat_ofNat, Nat.mod_eq_of_lt (by omega : x < 2^64), Nat.mod_eq_of_lt hx]
  have h : evaluateLt (gateAccess g d) (genLt (gateAccess g d) a k).1 (BitVec.ofNat 64 x)
      -evaluateLt (gateAccess g d) (genLt (gateAccess g d) a k).2 (BitVec.ofNat 64 x) =
      if (BitVec.ofNat 64 x).toNat%2^g.L < a.toNat%2^g.L then 1 else 0 :=
    evaluateLt_sub hpos g.le (BitVec.ofNat 64 x)
  rw [hx64, Nat.mod_eq_of_lt ha] at h
  have hcut : ∀ u v : BitVec 64, u.setWidth 32-v.setWidth 32 = (u-v).setWidth 32 := by
    intro u v
    bv_omega
  rw [evalGate, evalGate, hcut, h]
  split <;> rfl

/-- A masked value modulo `2^L` is below the mask when it has wrapped around, and the second
comparison tells whether the threshold was passed before. -/
lemma mask_threshold {L δ top S x : ℕ} (hδ : δ < 2^L) (hroom : δ+top ≤ 2^L) (hx : x = (S+δ)%2^L) :
    (if x < δ then 1 else 0)+1-(if x < δ+top then 1 else 0) =
      (if top ≤ S%2^L then 1 else 0 : Word) := by
  rw [Nat.add_mod, Nat.mod_eq_of_lt hδ] at hx
  have hy := Nat.mod_lt S (Nat.two_pow_pos L)
  by_cases hwrap : S%2^L+δ < 2^L
  · rw [Nat.mod_eq_of_lt hwrap] at hx
    rw [if_neg (by omega : ¬x < δ)]
    by_cases hbit : top ≤ S%2^L
    · rw [if_neg (by omega), if_pos hbit]; rfl
    · rw [if_pos (by omega), if_neg hbit]; rfl
  · rw [Nat.mod_eq_sub_mod (by omega), Nat.mod_eq_of_lt (by omega)] at hx
    rw [if_pos (by omega : x < δ), if_pos (by omega), if_pos (by omega)]
    rfl

/-- The four evaluations combine to the bit. -/
lemma gate_bit {x : ℕ} (hx : x = (S+d.delta.toNat)%2^g.L) :
    let k := gateKeys g d
    evalGate g d k.lt_00 x-evalGate g d k.lt_01 x+1-(evalGate g d k.lt_10 x-evalGate g d k.lt_11 x) =
      gateBit g S := by
  have hroom := g.room
  have hle := Nat.pow_le_pow_right (n := 2) (by norm_num) g.le
  have hδ := d.delta.isLt
  have h0 : (d.delta.zeroExtend 64).toNat = d.delta.toNat :=
    BitVec.toNat_setWidth_of_le (by norm_num)
  have h1 : (d.delta.zeroExtend 64+BitVec.ofNat 64 g.top).toNat = d.delta.toNat+g.top := by
    rw [BitVec.toNat_add, h0, BitVec.toNat_ofNat]
    omega
  have hxlt : x < 2^g.L := hx ▸ Nat.mod_lt _ (Nat.two_pow_pos _)
  have e0 := evalGate_sub (g := g) (d := d) d.key0 hxlt (h0 ▸ by omega : (d.delta.zeroExtend 64).toNat < _)
  have e1 := evalGate_sub (g := g) (d := d) d.key1 hxlt
    (h1 ▸ by omega : (d.delta.zeroExtend 64+BitVec.ofNat 64 g.top).toNat < _)
  rw [h0] at e0
  rw [h1] at e1
  simp only [gateKeys, e0, e1, gateBit]
  exact mask_threshold (by omega) (by omega) hx

theorem gate2_open (R : Party → ℕ) (is_rep : Bool) :
    open4 (gate2 g d (gate1 g d R is_rep)) = gateBit g (gateSum R is_rep) := by
  have h := gate_bit (g := g) (d := d) (S := gateSum R is_rep) rfl
  rw [← h]
  simp only [open4, gate2, gateOpen_gate1, GateKeys.mks]
  ring

theorem gate2Reduce_open (R : Party → ℕ) (is_rep : Bool) :
    let b := gate2Reduce g d (gate1 g d R is_rep)
    Replicated b ∧ openRep b = gateBit g (gateSum R is_rep) := by
  have h := gate_bit (g := g) (d := d) (S := gateSum R is_rep) rfl
  rw [← h]
  simp only [Replicated, openRep, gate2Reduce, gate2, gateOpen_gate1, GateKeys.mks, GateKeys.mhelp]
  refine ⟨⟨?_,?_⟩,?_⟩ <;> ring

/-- In the diagonal variant the parties of a diagonal hold the same share. -/
theorem gate2Diag_open (R : Party → ℕ) (is_rep : Bool) :
    let b := gate2Diag g d (gate1 g d R is_rep)
    b player0 = b player2 ∧ b player1 = b player3 ∧
      b player0+b player1 = gateBit g (gateSum R is_rep) := by
  have h := gate_bit (g := g) (d := d) (S := gateSum R is_rep) rfl
  rw [← h]
  simp only [gate2Diag, gateOpen_gate1, GateKeys.mksDiag, GateKeys.mhelpDiag]
  refine ⟨?_,?_,?_⟩ <;> ring

end spec

/-! ## Conversion to replicated shares -/

/-- The three random words of a zero sharing. -/
structure ZeroDraw where
  r0 : Word
  r1 : Word
  r2 : Word

/-- `fourpc_zeroshare` -/
def zeroShare (d : ZeroDraw) : Party → Word
  | player0 => d.r0
  | player1 => d.r1
  | player2 => d.r2
  | player3 => 0-d.r0-d.r1-d.r2

/-- `fourpc_share_2_replicated_share` -/
def toReplicated (d : ZeroDraw) (data : Party → Word) : Party → Word :=
  twopcReveal fun p => data p+zeroShare d p

lemma toReplicated_rep (d : ZeroDraw) (data : Party → Word) : Replicated (toReplicated d data) :=
  ⟨add_comm _ _,add_comm _ _⟩

@[simp] lemma toReplicated_open (d : ZeroDraw) (data : Party → Word) :
    openRep (toReplicated d data) = open4 data := by
  simp only [openRep, toReplicated, twopcReveal, twopcRecv, twopc, zeroShare, open4]
  ring

/-! ## Carry and borrow -/

/-- The random values of one `scmp_off`. -/
structure OverflowDraw where
  r : GateDraw
  a : GateDraw
  sum : GateDraw
  zero : ZeroDraw

/-- A share with its part of the surplus `2^32` taken off, modulo `2^33`. -/
def hat (x beta : Word) : ℕ := (x.toNat+2^33-beta.toNat*2^32%2^33)%2^33

def overflowAdd (a b : ℕ) : ℕ := (a+b)%2^33
def overflowSub (a b : ℕ) : ℕ := (a+2^33-b)%2^33

/-- `msb` of a shared word, in width 33. -/
def msbWord (d : GateDraw) (R : Party → Word) : Party → Word :=
  gate2 msb33 d (gate1 msb33 d (fun p => (R p).toNat) false)

def overflow (d : OverflowDraw) (share_cb : ℕ → ℕ → ℕ) (R A : Party → Word) : Party → Word :=
  let betar := msbWord d.r R
  let betaa := msbWord d.a A
  let A_hat p := share_cb (hat (R p) (betar p)) (hat (A p) (betaa p))
  toReplicated d.zero (gate2 msb33 d.sum (gate1 msb33 d.sum A_hat false))

section overflow
variable {d : OverflowDraw} {R A : Party → Word}

lemma toNat_open4 (R : Party → Word) : (open4 R).toNat =
    ((R player0).toNat+(R player1).toNat+(R player2).toNat+(R player3).toNat)%2^32 := by
  simp only [open4, BitVec.toNat_add]
  omega

lemma gateSum_modEq {n : ℕ} {u v : Party → ℕ} (h : ∀ p, u p ≡ v p [MOD n]) :
    gateSum u false ≡ gateSum v false [MOD n] :=
  (((h player0).add (h player1)).add (h player2)).add (h player3)

lemma gateSum_add (u v : Party → ℕ) :
    gateSum (fun p => u p+v p) false = gateSum u false+gateSum v false := by
  simp only [gateSum, Bool.false_eq_true, if_false]
  ring

lemma hat_add (x b : Word) : hat x b+b.toNat*2^32 ≡ x.toNat [MOD 2^33] := by
  have := x.isLt
  unfold hat Nat.ModEq
  omega

/-- Shares without their surplus sum to the shared word, whatever the shares `b` of the bit are. -/
lemma hat_sum_bit {R b : Party → Word}
    (hbit : open4 b = gateBit msb33 (gateSum (fun p => (R p).toNat) false)) :
    gateSum (fun p => hat (R p) (b p)) false%2^33 = (open4 R).toNat := by
  have hsum := gateSum_modEq fun p => hat_add (R p) (b p)
  have hmul : gateSum (fun p => (b p).toNat*2^32) false =
      gateSum (fun p => (b p).toNat) false*2^32 := by
    simp only [gateSum, Bool.false_eq_true, if_false]
    ring
  rw [gateSum_add, hmul, Nat.ModEq] at hsum
  have hb := (toNat_open4 b).symm.trans (congrArg BitVec.toNat hbit)
  have hb' : gateSum (fun p => (b p).toNat) false%2^32 =
      if 2^32 ≤ gateSum (fun p => (R p).toNat) false%2^33 then 1 else 0 := by
    refine hb.trans ?_
    rw [gateBit, apply_ite BitVec.toNat]
    rfl
  have hr : (open4 R).toNat = gateSum (fun p => (R p).toNat) false%2^32 := toNat_open4 R
  rw [hr]
  generalize gateSum (fun p => hat (R p) (b p)) false = H at hsum ⊢
  generalize gateSum (fun p => (b p).toNat) false = B at hsum hb'
  generalize gateSum (fun p => (R p).toNat) false = S at hsum hb' ⊢
  split at hb' <;> omega

lemma hat_sum (g : GateDraw) (R : Party → Word) :
    gateSum (fun p => hat (R p) (msbWord g R p)) false%2^33 = (open4 R).toNat :=
  hat_sum_bit (gate2_open _ _)

lemma overflowAdd_sum (u v : Party → ℕ) : gateSum (fun p => overflowAdd (u p) (v p)) false%2^33 =
    (gateSum u false%2^33+gateSum v false%2^33)%2^33 := by
  have hsum := gateSum_modEq (n := 2^33) fun p => Nat.mod_modEq (u p+v p) (2^33)
  rw [gateSum_add, Nat.ModEq, Nat.add_mod (gateSum u false)] at hsum
  exact hsum

lemma overflowSub_sum (u : Party → ℕ) {v : Party → ℕ} (hv : ∀ p, v p < 2^33) :
    gateSum (fun p => overflowSub (u p) (v p)) false%2^33 =
      (gateSum u false%2^33+2^33-gateSum v false%2^33)%2^33 := by
  have hcb : ∀ p, overflowSub (u p) (v p)+v p ≡ u p [MOD 2^33] := by
    intro p
    have := hv p
    unfold overflowSub Nat.ModEq
    omega
  have hsum := gateSum_modEq hcb
  rw [gateSum_add, Nat.ModEq] at hsum
  omega

lemma overflow_spec (share_cb : ℕ → ℕ → ℕ) {S : ℕ}
    (hS : gateSum (fun p => share_cb (hat (R p) (msbWord d.r R p)) (hat (A p) (msbWord d.a A p)))
      false%2^33 = S) :
    Replicated (overflow d share_cb R A) ∧
      openRep (overflow d share_cb R A) = if 2^32 ≤ S then 1 else 0 := by
  refine ⟨toReplicated_rep _ _,?_⟩
  rw [overflow, toReplicated_open, gate2_open, gateBit]
  simp only [msb33, hS]

/-- The flag of an addition is its carry. -/
theorem overflow_add : Replicated (overflow d overflowAdd R A) ∧
    openRep (overflow d overflowAdd R A) =
      if 2^32 ≤ (open4 R).toNat+(open4 A).toNat then 1 else 0 := by
  have b0 := (open4 R).isLt
  have b1 := (open4 A).isLt
  have hsum := overflowAdd_sum (fun p => hat (R p) (msbWord d.r R p)) fun p =>
    hat (A p) (msbWord d.a A p)
  rw [hat_sum, hat_sum] at hsum
  exact overflow_spec _ (hsum.trans (Nat.mod_eq_of_lt (by omega)))

/-- The flag of a subtraction is its borrow. -/
theorem overflow_sub : Replicated (overflow d overflowSub R A) ∧
    openRep (overflow d overflowSub R A) =
      if (open4 R).toNat < (open4 A).toNat then 1 else 0 := by
  have b0 := (open4 R).isLt
  have b1 := (open4 A).isLt
  have hsum := overflowSub_sum (fun p => hat (R p) (msbWord d.r R p))
    fun p => Nat.mod_lt ((A p).toNat+2^33-(msbWord d.a A p).toNat*2^32%2^33) (by norm_num)
  have hS := hsum.trans (congrArg₂ (fun x y => (x+2^33-y)%2^33) (hat_sum d.r R) (hat_sum d.a A))
  obtain ⟨hrep, hopen⟩ := overflow_spec (d := d) overflowSub hS
  refine ⟨hrep,hopen.trans ?_⟩
  by_cases hlt : (open4 R).toNat < (open4 A).toNat
  · rw [if_pos hlt, if_pos (by omega)]
  · rw [if_neg hlt, if_neg (by omega)]

end overflow

/-! ## Equality -/

/-- Random values of one element of `eq_off`: the keys, the mask and its shares. -/
structure EqDraw where
  f : Fss
  k0 : ServerKeyEq
  k1 : ServerKeyEq
  r_cmpe : Word
  d0 : Word
  d1 : Word
  d2 : Word

def eqMask (d : EqDraw) : Party → Word
  | player0 => d.r_cmpe-d.d0-d.d1-d.d2
  | player1 => d.d0
  | player2 => d.d1
  | player3 => d.d2

/-- `flags` of an odd party: the key's value as a 32-bit word. -/
def evalEqKey (d : EqDraw) (k : ServerKeyEq) (x : Word) : Word :=
  BitVec.ofNat 32 (evaluateEq d.f k (x.zeroExtend 64))

/-- `equal`: the odd parties evaluate, `player3` negates, and both send the result on. -/
def equal (d : EqDraw) (R A : Party → Word) : Party → Word :=
  let tmp := fourpcReveal fun p => R p-A p+eqMask d p
  let flags1 := evalEqKey d d.k0 (tmp player1)
  let flags3 := -evalEqKey d d.k1 (tmp player3)
  fun
  | player0 => flags1
  | player1 => flags1
  | player2 => flags3
  | player3 => flags3

/-- The two keys evaluate to values that differ by one at the mask and agree elsewhere. -/
def EqDraw.Ok (d : EqDraw) : Prop :=
  ∀ x, evalEqKey d d.k0 x-evalEqKey d d.k1 x = if x = d.r_cmpe then 1 else 0

theorem equal_open {d : EqDraw} (h : d.Ok) (R A : Party → Word) :
    Replicated (equal d R A) ∧ openRep (equal d R A) = if open4 R = open4 A then 1 else 0 := by
  refine ⟨⟨rfl,rfl⟩,?_⟩
  have hx : ∀ p, fourpcReveal (fun p => R p-A p+eqMask d p) p = open4 R-open4 A+d.r_cmpe := by
    intro p
    rw [fourpcReveal_eq]
    simp only [open4, eqMask]
    ring
  have hiff : open4 R-open4 A+d.r_cmpe = d.r_cmpe ↔ open4 R = open4 A := by
    rw [add_eq_right, sub_eq_zero]
  have hk := h (open4 R-open4 A+d.r_cmpe)
  simp only [hiff] at hk
  simp only [openRep, equal, hx, ← sub_eq_add_neg, hk]

end OramPro
