import OramPro.SpdzXorRun

/-!
# From arithmetic to binary sharings

`Audit_AY` for the 32-bit adder. A value modulo `q` is opened minus one, and the garbled adder adds
a shared one to the low bits of what was opened.
-/
namespace OramPro.Audit

open SPDZ SPDZXOR

/-- The garbled adder after `offline`: the mask bytes of the parties for input `j` of instance `i`,
and `online`, from the masked inputs at each party to the output shares. -/
structure Bmr where
  maskbits : ℕ → ℕ → ℕ → Byte
  online : (ℕ → ℕ → ℕ → Byte) → ℕ → ℕ → ℕ → Byte

/-- The garbled evaluation adds: where every party has the masked bits of `x` and `y`, the outputs
are shares of the bits of `x+y`. -/
def Bmr.Adds (bmr : Bmr) (Ps : List ℕ) (lens : ℕ) : Prop :=
  ∀ (x y : ℕ → BitVec 32) (Lambda : ℕ → ℕ → ℕ → Byte),
    (∀ p ∈ Ps, ∀ i < lens, ∀ j < 32,
      Lambda p i j = byte ((x i).getLsbD j)^^^xorOver Ps (fun q => bmr.maskbits q i j) ∧
      Lambda p i (32+j) = byte ((y i).getLsbD j)^^^xorOver Ps fun q => bmr.maskbits q i (32+j)) →
    ∀ i < lens, ∀ j < 32,
      (xorOver Ps fun p => bmr.online Lambda p i j) = byte ((x i+y i).getLsbD j)

/-- `SPDZ::neg`. -/
def neg (COM : Commitment) (a : List Amaterial) : List Amaterial :=
  a.map fun z => ⟨COM.q-z.m,COM.q-z.r,COM.prime-z.c⟩

/-- The seeds of `offline`, and the randomness of the shared one. -/
structure AuditDraw where
  rr : ℕ → ℕ → Byte
  seed : ℕ → ℕ → ℕ → Byte
  seed_r : ℕ → ℕ → ℕ → Byte
  seed_b : ℕ → ℕ → Byte
  seed_r1 : ℕ → ℕ → ℕ → Byte
  seed_r2 : ℕ → ℕ → ℕ → Byte

section
variable (COM : Commitment) (Ps : List ℕ) (d : AuditDraw) (lens : ℕ)

def a_data (p : ℕ) : List Amaterial :=
  SPDZ.share COM Ps 0 (List.replicate lens 1) ((List.range lens).map fun i => randomm (d.rr i) COM.q)
    d.seed d.seed_r p

/-- `b_data`: shares of the 32 bits of one. -/
def b_data (p : ℕ) : List Xmaterial :=
  (List.range (lens*32)).map fun i => SPDZXOR.share COM Ps 0
    ⟨if i%32 = 0 then 1 else 0,if i%32 = 0 then (11,23141) else (12312,23141),d.seed_b i,
      d.seed_r1 i,d.seed_r2 i⟩ p

variable (bmr : Bmr) (A_data : ℕ → List Amaterial)

def revealed_data : List ℕ :=
  (SPDZ.reveal COM Ps 0 fun p => SPDZ.add COM (A_data p) (neg COM (a_data COM Ps d lens p))).res

/-- What party `p` computes and broadcasts for input `j` of instance `i`. -/
def temps (p i j : ℕ) : Byte :=
  if j < 32 then
    if p = 0 then
      bmr.maskbits p i j^^^byte (((revealed_data COM Ps d lens A_data).getD i 0).testBit j)
    else bmr.maskbits p i j
  else bmr.maskbits p i j^^^((b_data COM Ps d lens p).getD (i*32+(j-32)) default).b%2

def Lambda_bits (p i j : ℕ) : Byte :=
  (Ps.filter (· ≠ p)).foldl (fun v p' => v^^^temps COM Ps d lens bmr A_data p' i j)
    (temps COM Ps d lens bmr A_data p i j)

/-- `transfer` after `offline(lens)`: output `j` of instance `i` at party `p`. -/
def transfer (p i j : ℕ) : Byte := bmr.online (Lambda_bits COM Ps d lens bmr A_data) p i j

end

section
variable {COM : Commitment} {Ps : List ℕ} {d : AuditDraw} {bmr : Bmr} {A_data : ℕ → List Amaterial}

lemma temp_eq [NeZero COM.q] {p : ℕ} (hlen : (A_data p).length = 1) :
    ∃ r c, SPDZ.add COM (A_data p) (neg COM (a_data COM Ps d 1 p)) =
      [⟨(((A_data p).getD 0 default).m+(COM.q-add_share COM Ps 0 (d.seed 0) 1 p))%COM.q,r%COM.q,c⟩] := by
  simp only [SPDZ.add, hlen, List.range_one, List.map_cons, List.map_nil, neg, a_data, SPDZ.share,
    List.length_replicate]
  exact ⟨_,_,rfl⟩

/-- The vector that a party broadcasts when `player0` opens starts with its share of the value. -/
lemma sent_head [NeZero COM.q] {p : ℕ} (hlen : (A_data p).length = 1) :
    let z := SPDZ.add COM (A_data p) (neg COM (a_data COM Ps d 1 p))
    0 < (z.map Amaterial.m++z.map Amaterial.r).length ∧
      (z.map Amaterial.m++z.map Amaterial.r).getD 0 0 =
        (((A_data p).getD 0 default).m+(COM.q-add_share COM Ps 0 (d.seed 0) 1 p))%COM.q := by
  obtain ⟨r, c, h⟩ := @temp_eq COM Ps d A_data _ _ hlen
  simp only [h]
  exact ⟨Nat.two_pos,rfl⟩

lemma sub_share_cast [NeZero COM.q] (hq1 : 1 < COM.q) (m p : ℕ) :
    (((m+(COM.q-add_share COM Ps 0 (d.seed 0) 1 p))%COM.q : ℕ) : ZMod COM.q) =
      m-add_share COM Ps 0 (d.seed 0) 1 p := by
  rw [ZMod.natCast_mod, Nat.cast_add, Nat.cast_sub (add_share_lt (d.seed 0) hq1 p).le,
    ZMod.natCast_self, zero_sub, sub_eq_add_neg]

/-- What `player0` opens: the shared value minus one, modulo `q`. -/
lemma revealed_one [NeZero COM.q] (hq : COM.q < 2^64) (hq1 : 1 < COM.q) (hnd : Ps.Nodup) (h0 : 0 ∈ Ps)
    (hlen : ∀ p ∈ Ps, (A_data p).length = 1) {x : ℕ}
    (hsum : (total Ps fun p => (((A_data p).getD 0 default).m : ZMod COM.q)) = x) :
    revealed_data COM Ps d 1 A_data = [(x+(COM.q-1))%COM.q] := by
  have hpos := NeZero.pos COM.q
  have hreveal : ∀ z : ℕ → List Amaterial, (z 0).length = 1 → (SPDZ.reveal COM Ps 0 z).res =
      [add_reveal COM Ps 0 (fun p => (z p).map Amaterial.m++(z p).map Amaterial.r) 0] := by
    intro z hz
    simp only [SPDZ.reveal, hz, List.range_one, List.map_cons, List.map_nil]
  obtain ⟨r, c, hown⟩ := @temp_eq COM Ps d A_data _ _ (hlen 0 h0)
  rw [revealed_data, hreveal _ (by rw [hown]; rfl), List.cons.injEq]
  have hsent := fun p hp => @sent_head COM Ps d A_data _ p (hlen p hp)
  refine ⟨add_reveal_eq hq hnd h0 (fun p hp => (hsent p hp).1) (fun p hp => ?_) (Nat.mod_lt _ hpos) ?_,rfl⟩
  · rw [(hsent p hp).2]
    exact Nat.mod_lt _ hpos
  · have hcast : ∀ p ∈ Ps, (((SPDZ.add COM (A_data p) (neg COM (a_data COM Ps d 1 p))).map
        Amaterial.m++(SPDZ.add COM (A_data p) (neg COM (a_data COM Ps d 1 p))).map
          Amaterial.r).getD 0 0 : ZMod COM.q) =
        (((A_data p).getD 0 default).m : ZMod COM.q)-add_share COM Ps 0 (d.seed 0) 1 p := by
      intro p hp
      rw [(hsent p hp).2]
      exact sub_share_cast hq1 _ p
    rw [total_congr hcast, total_sub, hsum, add_share_total hnd h0, ZMod.natCast_mod, Nat.cast_add,
      Nat.cast_sub hq1.le, ZMod.natCast_self, zero_sub, Nat.cast_one, sub_eq_add_neg]

lemma mod_two (v : Byte) : v%2 = v&&&1 := BitVec.eq_of_toNat_eq (by simp [Nat.and_one_is_mod])

lemma xorOver_mod_two (f : ℕ → Byte) : (xorOver Ps fun p => f p%2) = xorOver Ps f%2 := by
  refine BitVec.eq_of_getLsbD_eq fun j _ => ?_
  simp only [xorOver_bit, mod_two, BitVec.getLsbD_and]
  exact List.sum_map_mul_right Ps (fun p => (f p).getLsbD j) ((1 : Byte).getLsbD j)

/-- The public masked inputs: the opened number and the bits of one. -/
lemma Lambda_one (hnd : Ps.Nodup) (h0 : 0 ∈ Ps) {v p j : ℕ} (hp : p ∈ Ps) (hj : j < 32)
    (hv : revealed_data COM Ps d 1 A_data = [v]) :
    Lambda_bits COM Ps d 1 bmr A_data p 0 j =
        byte ((BitVec.ofNat 32 v).getLsbD j)^^^xorOver Ps (fun q => bmr.maskbits q 0 j) ∧
      Lambda_bits COM Ps d 1 bmr A_data p 0 (32+j) =
        byte ((1 : BitVec 32).getLsbD j)^^^xorOver Ps fun q => bmr.maskbits q 0 (32+j) := by
  have hbit : (BitVec.ofNat 32 v).getLsbD j = v.testBit j := by
    rw [BitVec.getLsbD_ofNat, decide_eq_true hj, Bool.true_and]
  have hplace : ¬32+j < 32 := by omega
  constructor
  · rw [Lambda_bits, foldl_others_byte hnd hp, BitVec.xor_comm, ← xorOver_flap hnd h0, hbit]
    refine xorOver_congr fun q _ => ?_
    simp only [temps, hj, hv, if_true, List.getD_cons_zero]
  · have htemp : ∀ q, temps COM Ps d 1 bmr A_data q 0 (32+j) = bmr.maskbits q 0 (32+j)^^^
        add_share_byte Ps 0 (d.seed_b j) (if j%32 = 0 then 1 else 0) q%2 := by
      intro q
      simp [temps, b_data, SPDZXOR.share, hj]
    have hone : (if j%32 = 0 then 1 else 0 : Byte)%2 = byte ((1 : BitVec 32).getLsbD j) := by
      have hlow : (1 : BitVec 32).getLsbD j = decide (j = 0) :=
        BitVec.getLsbD_one.trans (Bool.and_eq_right_iff_imp.mpr fun _ => rfl)
      rw [Nat.mod_eq_of_lt hj, hlow]
      by_cases hj0 : j = 0
      · simp [hj0, byte]
      · simp [hj0, byte]
    rw [Lambda_bits, foldl_others_byte hnd hp, xorOver_congr fun q _ => htemp q, xorOver_xor,
      xorOver_mod_two, add_share_byte_total hnd h0, hone, BitVec.xor_comm]

lemma transfer_bits (hq : COM.q = 4294967311) (hnd : Ps.Nodup) (h0 : 0 ∈ Ps)
    (hbmr : bmr.Adds Ps 1) (hlen : ∀ p ∈ Ps, (A_data p).length = 1) {x : ℕ}
    (hsum : (total Ps fun p => (((A_data p).getD 0 default).m : ZMod COM.q)) = x) :
    ∃ v, v = (x+4294967310)%4294967311 ∧ ∀ j < 32,
      (xorOver Ps fun p => transfer COM Ps d 1 bmr A_data p 0 j) =
        byte ((BitVec.ofNat 32 v+1).getLsbD j) := by
  have : NeZero COM.q := ⟨by rw [hq]; norm_num⟩
  have hv := revealed_one (d := d) (by rw [hq]; norm_num) (by rw [hq]; norm_num) hnd h0 hlen hsum
  refine ⟨(x+(COM.q-1))%COM.q,by rw [hq],fun j hj => ?_⟩
  refine hbmr (fun _ => BitVec.ofNat 32 _) (fun _ => 1) _ (fun p hp i hi k hk => ?_) 0 Nat.one_pos j hj
  obtain rfl : i = 0 := by omega
  exact Lambda_one hnd h0 hp hk hv

/-- The returned bits are the digits of the shared number unless it is zero: minus one modulo `q`
and plus one modulo `2^32` cancel for every other number. -/
theorem transfer_exact_iff (hq : COM.q = nextprime (2^32)) (hnd : Ps.Nodup) (h0 : 0 ∈ Ps)
    (hbmr : bmr.Adds Ps 1) (hlen : ∀ p ∈ Ps, (A_data p).length = 1) {x : ℕ} (hx : x < 2^32)
    (hsum : (total Ps fun p => (((A_data p).getD 0 default).m : ZMod COM.q)) = x) :
    (∀ j < 32, (xorOver Ps fun p => transfer COM Ps d 1 bmr A_data p 0 j) = byte (x.testBit j)) ↔
      x ≠ 0 := by
  rw [nextprime_field] at hq
  obtain ⟨v, hvx, hout⟩ := transfer_bits (d := d) hq hnd h0 hbmr hlen hsum
  constructor
  · rintro h rfl
    have hmax : v = 4294967310 := by omega
    have hfifteen : BitVec.ofNat 32 v+1 = 15 := by rw [hmax]; rfl
    have h1 := (hout 1 (by norm_num)).symm.trans (h 1 (by norm_num))
    rw [hfifteen] at h1
    exact absurd h1 (by decide)
  · intro hx0 j hj
    have hval : v = x-1 := by omega
    have hback : BitVec.ofNat 32 (x-1)+1 = BitVec.ofNat 32 x := by
      refine (BitVec.ofNat_add (x-1) 1).symm.trans ?_
      rw [Nat.sub_add_cancel (by omega)]
    rw [hout j hj, hval, hback, BitVec.getLsbD_ofNat, decide_eq_true hj, Bool.true_and]

end

/-! ## Two parties -/

/-- The word whose bit `j` is the lowest bit of byte `k+j`. -/
def readWord (f : ℕ → Byte) (k : ℕ) : BitVec 32 :=
  BitVec.ofFnLE fun j : Fin 32 => (f (k+j)).getLsbD 0

/-- An evaluation that adds in the clear at `player0`; all masks are one, shared as `3` and `2`. -/
def clearBmr : Bmr where
  maskbits p _ _ := if p = 0 then 3 else 2
  online Lambda p i j :=
    if p = 0 then
      byte ((readWord (fun j => Lambda 0 i j^^^1) 0+readWord (fun j => Lambda 0 i j^^^1) 32).getLsbD j)
    else 0

lemma clearBmr_adds : clearBmr.Adds [0,1] 1 := by
  intro x y Lambda h i hi j hj
  have hmask : xorOver [0,1] (fun q => if q = 0 then (3 : Byte) else 2) = 1 := by decide
  have hread : ∀ (z : BitVec 32) (k : ℕ), (∀ m < 32, Lambda 0 i (k+m) = byte (z.getLsbD m)^^^1) →
      readWord (fun j => Lambda 0 i j^^^1) k = z := by
    intro z k hz
    refine BitVec.eq_of_getLsbD_eq fun m hm => ?_
    rw [readWord, BitVec.getLsbD_ofFnLE, dif_pos hm, hz m hm, BitVec.xor_assoc, BitVec.xor_self,
      BitVec.xor_zero]
    cases z.getLsbD m <;> rfl
  have hx := hread (x i) 0 fun m hm => by
    rw [Nat.zero_add, (h 0 (by decide) i hi m hm).1]
    exact congrArg _ hmask
  have hy := hread (y i) 32 fun m hm => by
    rw [(h 0 (by decide) i hi m hm).2]
    exact congrArg _ hmask
  have hshares : (xorOver [0,1] fun p => clearBmr.online Lambda p i j) =
      clearBmr.online Lambda 0 i j := by
    simp [xorOver, clearBmr]
  rw [hshares]
  simp only [clearBmr, if_true, hx, hy]

/-- Two parties with the shares `x-5` and `5`. -/
def twoShares (x p : ℕ) : List Amaterial := [⟨if p = 0 then (x+4294967306)%4294967311 else 5,0,0⟩]

def zeroDraw : AuditDraw :=
  ⟨fun _ _ => 0,fun _ _ _ => 0,fun _ _ _ => 0,fun _ _ => 0,fun _ _ _ => 0,fun _ _ _ => 0⟩

lemma twoShares_sum (x : ℕ) :
    (total [0,1] fun p => (((twoShares x p).getD 0 default).m : ZMod oneCom.q)) = x := by
  have hshares : (total [0,1] fun p => (((twoShares x p).getD 0 default).m : ZMod oneCom.q)) =
      ((x+4294967306)%oneCom.q : ℕ)+((5 : ℕ)+0) := by
    simp only [total, List.map_cons, List.map_nil, List.sum_cons, List.sum_nil, twoShares,
      List.getD_cons_zero, if_true, one_ne_zero, if_false]
    rfl
  have hsum : x+4294967306+5 = x+oneCom.q := by
    change x+4294967306+5 = x+4294967311
    omega
  rw [hshares, ZMod.natCast_mod, add_zero, ← Nat.cast_add, hsum, Nat.cast_add, ZMod.natCast_self,
    add_zero]

theorem transfer_exact_seven :
    ((List.range 32).map fun j =>
      xorOver [0,1] fun p => transfer oneCom [0,1] zeroDraw 1 clearBmr (twoShares 7) p 0 j) =
      (List.range 32).map fun j => byte ((7 : ℕ).testBit j) := by
  have h := (transfer_exact_iff (d := zeroDraw) nextprime_field.symm (by decide) (by decide) clearBmr_adds
    (fun _ _ => rfl) (by norm_num) (twoShares_sum 7)).mpr (by decide)
  exact List.map_congr_left fun j hj => h j (List.mem_range.mp hj)

/-- The shared zero comes back as fifteen. -/
theorem transfer_zero_wrong :
    let out := fun j =>
      xorOver [0,1] fun p => transfer oneCom [0,1] zeroDraw 1 clearBmr (twoShares 0) p 0 j
    (∀ j < 32, out j = byte ((15 : ℕ).testBit j)) ∧ ¬∀ j < 32, out j = byte ((0 : ℕ).testBit j) := by
  intro out
  obtain ⟨v, hv, hout⟩ := transfer_bits (d := zeroDraw) rfl (by decide) (by decide)
    clearBmr_adds (fun _ _ => rfl) (twoShares_sum 0)
  have hmax : v = 4294967310 := by omega
  have hfifteen : BitVec.ofNat 32 v+1 = BitVec.ofNat 32 15 := by rw [hmax]; rfl
  have hall : ∀ j < 32, out j = byte ((15 : ℕ).testBit j) := by
    intro j hj
    rw [show out j = _ from hout j hj, hfifteen, BitVec.getLsbD_ofNat, decide_eq_true hj,
      Bool.true_and]
  refine ⟨hall,fun hzero => ?_⟩
  exact absurd ((hall 0 (by norm_num)).symm.trans (hzero 0 (by norm_num))) (by decide)

end OramPro.Audit
