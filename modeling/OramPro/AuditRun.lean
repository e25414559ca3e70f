import OramPro.AuditTransfer
import OramPro.BmrBatchRun
import OramPro.CircuitFiles

/-!
# The audited transfer over its garbled adder

`Audit_AY::offline(1)` and `transfer`, with `BMR` on `add_32.txt` for the addition: the constructor with
`player0` as the owner, `offline(1)` and `online()`.
-/
namespace OramPro.Audit

open Netlist SPDZ SPDZXOR

section
variable (c : BMR.Config) (hash : BMR.Hash) (db : BMR.BatchDraw)

/-- `maskbits` of the players after `offline(1)`. -/
def maskbits : Except Fault (ℕ → Buf Byte) := do
  let masks ← collect c.players_num fun p =>
    (List.range 1).foldlM (fun s k => Cir.add_32.gates.foldlM (BMR.maskGates p (Cir.add_32.num_gate*k)) s)
      ⟨BMR.startMasks c db p Cir.add_32 1 (some 0),BMR.startAmasks c db p Cir.add_32 1 (some 0)⟩
  return fun p => (masks p).maskbits

/-- `Lambda_bits` with the inputs of one instance. -/
def lambdaBits (Lambda : ℕ → ℕ → Byte) : Buf Byte :=
  ⟨Cir.add_32.num_wire,fun i => if i < Cir.add_32.in_size then Lambda 0 i else 0⟩

/-- The players' `BMR` objects, with the shares of `res`. -/
def garbled (masks : ℕ → Buf Byte) (off : ℕ → BMR.BatchOffline) : Bmr where
  maskbits p i j := (masks p).val (i*Cir.add_32.num_gate+j)
  online Lambda p i j :=
    match BMR.onlineVerify c hash db Cir.add_32 1 off fun p => lambdaBits (Lambda p) with
    | .ok res => (res p).getD (i*32+j) 0
    | .error _ => 0

/-- `offline(1)` and `transfer` of one value at all players, with `res`. -/
def transferRun (COM : Commitment) (d : AuditDraw) (A_data : ℕ → List Amaterial) :
    Except Fault (ℕ → List Byte) := do
  let masks ← maskbits c db
  let off ← BMR.offlineBatch c hash db (some 0) Cir.add_32 1
  BMR.onlineVerify c hash db Cir.add_32 1 off fun p =>
    lambdaBits (Lambda_bits COM c.Pmap d 1 (garbled c hash db masks off) A_data p)

end

section
variable {c : BMR.Config} {hash : BMR.Hash} {db : BMR.BatchDraw}

lemma xorOver_players (f : ℕ → Byte) : xorOver c.Pmap f = xorAll c.players_num f := by
  have hnd : c.Pmap.Nodup := c.perm.nodup_iff.mpr List.nodup_range
  have h0 : 0 ∈ c.Pmap := c.perm.mem_iff.mpr (List.mem_range.mpr c.pos)
  exact (foldl_others_byte hnd h0 f).symm.trans (BMR.foldl_others c c.pos f)

lemma byte_eq_bit (b : Bool) : byte b = BMR.bit b := by cases b <;> rfl

lemma add_topological : Cir.add_32.Topological := Cir.files_topological (by simp [Cir.files])

/-- What the players opened are their masks. -/
lemma maskbits_opened {off : ℕ → BMR.BatchOffline}
    (h : BMR.offlineBatch c hash db (some 0) Cir.add_32 1 = .ok off) :
    ∃ masks, maskbits c db = .ok masks ∧ ∀ p < c.players_num, ∀ i,
      (off p).opened_bits.val i = xorOver c.Pmap fun q => (masks q).val i := by
  obtain ⟨masks, hmasks, h⟩ := ok_of_bind h
  obtain ⟨garbled, -, h⟩ := ok_of_bind h
  obtain rfl := Except.ok.inj h
  refine ⟨fun p => (masks p).maskbits,?_,fun p hp i => ?_⟩
  · rw [maskbits, hmasks]
    rfl
  · rw [xorOver_players]
    exact BMR.foldl_others c hp fun q => (masks q).maskbits.val i

/-- The inputs of the adder. -/
def operands (a b : BitVec 32) (i : ℕ) : Bool := if i < 32 then a.getLsbD i else b.getLsbD (i-32)

lemma operands_loaded (a b : BitVec 32) : Cir.Loaded Cir.add_32 a b (operands a b) where
  first i hi := if_pos hi
  second i _ := by
    have hn : Cir.add_32.n1 = 32 := rfl
    rw [hn, operands, if_neg (by omega), Nat.add_sub_cancel_left]

/-- The evaluation of one instance returns shares of the sum. -/
lemma garbled_sum (h10 : c.players_num ≤ 10) (hash : BMR.Hash) (hR : ∀ p < c.players_num, db.R p ≠ 0) :
    ∃ masks off, maskbits c db = .ok masks ∧
      BMR.offlineBatch c hash db (some 0) Cir.add_32 1 = .ok off ∧
      ∀ (a b : BitVec 32) (Lambda : ℕ → ℕ → ℕ → Byte),
        (∀ p ∈ c.Pmap, ∀ j < 32,
          Lambda p 0 j = byte (a.getLsbD j)^^^xorOver c.Pmap (fun q => (masks q).val j) ∧
          Lambda p 0 (32+j) = byte (b.getLsbD j)^^^xorOver c.Pmap fun q => (masks q).val (32+j)) →
        ∃ res, BMR.onlineVerify c hash db Cir.add_32 1 off (fun p => lambdaBits (Lambda p)) = .ok res ∧
          ∀ j < 32, (xorOver c.Pmap fun p => (res p).getD j 0) = byte ((a+b).getLsbD j) := by
  obtain ⟨off, ob, hoff, hs, hsize, hA⟩ := BMR.offlineBatch_one (c := c) hash db add_topological c.pos
  obtain ⟨masks, hmasks, hopened⟩ := maskbits_opened hoff
  refine ⟨masks,off,hmasks,hoff,fun a b Lambda hLambda => ?_⟩
  have hset : BMR.InputsSet c Cir.add_32 1 (fun _ => operands a b) off fun p => lambdaBits (Lambda p) := by
    intro p hp
    have hmem : p ∈ c.Pmap := c.perm.mem_iff.mpr (List.mem_range.mpr hp)
    refine ⟨(one_mul _).symm,fun k hk i hi => ?_⟩
    obtain rfl : k = 0 := by omega
    have hi64 : i < 64 := hi
    have hinput : (lambdaBits (Lambda p)).val i = Lambda p 0 i := if_pos hi
    rw [zero_mul, zero_add, hopened p hp i, hinput, ← byte_eq_bit]
    simp only [operands]
    split
    · next hlt => exact (hLambda p hmem i hlt).1
    · next hge =>
      have hsecond := (hLambda p hmem (i-32) (by omega)).2
      rwa [Nat.add_sub_cancel' (by omega)] at hsecond
  obtain ⟨res, hrun, hres⟩ := BMR.onlineVerify_one add_topological hs h10 hR hsize hA hset
  refine ⟨res,hrun,fun j hj => ?_⟩
  have hn3 : Cir.add_32.n3 = 32 := rfl
  have hout := hres j (by rw [hn3, one_mul]; exact hj)
  have hplain := Cir.add_computes a b _ (operands_loaded a b) j hj
  rw [xorOver_players, byte_eq_bit, ← hplain]
  refine Option.some_inj.mp (hout.trans ?_)
  simp [BMR.Circuit.plainOutputs, BMR.outWires, hn3, hj]

/-- With at most ten players the transfer of one value returns shares of the low bits of the value, minus one
modulo the prime and plus one modulo `2^32`. -/
theorem transfer_garbled (h10 : c.players_num ≤ 10) (hash : BMR.Hash) (hR : ∀ p < c.players_num, db.R p ≠ 0)
    {COM : Commitment} (hq : COM.q = nextprime (2^32)) (d : AuditDraw) {A_data : ℕ → List Amaterial}
    (hlen : ∀ p ∈ c.Pmap, (A_data p).length = 1) {x : ℕ}
    (hsum : (total c.Pmap fun p => (((A_data p).getD 0 default).m : ZMod COM.q)) = x) :
    ∃ res, transferRun c hash db COM d A_data = .ok res ∧
      (∀ j < 32, (xorOver c.Pmap fun p => (res p).getD j 0) =
        byte ((BitVec.ofNat 32 ((x+(COM.q-1))%COM.q)+1).getLsbD j)) ∧
      (0 < x → x < COM.q → ∀ j < 32, (xorOver c.Pmap fun p => (res p).getD j 0) = byte (x.testBit j)) := by
  have hnd : c.Pmap.Nodup := c.perm.nodup_iff.mpr List.nodup_range
  have h0 : 0 ∈ c.Pmap := c.perm.mem_iff.mpr (List.mem_range.mpr c.pos)
  rw [nextprime_field] at hq
  have : NeZero COM.q := ⟨by rw [hq]; norm_num⟩
  have hv := revealed_one (d := d) (by rw [hq]; norm_num) (by rw [hq]; norm_num) hnd h0 hlen hsum
  obtain ⟨masks, off, hmasks, hoff, honline⟩ := garbled_sum h10 hash hR
  obtain ⟨res, hrun, hres⟩ := honline (BitVec.ofNat 32 ((x+(COM.q-1))%COM.q)) 1
    (fun p => Lambda_bits COM c.Pmap d 1 (garbled c hash db masks off) A_data p) fun p hp j hj => by
      have hone := @Lambda_one COM c.Pmap d (garbled c hash db masks off) A_data hnd h0 _ p j hp hj hv
      simpa only [garbled, zero_mul, zero_add] using hone
  refine ⟨res,?_,hres,fun hpos hlt j hj => ?_⟩
  · rw [transferRun, hmasks, ok_bind, hoff, ok_bind]
    exact hrun
  · have hval : (x+(COM.q-1))%COM.q = x-1 := by
      rw [hq] at hlt ⊢
      omega
    have hback : BitVec.ofNat 32 (x-1)+1 = BitVec.ofNat 32 x := by
      refine (BitVec.ofNat_add (x-1) 1).symm.trans ?_
      rw [Nat.sub_add_cancel hpos]
    rw [hres j hj, hval, hback, BitVec.getLsbD_ofNat, decide_eq_true hj, Bool.true_and]

end

/-- Two players with the shares 2 and 5. -/
theorem transfer_garbled_seven : ∃ res,
    transferRun BMR.twoPlayers (fun k l i j => k ^^^ l ^^^ i ^^^ j) BMR.oneDraw oneCom zeroDraw (twoShares 7) =
      .ok res ∧ ∀ j < 32, (xorOver [0,1] fun p => (res p).getD j 0) = byte ((7 : ℕ).testBit j) := by
  obtain ⟨res, hrun, -, hbits⟩ := transfer_garbled (c := BMR.twoPlayers) (by decide)
    (fun k l i j => k ^^^ l ^^^ i ^^^ j) (fun p _ => BMR.oneDraw_ne_zero p) nextprime_field.symm zeroDraw
    (fun _ _ => rfl) (twoShares_sum 7)
  exact ⟨res,hrun,hbits (by decide) (by decide)⟩

end OramPro.Audit
