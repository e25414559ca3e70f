import OramPro.SpdzInit

/-!
# Shared bits with commitments

`SPDZXOR`: a bit is shared by XOR, its two random numbers additively modulo `q`, and the verifier
has a commitment to both. Bits form the ring in which `xor` is addition.
-/
namespace OramPro.SPDZXOR

open SPDZ

structure Xmaterial where
  b : Byte
  r_plus : ℕ × ℕ
  c : ℕ
  deriving Inhabited, DecidableEq

structure Xortriple where
  a : Xmaterial
  b : Xmaterial
  c : Xmaterial
  deriving Inhabited

/-! ## Commitments to bits -/

section commitment
variable (COM : Commitment)

def comit (m : Byte) (r : ℕ × ℕ) : ℕ := COM.comit (r.1*2+m.toNat) r.2

def decomit (target : ℕ) (m : Byte) (r : ℕ × ℕ) : Bool := COM.decomit target (r.1*2+m.toNat) r.2

/-- `XORCommitment::flap`. -/
def cflap (c1 : ℕ) : ℕ := COM.cadd c1 (COM.comit 1 0)

def add (a b : Xmaterial) : Xmaterial :=
  ⟨a.b^^^b.b,((a.r_plus.1+b.r_plus.1)%COM.q,(a.r_plus.2+b.r_plus.2)%COM.q),COM.cadd a.c b.c⟩

def flap (a : Xmaterial) : Xmaterial :=
  ⟨a.b^^^1,((a.r_plus.1+1)%COM.q,a.r_plus.2),cflap COM a.c⟩

end commitment

/-! ## XOR over the parties -/

/-- All parties' bytes together. -/
def xorOver (Ps : List ℕ) (f : ℕ → Byte) : Byte := Ps.foldl (fun v p => v^^^f p) 0

section xor
variable {Ps : List ℕ}

lemma foldl_xor_bit {α : Type*} (f : α → Byte) (l : List α) (v : Byte) (j : ℕ) :
    (l.foldl (fun v y => v^^^f y) v).getLsbD j =
      v.getLsbD j+(l.map fun y => (f y).getLsbD j).sum := by
  induction l generalizing v with
  | nil => rw [List.foldl_nil, List.map_nil, List.sum_nil, add_zero]
  | cons y l ih =>
    rw [List.foldl_cons, ih, BitVec.getLsbD_xor, List.map_cons, List.sum_cons, ← add_assoc]
    rfl

lemma xorOver_bit (f : ℕ → Byte) (j : ℕ) :
    (xorOver Ps f).getLsbD j = (Ps.map fun p => (f p).getLsbD j).sum := by
  rw [xorOver, foldl_xor_bit]
  have h0 : (0 : Byte).getLsbD j = 0 := BitVec.getLsbD_zero
  rw [h0, zero_add]

lemma lsb_mul (x y : Byte) : (x*y).getLsbD 0 = x.getLsbD 0*y.getLsbD 0 := by
  have hmod : (x*y).toNat%2 = x.toNat%2*(y.toNat%2)%2 := by
    rw [BitVec.toNat_mul, Nat.mod_mod_of_dvd _ (by norm_num), Nat.mul_mod]
  have hx := Nat.mod_two_eq_zero_or_one x.toNat
  have hy := Nat.mod_two_eq_zero_or_one y.toNat
  simp only [BitVec.getLsbD, Nat.testBit_zero, hmod]
  rcases hx with hx | hx <;> rcases hy with hy | hy <;> rw [hx, hy] <;> rfl

end xor

/-! ## Multiplication -/

/-- The shares and triples of a party that calls `mult(a, b)` on vectors of bytes. -/
structure Party where
  a : List Byte
  b : List Byte
  triples : List Xortriple

/-- The same for vectors of `Xmaterial`. -/
structure XParty where
  a : List Xmaterial
  b : List Xmaterial
  triples : List Xortriple

section mult
variable (x : Party)

def alphas_beta (i : ℕ) : Byte :=
  if i < x.a.length then x.a.getD i 0^^^(x.triples.getD i default).a.b
  else x.b.getD (i-x.a.length) 0^^^(x.triples.getD (i-x.a.length) default).b.b

def sent : List Byte := (List.range (2*x.a.length)).map (alphas_beta x)

variable (others : List (List Byte))

def opened (i : ℕ) : Byte := others.foldl (fun v l => v^^^l.getD i 0) (alphas_beta x i)

/-- `y(x-a) + x(y-b) + ab`, without the product of the two differences. -/
def product (i : ℕ) : Byte :=
  x.b.getD i 0*opened x others i^^^x.a.getD i 0*opened x others (i+x.a.length)^^^
    (x.triples.getD i default).c.b

end mult

/-- `mult` on bytes at all parties of `Ps`. -/
def mult (Ps : List ℕ) (x : ℕ → Party) : Option (ℕ → List Byte) :=
  if ∀ p ∈ Ps, (x p).a.length = (x p).b.length ∧ (x p).a.length ≤ (x p).triples.length then
    some fun p =>
      let others := (Ps.filter (· ≠ p)).map fun p' => sent (x p')
      (List.range (x p).a.length).map (product (x p) others)
  else none

def XParty.bytes (x : XParty) : Party := ⟨x.a.map Xmaterial.b,x.b.map Xmaterial.b,x.triples⟩

/-- `mult` on `Xmaterial`: the randomness and the commitment of a product are left at zero. -/
def multX (Ps : List ℕ) (x : ℕ → XParty) : Option (ℕ → List Xmaterial) :=
  (mult Ps fun p => (x p).bytes).map fun out p => (out p).map fun b => ⟨b,(0,0),0⟩

/-! ## What `mult` computes -/

section result
variable (Ps : List ℕ) (x : ℕ → XParty) (N : ℕ)

/-- The shared bit of a family of bytes. -/
def bit (f : ℕ → Byte) : Bool := (xorOver Ps f).getLsbD 0

def xa (i p : ℕ) : Byte := ((x p).a.getD i default).b
def xb (i p : ℕ) : Byte := ((x p).b.getD i default).b
def ta (i p : ℕ) : Byte := ((x p).triples.getD i default).a.b
def tb (i p : ℕ) : Byte := ((x p).triples.getD i default).b.b
def tc (i p : ℕ) : Byte := ((x p).triples.getD i default).c.b

/-- Sharings of `N` pairs of bits and of as many triples. -/
structure Honest : Prop where
  size : ∀ p ∈ Ps, (x p).a.length = N ∧ (x p).b.length = N ∧ N ≤ (x p).triples.length
  triple : ∀ i < N, bit Ps (tc x i) = (bit Ps (ta x i) && bit Ps (tb x i))

end result

section correct
variable {Ps : List ℕ} {x : ℕ → XParty} {N : ℕ}

lemma alphas_beta_eq (hx : Honest Ps x N) {p : ℕ} (hp : p ∈ Ps) {i : ℕ} (hi : i < N) :
    alphas_beta (x p).bytes i = xa x i p^^^ta x i p ∧
      alphas_beta (x p).bytes (i+N) = xb x i p^^^tb x i p := by
  obtain ⟨ha, hb, -⟩ := hx.size p hp
  have hplace : ¬i+N < N := by omega
  simp [alphas_beta, XParty.bytes, ha, hb, hi, hplace, xa, xb, ta, tb]

lemma sent_get (hx : Honest Ps x N) {p : ℕ} (hp : p ∈ Ps) {i : ℕ} (hi : i < N) :
    (sent (x p).bytes).getD i 0 = xa x i p^^^ta x i p ∧
      (sent (x p).bytes).getD (i+N) 0 = xb x i p^^^tb x i p := by
  have hlen : (x p).bytes.a.length = N := by
    rw [XParty.bytes, List.length_map, (hx.size p hp).1]
  have hplace : i < 2*N ∧ i+N < 2*N := by omega
  obtain ⟨ha, hb⟩ := alphas_beta_eq hx hp hi
  simp [sent, hlen, hplace, ha, hb]

lemma foldl_others_bit (hnd : Ps.Nodup) {p : ℕ} (hp : p ∈ Ps) (f : ℕ → Byte) (msg : ℕ → List Byte)
    (k : ℕ) (hget : ∀ p' ∈ Ps, (msg p').getD k 0 = f p') :
    (((Ps.filter (· ≠ p)).map msg).foldl (fun v l => v^^^l.getD k 0) (f p)).getLsbD 0 =
      bit Ps f := by
  rw [foldl_xor_bit, bit, xorOver_bit, ← sum_others hnd hp, List.map_map]
  congr 2
  refine List.map_congr_left fun p' hp' => ?_
  rw [Function.comp_apply, hget p' (List.mem_of_mem_filter hp')]

lemma bit_xor (f g : ℕ → Byte) : (bit Ps fun p => f p^^^g p) = bit Ps f+bit Ps g := by
  rw [bit, bit, bit, xorOver_bit, xorOver_bit, xorOver_bit, ← List.sum_map_add]
  congr 1
  exact List.map_congr_left fun p _ => BitVec.getLsbD_xor

lemma opened_bit (hx : Honest Ps x N) (hnd : Ps.Nodup) {p : ℕ} (hp : p ∈ Ps) {i : ℕ} (hi : i < N) :
    let others := (Ps.filter (· ≠ p)).map fun p' => sent (x p').bytes
    (opened (x p).bytes others i).getLsbD 0 = bit Ps (xa x i)+bit Ps (ta x i) ∧
      (opened (x p).bytes others (i+N)).getLsbD 0 = bit Ps (xb x i)+bit Ps (tb x i) := by
  intro others
  obtain ⟨hA, hB⟩ := alphas_beta_eq hx hp hi
  constructor
  · rw [opened, hA, ← bit_xor]
    exact foldl_others_bit hnd hp _ _ i fun p' hp' => (sent_get hx hp' hi).1
  · rw [opened, hB, ← bit_xor]
    exact foldl_others_bit hnd hp _ _ (i+N) fun p' hp' => (sent_get hx hp' hi).2

def outcome (Ps : List ℕ) (x : ℕ → XParty) (i p : ℕ) : Byte :=
  product (x p).bytes ((Ps.filter (· ≠ p)).map fun p' => sent (x p').bytes) i

/-- The shared product: the product of the two opened bits is missing. -/
lemma outcome_bit (hx : Honest Ps x N) (hnd : Ps.Nodup) {i : ℕ} (hi : i < N) :
    bit Ps (outcome Ps x i) = bit Ps (xa x i)*bit Ps (xb x i)+
      (bit Ps (xa x i)+bit Ps (ta x i))*(bit Ps (xb x i)+bit Ps (tb x i)) := by
  have hbody : ∀ p ∈ Ps, (outcome Ps x i p).getLsbD 0 =
      (xb x i p).getLsbD 0*(bit Ps (xa x i)+bit Ps (ta x i))+
        (xa x i p).getLsbD 0*(bit Ps (xb x i)+bit Ps (tb x i))+(tc x i p).getLsbD 0 := by
    intro p hp
    obtain ⟨ha, hb, -⟩ := hx.size p hp
    obtain ⟨hA, hB⟩ := opened_bit hx hnd hp hi
    have hxa : (x p).bytes.a.getD i 0 = xa x i p := by simp [XParty.bytes, xa, ha, hi]
    have hxb : (x p).bytes.b.getD i 0 = xb x i p := by simp [XParty.bytes, xb, hb, hi]
    have hlen : (x p).bytes.a.length = N := by simp [XParty.bytes, ha]
    rw [outcome, product, hxa, hxb, hlen, BitVec.getLsbD_xor, BitVec.getLsbD_xor, lsb_mul, lsb_mul,
      hA, hB]
    rfl
  have hsum : bit Ps (outcome Ps x i) = bit Ps (xb x i)*(bit Ps (xa x i)+bit Ps (ta x i))+
      bit Ps (xa x i)*(bit Ps (xb x i)+bit Ps (tb x i))+bit Ps (tc x i) := by
    simp only [bit, xorOver_bit]
    rw [List.map_congr_left hbody, List.sum_map_add, List.sum_map_add, List.sum_map_mul_right,
      List.sum_map_mul_right]
    simp only [bit, xorOver_bit]
  rw [hsum, hx.triple i hi]
  cases bit Ps (xa x i) <;> cases bit Ps (xb x i) <;> cases bit Ps (ta x i) <;>
    cases bit Ps (tb x i) <;> rfl

/-- The missing product vanishes only with one of its factors. -/
lemma mul_add_eq_and (x y a b : Bool) : x*y+(x+a)*(y+b) = (x && y) ↔ x = a ∨ y = b := by
  revert x y a b
  decide

/-- Both forms of `mult` return sharings of `x AND y` at exactly those places where one of the two
opened differences is zero. -/
theorem mult_and_iff (hnd : Ps.Nodup) (hx : Honest Ps x N) :
    ∃ out outX, mult Ps (fun p => (x p).bytes) = some out ∧ multX Ps x = some outX ∧
      (∀ p ∈ Ps, (out p).length = N ∧ (outX p).length = N) ∧
      ∀ i < N,
        (bit Ps (fun p => (out p).getD i 0) = (bit Ps (xa x i) && bit Ps (xb x i)) ↔
          bit Ps (xa x i) = bit Ps (ta x i) ∨ bit Ps (xb x i) = bit Ps (tb x i)) ∧
        (bit Ps (fun p => ((outX p).getD i default).b) = (bit Ps (xa x i) && bit Ps (xb x i)) ↔
          bit Ps (xa x i) = bit Ps (ta x i) ∨ bit Ps (xb x i) = bit Ps (tb x i)) := by
  have hassert : ∀ p ∈ Ps, (x p).bytes.a.length = (x p).bytes.b.length ∧
      (x p).bytes.a.length ≤ (x p).bytes.triples.length := by
    intro p hp
    obtain ⟨ha, hb, ht⟩ := hx.size p hp
    simp only [XParty.bytes, List.length_map, ha, hb]
    exact ⟨trivial,ht⟩
  have hout : mult Ps (fun p => (x p).bytes) = some _ := if_pos hassert
  have hlen : ∀ p ∈ Ps, (x p).bytes.a.length = N := fun p hp => by
    rw [XParty.bytes, List.length_map, (hx.size p hp).1]
  refine ⟨_,_,hout,by rw [multX, hout]; rfl,fun p hp => by simp [hlen p hp],fun i hi => ?_⟩
  have hcongr : ∀ f : ℕ → Byte, (∀ p ∈ Ps, f p = outcome Ps x i p) →
      bit Ps f = bit Ps (outcome Ps x i) := by
    intro f hf
    rw [bit, bit, xorOver_bit, xorOver_bit]
    congr 1
    exact List.map_congr_left fun p hp => by rw [hf p hp]
  constructor
  · rw [hcongr _ fun p hp => by simp [hlen p hp, hi, outcome], outcome_bit hx hnd hi]
    exact mul_add_eq_and _ _ _ _
  · rw [hcongr _ fun p hp => by simp [hlen p hp, hi, outcome], outcome_bit hx hnd hi]
    exact mul_add_eq_and _ _ _ _

/-- Two parties that share the bits `x` and `y` and one triple of ones, as `prepare` deals it. -/
def twoParties (x y : Byte) (p : ℕ) : XParty :=
  let deal : Byte → Xmaterial := fun v => ⟨if p = 0 then v^^^5 else 5,(0,0),0⟩
  ⟨[deal x],[deal y],[⟨deal 1,deal 1,deal 1⟩]⟩

lemma twoParties_honest (x y : Byte) : Honest [0,1] (twoParties x y) 1 := by
  refine ⟨fun p _ => ⟨rfl,rfl,le_rfl⟩,fun i hi => ?_⟩
  obtain rfl : i = 0 := by omega
  have hone : bit [0,1] (fun p => if p = 0 then (1 : Byte)^^^5 else 5) = true := by decide
  exact hone.trans (congrArg₂ and hone.symm hone.symm)

theorem mult_and_iff_two : ∃ out, mult [0,1] (fun p => (twoParties 1 0 p).bytes) = some out ∧
    bit [0,1] (fun p => (out p).getD 0 0) = false := by
  obtain ⟨out, _, hout, -, -, h⟩ := mult_and_iff (by decide) (twoParties_honest 1 0)
  exact ⟨out,hout,(h 0 Nat.one_pos).1.mpr (by decide)⟩

/-- `0 AND 0` is returned as one, in both forms. -/
theorem mult_zero_wrong :
    (mult [0,1] fun p => (twoParties 0 0 p).bytes).map
        (fun out => bit [0,1] fun p => (out p).getD 0 0) = some true ∧
      (multX [0,1] (twoParties 0 0)).map
        (fun out => bit [0,1] fun p => ((out p).getD 0 default).b) = some true ∧
      bit [0,1] (xa (twoParties 0 0) 0) = false ∧ bit [0,1] (xb (twoParties 0 0) 0) = false := by
  decide

end correct

end OramPro.SPDZXOR
