import OramPro.FssCommon
import OramPro.Pedersen
import OramPro.XorSum

/-!
# Multiplication of committed shares

`SPDZ::mult`. The values and the randomness of a number are shared additively modulo `q`, and the
verifier has a commitment to both in the integers modulo `prime`. Every party computes from its
own numbers and triples and from the bytes that the others broadcast.
-/
namespace OramPro.SPDZ

/-- `MOD_SUB`, with the precedence of the unparenthesised macro. -/
def modSub (a b pri : ℕ) : ℕ := a+pri-b%pri

/-! ## Commitments -/

structure Commitment where
  prime : ℕ
  q : ℕ
  g : ℕ
  h : ℕ

namespace Commitment
variable (COM : Commitment)

def comit (m r : ℕ) : ℕ := (COM.g^m%COM.prime)*(COM.h^r%COM.prime)%COM.prime

def decomit (target m r : ℕ) : Bool := target == (COM.g^m%COM.prime)*(COM.h^r%COM.prime)%COM.prime

/-- `mpz_invert`. -/
def inv (m : ℕ) : ℕ := ((m : ZMod COM.prime)⁻¹).val

def cadd (c1 c2 : ℕ) : ℕ := c1*c2%COM.prime

def scale (c e : ℕ) : ℕ := c^e%COM.prime

def padd (c p : ℕ) : ℕ := c*COM.comit p 0%COM.prime

end Commitment

/-! ## Shares -/

/-- A party's share; `c` matters at the verifier only. -/
structure Amaterial where
  m : ℕ
  r : ℕ
  c : ℕ
  deriving Inhabited

structure Multtriple where
  a : Amaterial
  b : Amaterial
  c : Amaterial
  deriving Inhabited

/-- What a party has when it calls `mult(a, b)`. -/
structure Party where
  a : List Amaterial
  b : List Amaterial
  triples : List Multtriple

/-- `mpz2byte`: eight bytes for each number, the lowest first. -/
def mpz2byte (source : List ℕ) : List Byte :=
  source.flatMap fun v => (List.range 8).map fun k => BitVec.ofNat 8 (v/256^k)

/-- The number at place `i` of what `byte2mpz` reads. -/
def byte2mpz (source : List Byte) (i : ℕ) : ℕ :=
  (List.range 8).foldl (fun v k => v+(source.getD (8*i+k) 0).toNat*256^k) 0

section mult
variable (COM : Commitment) (x : Party)

/-- The numbers with an index below `2*a.size()`: first those of `a` and the first components of
the triples, then those of `b` and the second ones. -/
def pair (i : ℕ) : Amaterial × Amaterial :=
  if i < x.a.length then (x.a.getD i default,(x.triples.getD i default).a)
  else (x.b.getD (i-x.a.length) default,(x.triples.getD (i-x.a.length) default).b)

def alphas_beta (i : ℕ) : ℕ := modSub (pair x i).1.m (pair x i).2.m COM.q

def alphas_beta_r (i : ℕ) : ℕ := modSub (pair x i).1.r (pair x i).2.r COM.q

def comits (i : ℕ) : ℕ := COM.cadd (pair x i).1.c (COM.inv (pair x i).2.c)

/-- What a party broadcasts. -/
def sent : List Byte :=
  mpz2byte ((List.range (2*x.a.length)).map (alphas_beta COM x)++
    (List.range (2*x.a.length)).map (alphas_beta_r COM x))

variable (others : List (List Byte))

/-- The opened values, from a party's own and what it received. -/
def opened (i : ℕ) : ℕ :=
  others.foldl (fun v l => (v+byte2mpz l i)%COM.q) (alphas_beta COM x i)

def opened_r (i : ℕ) : ℕ :=
  others.foldl (fun v l => (v+byte2mpz l (i+x.a.length*2))%COM.q) (alphas_beta_r COM x i)

def decomits : Bool :=
  (List.range (2*x.a.length)).all fun i =>
    COM.decomit (comits COM x i) (opened COM x others i) (opened_r COM x others i)

/-- Product `i` at a party; only `player1` subtracts the product of the opened values. -/
def product (p i : ℕ) : Amaterial :=
  let a := x.a.getD i default
  let b := x.b.getD i default
  let t := x.triples.getD i default
  let alpha := opened COM x others i
  let beta := opened COM x others (i+x.a.length)
  let m := (b.m*alpha+a.m*beta+t.c.m)%COM.q
  ⟨if p = 1 then modSub m (alpha*beta) COM.q else m,
    (b.r*alpha+a.r*beta+t.c.r)%COM.q,
    COM.cadd (COM.cadd (COM.scale b.c alpha) (COM.scale a.c beta))
      (COM.padd t.c.c (COM.q-(alpha*beta)%COM.q))⟩

/-- What a party has after `mult`, and what it has opened. -/
structure Result where
  res : List Amaterial
  opened : ℕ → ℕ
  decomits : Option Bool

end mult

/-- `mult` at all parties of `Ps`; the verifier prints whether the opened values fit. -/
def mult (COM : Commitment) (Ps : List ℕ) (verifier : ℕ) (x : ℕ → Party) : Option (ℕ → Result) :=
  if ∀ p ∈ Ps, (x p).a.length = (x p).b.length ∧ (x p).a.length ≤ (x p).triples.length then
    some fun p =>
      let others := (Ps.filter (· ≠ p)).map fun p' => sent COM (x p')
      ⟨(List.range (x p).a.length).map (product COM (x p) others p),opened COM (x p) others,
        if p = verifier then some (decomits COM (x p) others) else none⟩
  else none

/-! ## Transport -/

section bytes

lemma mpz2byte_get {l : List ℕ} {i k : ℕ} (hi : i < l.length) (hk : k < 8) :
    (mpz2byte l).getD (8*i+k) 0 = BitVec.ofNat 8 (l.getD i 0/256^k) := by
  induction l generalizing i with
  | nil => simp at hi
  | cons v l ih =>
    rw [mpz2byte, List.flatMap_cons]
    cases i with
    | zero =>
      rw [List.getD_append _ _ _ _ (by simpa using hk)]
      simp [hk]
    | succ i =>
      have hplace : 8*(i+1)+k = 8*i+k+8 := by omega
      rw [List.getD_append_right _ _ _ _ (by simp; omega), hplace]
      simpa [mpz2byte] using ih (by simpa using hi)

/-- Numbers of at most eight bytes arrive as they were sent. -/
lemma byte2mpz_mpz2byte {l : List ℕ} {i : ℕ} (hi : i < l.length) (hsmall : l.getD i 0 < 2^64) :
    byte2mpz (mpz2byte l) i = l.getD i 0 := by
  have hsum : ∀ n ≤ 8, (List.range n).foldl
      (fun v k => v+((mpz2byte l).getD (8*i+k) 0).toNat*256^k) 0 = l.getD i 0%256^n := by
    intro n
    induction n with
    | zero => intro _; simp [Nat.mod_one]
    | succ n ih =>
      intro hn
      rw [List.range_succ, List.foldl_append, ih (by omega), List.foldl_cons, List.foldl_nil,
        mpz2byte_get hi (by omega), BitVec.toNat_ofNat, mul_comm, Nat.mod_pow_succ (b := 256)]
  rw [byte2mpz, hsum 8 le_rfl]
  exact Nat.mod_eq_of_lt hsmall

end bytes

/-! ## Opened values -/

section opening
variable {COM : Commitment} {Ps : List ℕ}

/-- The sum of all shares. -/
def total (Ps : List ℕ) (f : ℕ → ZMod COM.q) : ZMod COM.q := (Ps.map f).sum

lemma total_congr {f g : ℕ → ZMod COM.q} (h : ∀ p ∈ Ps, f p = g p) : total Ps f = total Ps g :=
  congrArg List.sum (List.map_congr_left h)

lemma total_add (f g : ℕ → ZMod COM.q) : (total Ps fun p => f p+g p) = total Ps f+total Ps g :=
  List.sum_map_add

lemma total_sub (f g : ℕ → ZMod COM.q) : (total Ps fun p => f p-g p) = total Ps f-total Ps g := by
  rw [eq_sub_iff_add_eq, ← total_add]
  exact total_congr fun p _ => sub_add_cancel _ _

lemma total_mul (f : ℕ → ZMod COM.q) (v : ZMod COM.q) : (total Ps fun p => f p*v) = total Ps f*v :=
  List.sum_map_mul_right Ps f v

lemma modSub_cast [NeZero COM.q] (a b : ℕ) : ((modSub a b COM.q : ℕ) : ZMod COM.q) = a-b := by
  have hlt := Nat.mod_lt b (NeZero.pos COM.q)
  rw [modSub, Nat.cast_sub (by omega), Nat.cast_add, ZMod.natCast_self, add_zero, ZMod.natCast_mod]

lemma foldl_mod_cast {α : Type*} (f : α → ℕ) (l : List α) (v : ℕ) :
    ((l.foldl (fun v y => (v+f y)%COM.q) v : ℕ) : ZMod COM.q) =
      v+(l.map fun y => (f y : ZMod COM.q)).sum := by
  induction l generalizing v with
  | nil => simp
  | cons y l ih =>
    rw [List.foldl_cons, ih, ZMod.natCast_mod, Nat.cast_add, List.map_cons, List.sum_cons, add_assoc]

lemma foldl_mod_lt {α : Type*} [NeZero COM.q] (f : α → ℕ) {l : List α} (hl : l ≠ []) (v : ℕ) :
    l.foldl (fun v y => (v+f y)%COM.q) v < COM.q := by
  rcases List.eq_nil_or_concat l with rfl | ⟨l, y, rfl⟩
  · exact absurd rfl hl
  · rw [List.concat_eq_append, List.foldl_append]
    exact Nat.mod_lt _ (NeZero.pos COM.q)

lemma sum_others (hnd : Ps.Nodup) {p : ℕ} (hp : p ∈ Ps) {β : Type*} [AddCommMonoid β] (f : ℕ → β) :
    f p+((Ps.filter (· ≠ p)).map f).sum = (Ps.map f).sum := by
  rw [← List.sum_cons, ← List.map_cons]
  exact ((perm_others hnd hp).map f).sum_eq

lemma sum_single (hnd : Ps.Nodup) {p : ℕ} (hp : p ∈ Ps) {β : Type*} [AddCommMonoid β] (v : β) :
    (Ps.map fun p' => if p' = p then v else 0).sum = v := by
  rw [← List.sum_toFinset _ hnd, Finset.sum_ite_eq' Ps.toFinset p, if_pos (List.mem_toFinset.mpr hp)]

lemma opened_cast [NeZero COM.q] (hnd : Ps.Nodup) {p : ℕ} (hp : p ∈ Ps) (f : ℕ → ℕ)
    (recv : List Byte → ℕ) {msg : ℕ → List Byte} (hrecv : ∀ p' ∈ Ps, recv (msg p') = f p') :
    (((((Ps.filter (· ≠ p)).map msg).foldl (fun v l => (v+recv l)%COM.q) (f p) : ℕ)) : ZMod COM.q) =
      total Ps fun p' => (f p' : ZMod COM.q) := by
  rw [foldl_mod_cast, total, ← sum_others hnd hp, List.map_map]
  congr 2
  refine List.map_congr_left fun p' hp' => ?_
  rw [Function.comp_apply, hrecv p' (List.mem_of_mem_filter hp')]

end opening

/-! ## Honest sharings -/

section honest
variable (COM : Commitment) (Ps : List ℕ) (verifier : ℕ)

/-- The shared value and the shared randomness. -/
def openM (z : ℕ → Amaterial) : ZMod COM.q := total Ps fun p => ((z p).m : ZMod COM.q)

def openR (z : ℕ → Amaterial) : ZMod COM.q := total Ps fun p => ((z p).r : ZMod COM.q)

/-- The verifier's commitment opens to the shared value and randomness. -/
def Committed (z : ℕ → Amaterial) : Prop :=
  (z verifier).c = COM.comit (openM COM Ps z).val (openR COM Ps z).val

/-- A difference of shares fits into the eight bytes of the transport. -/
def Small (z : ℕ → Amaterial) : Prop :=
  ∀ p ∈ Ps, (z p).m+COM.q < 2^64 ∧ (z p).r+COM.q < 2^64

instance (z : ℕ → Amaterial) : Decidable (Committed COM Ps verifier z) :=
  inferInstanceAs (Decidable ((z verifier).c = _))

instance (z : ℕ → Amaterial) : Decidable (Small COM Ps z) :=
  inferInstanceAs (Decidable (∀ p ∈ Ps, (z p).m+COM.q < 2^64 ∧ (z p).r+COM.q < 2^64))

/-- The two bases have exponent `q` modulo `prime`. -/
structure Commitment.Ok : Prop where
  prime : 0 < COM.prime
  q : 0 < COM.q
  g : COM.g^COM.q ≡ 1 [MOD COM.prime]
  h : COM.h^COM.q ≡ 1 [MOD COM.prime]

variable (x : ℕ → Party) (N : ℕ)

def xa (i p : ℕ) : Amaterial := (x p).a.getD i default
def xb (i p : ℕ) : Amaterial := (x p).b.getD i default
def ta (i p : ℕ) : Amaterial := ((x p).triples.getD i default).a
def tb (i p : ℕ) : Amaterial := ((x p).triples.getD i default).b
def tc (i p : ℕ) : Amaterial := ((x p).triples.getD i default).c

/-- Honest sharings of `N` numbers `a`, `b` and of as many triples. -/
structure Honest : Prop where
  size : ∀ p ∈ Ps, (x p).a.length = N ∧ (x p).b.length = N ∧ N ≤ (x p).triples.length
  small : ∀ i < N, Small COM Ps (xa x i) ∧ Small COM Ps (xb x i)
  numbers : ∀ i < N, Committed COM Ps verifier (xa x i) ∧ Committed COM Ps verifier (xb x i)
  triples : ∀ i < N, Committed COM Ps verifier (ta x i) ∧ Committed COM Ps verifier (tb x i) ∧
    Committed COM Ps verifier (tc x i)
  triple : ∀ i < N, openM COM Ps (tc x i) = openM COM Ps (ta x i)*openM COM Ps (tb x i)

end honest

section result
variable {COM : Commitment} {Ps : List ℕ} {verifier : ℕ} {x : ℕ → Party} {N : ℕ}

/-- The two numbers behind place `i` of the opened vector. -/
def left (x : ℕ → Party) (N i p : ℕ) : Amaterial := if i < N then xa x i p else xb x (i-N) p
def right (x : ℕ → Party) (N i p : ℕ) : Amaterial := if i < N then ta x i p else tb x (i-N) p

lemma pair_eq (hx : Honest COM Ps verifier x N) {p : ℕ} (hp : p ∈ Ps) (i : ℕ) :
    pair (x p) i = (left x N i p,right x N i p) := by
  rw [pair, (hx.size p hp).1, left, right]
  split <;> rfl

lemma modSub_lt {a b q : ℕ} (h : a+q < 2^64) : modSub a b q < 2^64 := by
  rw [modSub]
  omega

lemma sent_get (hx : Honest COM Ps verifier x N) {p : ℕ} (hp : p ∈ Ps) {i : ℕ} (hi : i < 2*N) :
    byte2mpz (sent COM (x p)) i = alphas_beta COM (x p) i ∧
      byte2mpz (sent COM (x p)) (i+N*2) = alphas_beta_r COM (x p) i := by
  have hlen := (hx.size p hp).1
  have hsmall : (left x N i p).m+COM.q < 2^64 ∧ (left x N i p).r+COM.q < 2^64 := by
    rw [left]
    split
    · exact (hx.small i (by omega)).1 p hp
    · exact (hx.small (i-N) (by omega)).2 p hp
  have hm : ((List.range (2*N)).map (alphas_beta COM (x p))++
      (List.range (2*N)).map (alphas_beta_r COM (x p))).getD i 0 = alphas_beta COM (x p) i := by
    simp [List.getElem?_append, hi]
  have hr : ((List.range (2*N)).map (alphas_beta COM (x p))++
      (List.range (2*N)).map (alphas_beta_r COM (x p))).getD (i+N*2) 0 =
        alphas_beta_r COM (x p) i := by
    have hplace : ¬i+N*2 < 2*N := by omega
    have hrest : i+N*2-2*N = i := by omega
    simp [List.getElem?_append, hi, hplace, hrest]
  constructor
  · rw [sent, hlen, byte2mpz_mpz2byte (by simp; omega), hm]
    rw [hm, alphas_beta, pair_eq hx hp]
    exact modSub_lt hsmall.1
  · rw [sent, hlen, byte2mpz_mpz2byte (by simp; omega), hr]
    rw [hr, alphas_beta_r, pair_eq hx hp]
    exact modSub_lt hsmall.2

def received (COM : Commitment) (Ps : List ℕ) (x : ℕ → Party) (p : ℕ) : List (List Byte) :=
  (Ps.filter (· ≠ p)).map fun p' => sent COM (x p')

lemma opened_eq [NeZero COM.q] (hx : Honest COM Ps verifier x N) (hnd : Ps.Nodup) {p : ℕ}
    (hp : p ∈ Ps) {i : ℕ} (hi : i < 2*N) :
    (opened COM (x p) (received COM Ps x p) i : ZMod COM.q) =
        openM COM Ps (left x N i)-openM COM Ps (right x N i) ∧
      (opened_r COM (x p) (received COM Ps x p) i : ZMod COM.q) =
        openR COM Ps (left x N i)-openR COM Ps (right x N i) := by
  constructor
  · rw [opened, received, opened_cast hnd hp (fun p' => alphas_beta COM (x p') i) (byte2mpz · i)
      fun p' hp' => (sent_get hx hp' hi).1, openM, openM, ← total_sub]
    exact total_congr fun p' hp' => by rw [alphas_beta, pair_eq hx hp', modSub_cast]
  · rw [opened_r, received, (hx.size p hp).1,
      opened_cast hnd hp (fun p' => alphas_beta_r COM (x p') i) (byte2mpz · (i+N*2))
      fun p' hp' => (sent_get hx hp' hi).2, openR, openR, ← total_sub]
    exact total_congr fun p' hp' => by rw [alphas_beta_r, pair_eq hx hp', modSub_cast]

lemma alpha_eq [NeZero COM.q] (hx : Honest COM Ps verifier x N) (hnd : Ps.Nodup) {p : ℕ}
    (hp : p ∈ Ps) {i : ℕ} (hi : i < N) :
    (opened COM (x p) (received COM Ps x p) i : ZMod COM.q) =
      openM COM Ps (xa x i)-openM COM Ps (ta x i) := by
  have h := (opened_eq hx hnd hp (by omega : i < 2*N)).1
  have hl : left x N i = xa x i := funext fun p => if_pos hi
  have hr : right x N i = ta x i := funext fun p => if_pos hi
  rwa [hl, hr] at h

lemma beta_eq [NeZero COM.q] (hx : Honest COM Ps verifier x N) (hnd : Ps.Nodup) {p : ℕ}
    (hp : p ∈ Ps) {i : ℕ} (hi : i < N) :
    (opened COM (x p) (received COM Ps x p) (i+N) : ZMod COM.q) =
      openM COM Ps (xb x i)-openM COM Ps (tb x i) := by
  have h := (opened_eq hx hnd hp (by omega : i+N < 2*N)).1
  have hplace : ¬i+N < N := by omega
  have hl : left x N (i+N) = xb x i := funext fun p => by
    rw [left, if_neg hplace, Nat.add_sub_cancel]
  have hr : right x N (i+N) = tb x i := funext fun p => by
    rw [right, if_neg hplace, Nat.add_sub_cancel]
  rwa [hl, hr] at h

/-- All parties open the same numbers, not only the same residues. -/
lemma opened_same [NeZero COM.q] (hx : Honest COM Ps verifier x N) (hnd : Ps.Nodup) {p p' : ℕ}
    (hp : p ∈ Ps) (hp' : p' ∈ Ps) {i : ℕ} (hi : i < 2*N) :
    opened COM (x p) (received COM Ps x p) i = opened COM (x p') (received COM Ps x p') i := by
  by_cases hne : p = p'
  · rw [hne]
  have hlt : ∀ a b, b ∈ Ps → a ≠ b → opened COM (x a) (received COM Ps x a) i < COM.q := by
    intro a b hb hab
    refine foldl_mod_lt _ (List.ne_nil_of_mem (a := sent COM (x b)) ?_) _
    refine List.mem_map.mpr ⟨b,List.mem_filter.mpr ⟨hb,?_⟩,rfl⟩
    simpa using Ne.symm hab
  have heq := (opened_eq hx hnd hp hi).1.trans (opened_eq hx hnd hp' hi).1.symm
  have hmod := (ZMod.natCast_eq_natCast_iff _ _ _).mp heq
  exact hmod.eq_of_lt_of_lt (hlt p p' hp' hne) (hlt p' p hp (Ne.symm hne))

/-! ### Commitments -/

lemma comit_cast (m r : ℕ) :
    (COM.comit m r : ZMod COM.prime) = Pedersen.com (COM.g : ZMod COM.prime) COM.h m r := by
  simp [Commitment.comit, Pedersen.com]

lemma bases (hok : COM.Ok) :
    (COM.g : ZMod COM.prime)^COM.q = 1 ∧ (COM.h : ZMod COM.prime)^COM.q = 1 := by
  have hg := (ZMod.natCast_eq_natCast_iff _ _ _).mpr hok.g
  have hh := (ZMod.natCast_eq_natCast_iff _ _ _).mpr hok.h
  push_cast at hg hh
  exact ⟨hg,hh⟩

lemma com_eq [NeZero COM.q] (hok : COM.Ok) {m r : ℕ} {v w : ZMod COM.q} (hm : (m : ZMod COM.q) = v)
    (hr : (r : ZMod COM.q) = w) : Pedersen.com (COM.g : ZMod COM.prime) COM.h m r =
      Pedersen.com (COM.g : ZMod COM.prime) COM.h v.val w.val := by
  obtain ⟨hg, hh⟩ := bases hok
  refine Pedersen.com_congr hg hh ?_ ?_
  · rw [← ZMod.natCast_eq_natCast_iff, hm, ZMod.natCast_zmod_val]
  · rw [← ZMod.natCast_eq_natCast_iff, hr, ZMod.natCast_zmod_val]

lemma com_mul_inv [NeZero COM.q] (hok : COM.Ok) (v w : ZMod COM.q) :
    Pedersen.com (COM.g : ZMod COM.prime) COM.h v.val w.val*
      (Pedersen.com (COM.g : ZMod COM.prime) COM.h v.val w.val)⁻¹ = 1 := by
  obtain ⟨hg, hh⟩ := bases hok
  have hzero : ∀ v : ZMod COM.q, v.val+(-v).val ≡ 0 [MOD COM.q] := by
    intro v
    rw [← ZMod.natCast_eq_natCast_iff]
    simp
  exact ZMod.mul_inv_of_unit _ (IsUnit.of_mul_eq_one _
    (Pedersen.com_mul_eq_one hg hh (hzero v) (hzero w)))

/-- The verifier accepts what it opens. -/
lemma decomits_ok [NeZero COM.q] [NeZero COM.prime] (hok : COM.Ok)
    (hx : Honest COM Ps verifier x N) (hnd : Ps.Nodup) (hv : verifier ∈ Ps) :
    decomits COM (x verifier) (received COM Ps x verifier) = true := by
  rw [decomits, (hx.size _ hv).1, List.all_eq_true]
  intro i hi
  have hi := List.mem_range.mp hi
  obtain ⟨hm, hr⟩ := opened_eq hx hnd hv hi
  have hcom : Committed COM Ps verifier (left x N i) ∧ Committed COM Ps verifier (right x N i) := by
    by_cases hlt : i < N
    · have hl : left x N i = xa x i := funext fun p => if_pos hlt
      have hr : right x N i = ta x i := funext fun p => if_pos hlt
      rw [hl, hr]
      exact ⟨(hx.numbers i hlt).1,(hx.triples i hlt).1⟩
    · have hl : left x N i = xb x (i-N) := funext fun p => if_neg hlt
      have hr : right x N i = tb x (i-N) := funext fun p => if_neg hlt
      rw [hl, hr]
      exact ⟨(hx.numbers (i-N) (by omega)).2,(hx.triples (i-N) (by omega)).2.1⟩
  have hcast : (comits COM (x verifier) i : ZMod COM.prime) = (COM.comit
      (opened COM (x verifier) (received COM Ps x verifier) i)
      (opened_r COM (x verifier) (received COM Ps x verifier) i) : ZMod COM.prime) := by
    rw [comits, pair_eq hx hv, Commitment.cadd, Commitment.inv, ZMod.natCast_mod, Nat.cast_mul,
      ZMod.natCast_zmod_val, hcom.1, hcom.2, comit_cast, comit_cast, comit_cast]
    refine Eq.trans ?_ (mul_one _)
    rw [← com_mul_inv hok (openM COM Ps (right x N i)) (openR COM Ps (right x N i)), ← mul_assoc,
      Pedersen.com_mul]
    congr 1
    refine (com_eq hok ?_ ?_).symm
    · rw [Nat.cast_add, hm, ZMod.natCast_zmod_val, sub_add_cancel]
    · rw [Nat.cast_add, hr, ZMod.natCast_zmod_val, sub_add_cancel]
  have hmod := (ZMod.natCast_eq_natCast_iff _ _ _).mp hcast
  rw [Nat.ModEq, comits, Commitment.cadd, Commitment.comit, Nat.mod_mod, Nat.mod_mod] at hmod
  rw [Commitment.decomit, comits, Commitment.cadd, beq_iff_eq]
  exact hmod

/-! ### Products -/

def outcome (COM : Commitment) (Ps : List ℕ) (x : ℕ → Party) (i p : ℕ) : Amaterial :=
  product COM (x p) (received COM Ps x p) p i

lemma outcome_cast [NeZero COM.q] (hx : Honest COM Ps verifier x N) (hnd : Ps.Nodup) {p : ℕ}
    (hp : p ∈ Ps) {i : ℕ} (hi : i < N) :
    let A := openM COM Ps (xa x i)-openM COM Ps (ta x i)
    let B := openM COM Ps (xb x i)-openM COM Ps (tb x i)
    ((outcome COM Ps x i p).m : ZMod COM.q) =
        (xb x i p).m*A+(xa x i p).m*B+(tc x i p).m-(if p = 1 then A*B else 0) ∧
      ((outcome COM Ps x i p).r : ZMod COM.q) =
        (xb x i p).r*A+(xa x i p).r*B+(tc x i p).r := by
  intro A B
  have hA : (opened COM (x p) (received COM Ps x p) i : ZMod COM.q) = A := alpha_eq hx hnd hp hi
  have hB : (opened COM (x p) (received COM Ps x p) (i+N) : ZMod COM.q) = B := beta_eq hx hnd hp hi
  have hlen := (hx.size p hp).1
  constructor
  · simp only [outcome, product, hlen]
    split
    · rw [modSub_cast, ZMod.natCast_mod]
      push_cast
      rw [hA, hB]
      rfl
    · rw [ZMod.natCast_mod, sub_zero]
      push_cast
      rw [hA, hB]
      rfl
  · simp only [outcome, product, hlen]
    rw [ZMod.natCast_mod]
    push_cast
    rw [hA, hB]
    rfl

/-- The product of the shared values, with the randomness that belongs to its commitment. -/
lemma outcome_open [NeZero COM.q] (hx : Honest COM Ps verifier x N) (hnd : Ps.Nodup) (h1 : 1 ∈ Ps)
    {i : ℕ} (hi : i < N) :
    openM COM Ps (outcome COM Ps x i) = openM COM Ps (xa x i)*openM COM Ps (xb x i) ∧
      openR COM Ps (outcome COM Ps x i) =
        openR COM Ps (xb x i)*(openM COM Ps (xa x i)-openM COM Ps (ta x i))+
        openR COM Ps (xa x i)*(openM COM Ps (xb x i)-openM COM Ps (tb x i))+
        openR COM Ps (tc x i) := by
  constructor
  · have hsum : openM COM Ps (outcome COM Ps x i) =
        openM COM Ps (xb x i)*(openM COM Ps (xa x i)-openM COM Ps (ta x i))+
        openM COM Ps (xa x i)*(openM COM Ps (xb x i)-openM COM Ps (tb x i))+
        openM COM Ps (tc x i)-(openM COM Ps (xa x i)-openM COM Ps (ta x i))*
          (openM COM Ps (xb x i)-openM COM Ps (tb x i)) := by
      rw [openM, total_congr fun p hp => (outcome_cast hx hnd hp hi).1, total_sub, total_add,
        total_add, total_mul, total_mul]
      congr 1
      exact sum_single hnd h1 _
    rw [hsum, hx.triple i hi]
    ring
  · rw [openR, total_congr fun p hp => (outcome_cast hx hnd hp hi).2, total_add, total_add,
      total_mul, total_mul]
    rfl

/-- The verifier's commitment to a product opens to what the shares sum to. -/
lemma outcome_committed [NeZero COM.q] [NeZero COM.prime] (hok : COM.Ok)
    (hx : Honest COM Ps verifier x N) (hnd : Ps.Nodup) (hv : verifier ∈ Ps) (h1 : 1 ∈ Ps) {i : ℕ}
    (hi : i < N) : Committed COM Ps verifier (outcome COM Ps x i) := by
  obtain ⟨hM, hR⟩ := outcome_open hx hnd h1 hi
  obtain ⟨ha, hb⟩ := hx.numbers i hi
  have hc := (hx.triples i hi).2.2
  have hlen := (hx.size _ hv).1
  have hA := alpha_eq hx hnd hv hi
  have hB := beta_eq hx hnd hv hi
  have hlt := Nat.mod_lt (opened COM (x verifier) (received COM Ps x verifier) i*
    opened COM (x verifier) (received COM Ps x verifier) (i+N)) (NeZero.pos COM.q)
  have hminus : ((COM.q-opened COM (x verifier) (received COM Ps x verifier) i*
      opened COM (x verifier) (received COM Ps x verifier) (i+N)%COM.q : ℕ) : ZMod COM.q) =
      -((openM COM Ps (xa x i)-openM COM Ps (ta x i))*
        (openM COM Ps (xb x i)-openM COM Ps (tb x i))) := by
    rw [Nat.cast_sub hlt.le, ZMod.natCast_mod, ZMod.natCast_self, Nat.cast_mul, hA, hB, zero_sub]
  have hcast : ((outcome COM Ps x i verifier).c : ZMod COM.prime) = (COM.comit
      (openM COM Ps (outcome COM Ps x i)).val (openR COM Ps (outcome COM Ps x i)).val :
        ZMod COM.prime) := by
    have hxb : ((x verifier).b.getD i default).c = _ := hb
    have hxa : ((x verifier).a.getD i default).c = _ := ha
    have htc : (((x verifier).triples.getD i default).c).c = _ := hc
    simp only [outcome, product, hlen, Commitment.cadd, Commitment.scale, Commitment.padd,
      ZMod.natCast_mod, Nat.cast_mul, Nat.cast_pow, hxb, hxa, htc, comit_cast, Pedersen.com_pow,
      Pedersen.com_mul]
    refine com_eq hok ?_ ?_
    · simp only [Nat.cast_add, Nat.cast_mul, hminus, hA, hB, ZMod.natCast_zmod_val]
      rw [hM, hx.triple i hi]
      ring
    · simp only [Nat.cast_add, Nat.cast_mul, hA, hB, ZMod.natCast_zmod_val]
      rw [hR]
      ring
  have hmod := (ZMod.natCast_eq_natCast_iff _ _ _).mp hcast
  rw [Nat.ModEq, Commitment.comit, Nat.mod_mod, outcome, product, Commitment.cadd,
    Nat.mod_mod] at hmod
  exact hmod

/-- A multiplication of honest sharings: all parties open the same differences, the verifier accepts
them, and the results are shares of the products that fit the verifier's commitments. -/
theorem mult_correct (hok : COM.Ok) (hnd : Ps.Nodup) (hv : verifier ∈ Ps) (h1 : 1 ∈ Ps)
    (hx : Honest COM Ps verifier x N) :
    ∃ out, mult COM Ps verifier x = some out ∧
      (∀ p ∈ Ps, ∀ i < N,
        ((out p).opened i : ZMod COM.q) = openM COM Ps (xa x i)-openM COM Ps (ta x i) ∧
        ((out p).opened (i+N) : ZMod COM.q) = openM COM Ps (xb x i)-openM COM Ps (tb x i)) ∧
      (∀ p ∈ Ps, ∀ p' ∈ Ps, ∀ i < 2*N, (out p).opened i = (out p').opened i) ∧
      (out verifier).decomits = some true ∧
      (∀ p ∈ Ps, (out p).res.length = N) ∧
      ∀ i < N, let z := fun p => (out p).res.getD i default
        openM COM Ps z = openM COM Ps (xa x i)*openM COM Ps (xb x i) ∧
        Committed COM Ps verifier z := by
  have : NeZero COM.q := ⟨hok.q.ne'⟩
  have : NeZero COM.prime := ⟨hok.prime.ne'⟩
  have hassert : ∀ p ∈ Ps, (x p).a.length = (x p).b.length ∧
      (x p).a.length ≤ (x p).triples.length := by
    intro p hp
    obtain ⟨ha, hb, ht⟩ := hx.size p hp
    exact ⟨ha.trans hb.symm,ha.trans_le ht⟩
  refine ⟨_,if_pos hassert,fun p hp i hi => ⟨alpha_eq hx hnd hp hi,beta_eq hx hnd hp hi⟩,
    fun p hp p' hp' i hi => opened_same hx hnd hp hp' hi,?_,fun p hp => ?_,fun i hi => ?_⟩
  · exact (if_pos rfl).trans (congrArg some (decomits_ok hok hx hnd hv))
  · simp [(hx.size p hp).1]
  · have hz : ∀ p ∈ Ps, ((List.range (x p).a.length).map
        (product COM (x p) (received COM Ps x p) p)).getD i default = outcome COM Ps x i p := by
      intro p hp
      simp [(hx.size p hp).1, hi, outcome]
    obtain ⟨hM, -⟩ := outcome_open hx hnd h1 hi
    have hcom := outcome_committed hok hx hnd hv h1 hi
    have hMz := total_congr fun p hp => congrArg (fun z : Amaterial => (z.m : ZMod COM.q)) (hz p hp)
    have hRz := total_congr fun p hp => congrArg (fun z : Amaterial => (z.r : ZMod COM.q)) (hz p hp)
    refine ⟨hMz.trans hM,?_⟩
    rw [Committed, ← hz verifier hv, openM, openR, ← hMz, ← hRz] at hcom
    exact hcom

/-- Two bases of order 11 modulo 23. -/
def smallCom : Commitment := ⟨23,11,2,3⟩

/-- A share of a number, with the commitment to the whole. -/
def dealt (m0 m1 r0 r1 p : ℕ) : Amaterial :=
  if p = 0 then ⟨m0,r0,smallCom.comit ((m0+m1)%11) ((r0+r1)%11)⟩ else ⟨m1,r1,0⟩

/-- Two parties with the numbers 5 and 4 and the triple 3, 7, 21. -/
def smallParty (p : ℕ) : Party :=
  ⟨[dealt 2 3 1 4 p],[dealt 10 5 0 2 p],[⟨dealt 1 2 1 1 p,dealt 3 4 0 1 p,dealt 4 6 2 2 p⟩]⟩

lemma smallParty_honest : Honest smallCom [0,1] 0 smallParty 1 := by
  refine ⟨by decide,?_,?_,?_,?_⟩ <;> intro i hi <;> obtain rfl : i = 0 := by omega
  · exact ⟨by decide,by decide⟩
  · exact ⟨by decide,by decide⟩
  · exact ⟨by decide,by decide,by decide⟩
  · decide

theorem mult_correct_two : ∃ out, mult smallCom [0,1] 0 smallParty = some out ∧
    (out 0).decomits = some true ∧
    openM smallCom [0,1] (fun p => (out p).res.getD 0 default) = 9 := by
  obtain ⟨out, hout, -, -, hdec, -, hres⟩ :=
    mult_correct (by constructor <;> decide) (by decide) (by decide) (by decide) smallParty_honest
  exact ⟨out,hout,hdec,(hres 0 Nat.one_pos).1.trans (by decide)⟩

end result

end OramPro.SPDZ
