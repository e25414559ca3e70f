import OramPro.AuditTransfer

/-!
# Local operations on committed shares

`SPDZ::add`, `neg` and `sum`, composed in any way, and then opened by `reveal`. An expression stands for
one entry of the vectors, whose leaves are honest sharings.
-/
namespace OramPro.SpdzLocal
open SPDZ (Commitment Amaterial openM openR Committed total)

section program
variable (COM : Commitment)

/-- One pass of the loop of `SPDZ::sum`: the sum goes into a variable of the loop body. -/
def sumStep (rets a : Amaterial) : Amaterial :=
  let cc := COM.cadd a.c rets.c
  let _tmp : Amaterial := ⟨(a.m+rets.m)%COM.q,(a.r+rets.r)%COM.q,cc⟩
  rets

/-- `SPDZ::sum` of a non-empty array. -/
def sum (a : List Amaterial) : Amaterial := a.tail.foldl (sumStep COM) (a.headD default)

end program

/-! ## Expressions -/

inductive Expr
  | leaf (k : ℕ)
  | add (a b : Expr)
  | neg (a : Expr)
  | sum (n : ℕ) (a : Fin (n+1) → Expr)

section expressions
variable (COM : Commitment) (Ps : List ℕ) (z : ℕ → ℕ → Amaterial)

/-- What a party computes, `z k p` being its share of leaf `k`. -/
def Expr.share : Expr → ℕ → Amaterial
  | .leaf k,p => z k p
  | .add a b,p => (SPDZ.add COM [a.share p] [b.share p]).getD 0 default
  | .neg a,p => (Audit.neg COM [a.share p]).getD 0 default
  | .sum _ a,p => SpdzLocal.sum COM (List.ofFn fun i => (a i).share p)

/-- The value that the operations stand for. -/
def Expr.plain : Expr → ZMod COM.q
  | .leaf k => openM COM Ps (z k)
  | .add a b => a.plain+b.plain
  | .neg a => -a.plain
  | .sum _ a => ∑ i, (a i).plain

/-- The first elements of the sums alone; `f` is the value or the randomness of a leaf. -/
def Expr.kept {R : Type*} [AddCommGroup R] (f : ℕ → R) : Expr → R
  | .leaf k => f k
  | .add a b => a.kept f+b.kept f
  | .neg a => -a.kept f
  | .sum _ a => (a 0).kept f

end expressions

/-! ## Values -/

/-- Honest sharings of numbers below `q` among the parties, with the commitments at the verifier; the
numbers fit the eight bytes of the transport. -/
structure Leaves where
  COM : Commitment
  Ps : List ℕ
  verifier : ℕ
  z : ℕ → ℕ → Amaterial
  ok : COM.Ok
  prime : 1 < COM.prime
  small : COM.q < 2^64
  nodup : Ps.Nodup
  mem : verifier ∈ Ps
  lt : ∀ k, ∀ p ∈ Ps, (z k p).m < COM.q ∧ (z k p).r < COM.q
  committed : ∀ k, Committed COM Ps verifier (z k)

section values
variable (s : Leaves)

lemma sum_ofFn (COM : Commitment) {n : ℕ} (a : Fin (n+1) → Amaterial) : sum COM (List.ofFn a) = a 0 := by
  have hkeep : ∀ (l : List Amaterial) (rets : Amaterial), l.foldl (sumStep COM) rets = rets := by
    intro l
    induction l with
    | nil => exact fun _ => rfl
    | cons x l ih => exact fun rets => ih rets
  rw [sum, hkeep, List.ofFn_succ]
  rfl

/-- Shares stay in the range that the subtractions of `neg` expect. -/
lemma share_le (e : Expr) {p : ℕ} (hp : p ∈ s.Ps) :
    (e.share s.COM s.z p).m ≤ s.COM.q ∧ (e.share s.COM s.z p).r ≤ s.COM.q := by
  have hq := s.ok.q
  induction e with
  | leaf k => exact ⟨(s.lt k p hp).1.le,(s.lt k p hp).2.le⟩
  | add a b => exact ⟨(Nat.mod_lt _ hq).le,(Nat.mod_lt _ hq).le⟩
  | neg a => exact ⟨Nat.sub_le _ _,Nat.sub_le _ _⟩
  | sum n a ih =>
    rw [Expr.share, sum_ofFn]
    exact ih 0

/-- A share is the same combination of the shares of the leaves. -/
lemma share_cast (e : Expr) {p : ℕ} (hp : p ∈ s.Ps) :
    ((e.share s.COM s.z p).m : ZMod s.COM.q) = e.kept (fun k => ((s.z k p).m : ZMod s.COM.q)) ∧
      ((e.share s.COM s.z p).r : ZMod s.COM.q) = e.kept fun k => ((s.z k p).r : ZMod s.COM.q) := by
  induction e with
  | leaf k => exact ⟨rfl,rfl⟩
  | add a b iha ihb =>
    rw [Expr.share, SPDZ.add_getD (by simp), ZMod.natCast_mod, ZMod.natCast_mod, Nat.cast_add, Nat.cast_add]
    exact ⟨congrArg₂ (·+·) iha.1 ihb.1,congrArg₂ (·+·) iha.2 ihb.2⟩
  | neg a ih =>
    obtain ⟨hm, hr⟩ := share_le s a hp
    have hshare : (Expr.neg a).share s.COM s.z p = ⟨s.COM.q-(a.share s.COM s.z p).m,
        s.COM.q-(a.share s.COM s.z p).r,s.COM.prime-(a.share s.COM s.z p).c⟩ := rfl
    rw [hshare, Nat.cast_sub hm, Nat.cast_sub hr, ZMod.natCast_self, zero_sub, zero_sub, ih.1, ih.2]
    exact ⟨rfl,rfl⟩
  | sum n a ih =>
    rw [Expr.share, sum_ofFn]
    exact ih 0

lemma kept_total (Ps : List ℕ) {q : ℕ} (f : ℕ → ℕ → ZMod q) (e : Expr) :
    (Ps.map fun p => e.kept (f p)).sum = e.kept fun k => (Ps.map fun p => f p k).sum := by
  induction e with
  | leaf k => rfl
  | add a b iha ihb => exact List.sum_map_add.trans (congrArg₂ (·+·) iha ihb)
  | neg a ih =>
    have hneg := List.sum_neg (Ps.map fun p => a.kept (f p))
    rw [List.map_map] at hneg
    exact hneg.symm.trans (congrArg _ ih)
  | sum n a ih => exact ih 0

def Leaves.value (e : Expr) : ZMod s.COM.q := e.kept fun k => openM s.COM s.Ps (s.z k)

def Leaves.randomness (e : Expr) : ZMod s.COM.q := e.kept fun k => openR s.COM s.Ps (s.z k)

lemma share_open (e : Expr) : openM s.COM s.Ps (e.share s.COM s.z) = s.value e ∧
    openR s.COM s.Ps (e.share s.COM s.z) = s.randomness e := by
  constructor
  · exact (SPDZ.total_congr fun p hp => (share_cast s e hp).1).trans (kept_total s.Ps _ e)
  · exact (SPDZ.total_congr fun p hp => (share_cast s e hp).2).trans (kept_total s.Ps _ e)

/-! ## Commitments -/

/-- The commitment that the kept values and randomness ask for. -/
def Leaves.com (e : Expr) : ZMod s.COM.prime :=
  Pedersen.com (s.COM.g : ZMod s.COM.prime) s.COM.h (s.value e).val (s.randomness e).val

/-- A vector of expressions at a party. -/
def Leaves.vector (es : List Expr) (p : ℕ) : List Amaterial := es.map fun e => e.share s.COM s.z p

/-- The verifier opens the vector. -/
def Leaves.opens (es : List Expr) : SPDZ.Revealed := SPDZ.reveal s.COM s.Ps s.verifier (s.vector es)

/-- The opened numbers are the values of the expressions, and the check passes. -/
def Leaves.Correct (es : List Expr) : Prop :=
  (s.opens es).res.map (Nat.cast : ℕ → ZMod s.COM.q) = es.map (·.plain s.COM s.Ps s.z) ∧
    (s.opens es).decomits = true

end values

/-! ### Two parties -/

end OramPro.SpdzLocal
