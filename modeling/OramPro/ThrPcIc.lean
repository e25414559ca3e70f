import OramPro.CompareQueue

/-!
# Interval containment by two of three parties

`Thr_pc_ic_id`. The owner of a gate gives its successor and its predecessor less-than keys for its
mask `r`; on a masked value `x+r` the two return shares of the bit `p ≤ x ≤ q`.
-/
namespace OramPro.ThrPcIc

/-- What a party keeps of one gate. -/
structure IcKey where
  lt : ServerKeyLt
  delta : Word

/-- Random values of the owner for one gate. -/
structure IcDraw where
  key : LtDraw
  z0 : Word

def bit (c : Prop) [Decidable c] : Word := if c then 1 else 0

section gate
variable (f : Fss) (p q mod : Word)

/-- The correction of `twopc_ic_off` for wrap-arounds. -/
def wrapBit (alpa_p alpa_q alpa_qpl q_pl : Word) : Word :=
  bit (alpa_p > alpa_q)-bit (alpa_p > p)+bit (alpa_qpl > q_pl)+bit (alpa_q = mod-1)

/-- `twopc_ic_off` for one gate: the keys of the successor and of the predecessor. -/
def twopc_ic_off (r_in : Word) (d : IcDraw) : IcKey × IcKey :=
  if mod ≠ 0 then
    let gamma := (r_in+mod-1)%mod
    let k := genLt f (gamma.setWidth 64) d.key
    let z := wrapBit p mod ((p+r_in)%mod) ((q+r_in)%mod) ((q+1+r_in)%mod) ((q+1)%mod)
    let z0 := d.z0%mod
    (⟨k.1,z0⟩,⟨k.2,(z+mod-z0)%mod⟩)
  else
    let gamma := r_in-1
    let k := genLt f (gamma.setWidth 64) d.key
    let z := wrapBit p mod (p+r_in) (q+r_in) (q+1+r_in) (q+1)
    (⟨k.1,d.z0⟩,⟨k.2,z-d.z0⟩)

def evalAt (k : IcKey) (x : Word) : Word := (evaluateLt f k.lt (x.setWidth 64)).setWidth 32

/-- `twopc_ic` for one gate at the predecessor of the owner or at its successor. -/
def twopc_ic (is_pre : Bool) (k : IcKey) (R : Word) : Word :=
  let R := if mod ≠ 0 then R%mod else R
  let q_pl := if mod ≠ 0 then (q+1)%mod else q+1
  let x_p := if mod ≠ 0 then (R+mod-1-p)%mod else R+mod-1-p
  let x_q := if mod ≠ 0 then (R+mod-1-q_pl)%mod else R+mod-1-q_pl
  let s_p := if is_pre then -evalAt f k x_p else evalAt f k x_p
  let s_q := if is_pre then -evalAt f k x_q else evalAt f k x_q
  (if is_pre then bit (R > p)-bit (R > q_pl) else 0)-s_p+s_q+k.delta

end gate

/-! ## Counting wrap-arounds -/

lemma mod_of_lt_two {a N : ℕ} (h : a < 2*N) : a%N = if a < N then a else a-N := by
  split
  · exact Nat.mod_eq_of_lt ‹_›
  · rw [Nat.mod_eq_sub_mod (by omega), Nat.mod_eq_of_lt (by omega)]

section counts
variable {N p q r x : ℕ} (hr : r < N)
include hr

/-- The comparisons with one end count the wrap-arounds of `x+r` and `p+r`. -/
lemma lower_count (hp : p < N) (hx : x < N) :
    (if (x+r)%N > p then (1 : ℤ) else 0)-(if ((x+r)%N+N-1-p)%N < (r+N-1)%N then 1 else 0)
      -(if (p+r)%N > p then 1 else 0) =
      (if p ≤ x then 1 else 0)-1-(if N ≤ x+r then 1 else 0)+if N ≤ p+r then 1 else 0 := by
  rw [mod_of_lt_two (by omega : x+r < 2*N), mod_of_lt_two (by omega : r+N-1 < 2*N),
    mod_of_lt_two (by omega : p+r < 2*N)]
  by_cases hwrap : N ≤ x+r
  · rw [if_neg (by omega : ¬x+r < N), mod_of_lt_two (by omega : x+r-N+N-1-p < 2*N)]
    split_ifs <;> omega
  · rw [if_pos (by omega : x+r < N), mod_of_lt_two (by omega : x+r+N-1-p < 2*N)]
    split_ifs <;> omega

lemma order_count (hpq : p ≤ q) (hq : q < N) : (if (p+r)%N > (q+r)%N then (1 : ℤ) else 0) =
    (if N ≤ q+r then 1 else 0)-if N ≤ p+r then 1 else 0 := by
  rw [mod_of_lt_two (by omega : p+r < 2*N), mod_of_lt_two (by omega : q+r < 2*N)]
  split_ifs <;> omega

lemma last_count (hq : q < N) : (if (q+r)%N = N-1 then (1 : ℤ) else 0) =
    (if N ≤ q+1+r then 1 else 0)-if N ≤ q+r then 1 else 0 := by
  rw [mod_of_lt_two (by omega : q+r < 2*N)]
  split_ifs <;> omega

/-- The lower end of the points behind `q`. -/
lemma upper_count (hq : q < N) (hx : x < N) :
    (if ((x+r)%N+N-1-(q+1)%N)%N < (r+N-1)%N then (1 : ℤ) else 0)-(if (x+r)%N > (q+1)%N then 1 else 0)
      +(if (q+1+r)%N > (q+1)%N then 1 else 0) =
      (if x ≤ q then 1 else 0)+(if N ≤ x+r then 1 else 0)-if N ≤ q+1+r then 1 else 0 := by
  have h := lower_count (p := (q+1)%N) hr (Nat.mod_lt _ (by omega)) hx
  rw [Nat.mod_add_mod] at h
  have hend : (if x ≤ q then (1 : ℤ) else 0)-(if N ≤ q+1+r then 1 else 0) =
      1-(if (q+1)%N ≤ x then 1 else 0)-if N ≤ (q+1)%N+r then 1 else 0 := by
    rw [mod_of_lt_two (by omega : q+1 < 2*N)]
    split_ifs <;> omega
  linarith

/-- The public part of the bit: minus one, zero or one. -/
def wrapInt (N p q r : ℕ) : ℤ :=
  (if (p+r)%N > (q+r)%N then 1 else 0)-(if (p+r)%N > p then 1 else 0)
    +(if (q+1+r)%N > (q+1)%N then 1 else 0)+(if (q+r)%N = N-1 then 1 else 0)

lemma wrapInt_range (hpq : p ≤ q) (hq : q < N) : -1 ≤ wrapInt N p q r ∧ wrapInt N p q r ≤ 1 := by
  have hfirst : (if (p+r)%N > (q+r)%N then (1 : ℤ) else 0) ≤ if (p+r)%N > p then 1 else 0 := by
    rw [mod_of_lt_two (by omega : p+r < 2*N), mod_of_lt_two (by omega : q+r < 2*N)]
    split_ifs <;> omega
  have hlast : (if (q+1+r)%N > (q+1)%N then (1 : ℤ) else 0)+(if (q+r)%N = N-1 then 1 else 0) ≤ 1 := by
    rw [last_count hr hq, mod_of_lt_two (by omega : q+1+r < 2*N)]
    split_ifs <;> omega
  have h0 : ∀ c : Prop, ∀ _ : Decidable c, (0 : ℤ) ≤ if c then 1 else 0 := by
    intro c _
    split_ifs <;> omega
  have h01 : ∀ c : Prop, ∀ _ : Decidable c, (if c then 1 else 0) ≤ (1 : ℤ) := by
    intro c _
    split_ifs <;> omega
  have h1 := h0 ((p+r)%N > (q+r)%N) inferInstance
  have h2 := h01 ((p+r)%N > p) inferInstance
  have h3 := h0 ((q+1+r)%N > (q+1)%N) inferInstance
  have h4 := h0 ((q+r)%N = N-1) inferInstance
  unfold wrapInt
  constructor <;> linarith

lemma interval_count (hpq : p ≤ q) (hq : q < N) (hx : x < N) :
    (if (x+r)%N > p then (1 : ℤ) else 0)-(if (x+r)%N > (q+1)%N then 1 else 0)
      -(if ((x+r)%N+N-1-p)%N < (r+N-1)%N then 1 else 0)
      +(if ((x+r)%N+N-1-(q+1)%N)%N < (r+N-1)%N then 1 else 0)+wrapInt N p q r =
      if p ≤ x ∧ x ≤ q then 1 else 0 := by
  have hlow := lower_count (p := p) hr (by omega) hx
  have hup := upper_count hr hq hx
  have horder := order_count hr hpq hq
  have hlast := last_count hr hq
  have hboth : (if p ≤ x ∧ x ≤ q then (1 : ℤ) else 0) =
      (if p ≤ x then 1 else 0)-1+if x ≤ q then 1 else 0 := by
    split_ifs <;> omega
  rw [wrapInt]
  linarith

end counts

/-! ## Words modulo `N` -/

/-- A modulus within 32 bits, or 0 for `2^32`, that the keys have bits for. -/
structure Modulus (deep : ℕ) where
  mod : Word
  N : ℕ
  ok : mod.toNat = N ∧ 2 ≤ N ∧ N ≤ 2^31 ∧ N ≤ 2^deep ∨ mod = 0 ∧ deep = 32 ∧ N = 2^32

def reduce (mod w : Word) : Word := if mod ≠ 0 then w%mod else w

section modulus
variable {deep : ℕ} (m : Modulus deep)

lemma Modulus.two_le : 2 ≤ m.N := by
  rcases m.ok with ⟨-, h, -⟩ | ⟨-, -, h⟩
  · exact h
  · rw [h]
    norm_num

lemma Modulus.le_deep : m.N ≤ 2^deep := by
  rcases m.ok with ⟨-, -, -, h⟩ | ⟨-, hd, h⟩
  · exact h
  · rw [h, hd]

lemma Modulus.toNat_mod : m.mod.toNat = m.N%2^32 := by
  rcases m.ok with ⟨h, -, hle, -⟩ | ⟨h, -, hN⟩
  · rw [h, Nat.mod_eq_of_lt (by omega)]
  · rw [h, hN]
    rfl

/-- Below twice the modulus nothing is lost before the reduction. -/
lemma reduce_toNat {w : Word} {n : ℕ} (hw : w.toNat = n%2^32) (hn : n < 2*m.N) :
    (reduce m.mod w).toNat = n%m.N := by
  rcases m.ok with ⟨h, h2, hle, -⟩ | ⟨h, -, hN⟩
  · have hne : m.mod ≠ 0 := by
      intro h0
      rw [h0] at h
      simp at h
      omega
    rw [reduce, if_pos hne, BitVec.toNat_umod, h, hw, Nat.mod_eq_of_lt (by omega : n < 2^32)]
  · rw [reduce, if_neg (not_not.mpr h), hw, hN]

lemma reduce_add (a b : Word) (h : a.toNat+b.toNat < 2*m.N) :
    (reduce m.mod (a+b)).toNat = (a.toNat+b.toNat)%m.N := reduce_toNat m (BitVec.toNat_add a b) h

lemma reduce_sub {a b : Word} (ha : a.toNat < m.N) (hb : b.toNat < m.N) :
    (reduce m.mod (a+m.mod-1-b)).toNat = (a.toNat+m.N-1-b.toNat)%m.N := by
  refine reduce_toNat m ?_ (by omega)
  have hmod := m.toNat_mod
  have h1 : (1 : Word).toNat = 1 := rfl
  rw [BitVec.toNat_sub, BitVec.toNat_sub, BitVec.toNat_add, hmod, h1]
  omega

end modulus

/-! ## The bit of a gate -/

lemma bit_congr {c c' : Prop} [Decidable c] [Decidable c'] (h : c ↔ c') : bit c = bit c' := by
  rw [bit, bit]
  simp only [h]

lemma cast_bit (c : Prop) [Decidable c] : (((if c then 1 else 0 : ℤ)) : Word) = bit c := by
  rw [bit]
  split <;> simp

lemma evalAt_sub {f : Fss} {k0 k1 : IcKey} {thr : ℕ} (h : LtCorrect f k0.lt k1.lt thr) {y : Word}
    (hy : y.toNat < 2^f.numBits) (ht : thr < 2^f.numBits) :
    evalAt f k0 y-evalAt f k1 y = bit (y.toNat < thr) := by
  have hk := h (y.setWidth 64)
  rw [BitVec.toNat_setWidth_of_le (by norm_num), Nat.mod_eq_of_lt hy, Nat.mod_eq_of_lt ht] at hk
  have hcut : ∀ u v : BitVec 64, u.setWidth 32-v.setWidth 32 = (u-v).setWidth 32 := by
    intro u v
    bv_omega
  rw [evalAt, evalAt, hcut, hk, bit]
  split <;> rfl

/-- The point of the keys. -/
def gamma (mod r_in : Word) : Word := if mod ≠ 0 then (r_in+mod-1)%mod else r_in-1

section bits
variable {f : Fss} (m : Modulus f.numBits) {p q r x : Word}

lemma gamma_toNat (hr : r.toNat < m.N) : (gamma m.mod r).toNat = (r.toNat+m.N-1)%m.N := by
  have hred := reduce_sub m hr (b := 0) (by have := m.two_le; simp; omega)
  have hzero : (0 : Word).toNat = 0 := rfl
  rw [hzero, Nat.sub_zero, sub_zero] at hred
  rw [← hred, gamma, reduce]
  by_cases h0 : m.mod = 0
  · rw [if_neg (not_not.mpr h0), if_neg (not_not.mpr h0), h0, add_zero]
  · rw [if_pos h0, if_pos h0]

lemma wrapBit_eq (hpq : p ≤ q) (hq : q.toNat < m.N) (hr : r.toNat < m.N) :
    wrapBit p m.mod (reduce m.mod (p+r)) (reduce m.mod (q+r)) (reduce m.mod (q+1+r))
        (reduce m.mod (q+1)) = (wrapInt m.N p.toNat q.toNat r.toNat : Word) := by
  have hp : p.toNat ≤ q.toNat := hpq
  have hone : (1 : Word).toNat = 1 := rfl
  have h1 := reduce_add m p r (by omega)
  have h2 := reduce_add m q r (by omega)
  have h3 : (reduce m.mod (q+1+r)).toNat = (q.toNat+1+r.toNat)%m.N := by
    refine reduce_toNat m ?_ (by omega)
    rw [BitVec.toNat_add, BitVec.toNat_add, hone, Nat.mod_add_mod]
  have h4 := reduce_add m q 1 (by have := m.two_le; omega)
  have hlast : reduce m.mod (q+r) = m.mod-1 ↔ (q.toNat+r.toNat)%m.N = m.N-1 := by
    have htop : (m.mod-1).toNat = m.N-1 := by
      have htwo := m.two_le
      have hmod := m.toNat_mod
      have hle : m.N ≤ 2^32 := by
        rcases m.ok with ⟨-, -, h, -⟩ | ⟨-, -, h⟩ <;> omega
      rw [BitVec.toNat_sub, hmod, hone]
      omega
    rw [← h2, ← htop]
    exact ⟨congrArg _,BitVec.eq_of_toNat_eq⟩
  rw [hone] at h4
  rw [wrapBit, wrapInt]
  simp only [Int.cast_sub, Int.cast_add, cast_bit]
  rw [bit_congr hlast]
  simp only [gt_iff_lt, BitVec.lt_def, h1, h2, h3, h4]

/-- The two evaluators open the differences of their keys. -/
lemma twopc_pair (f : Fss) (p q mod R : Word) (k0 k1 : IcKey) :
    let R' := reduce mod R
    let q_pl := reduce mod (q+1)
    let x_p := reduce mod (R'+mod-1-p)
    let x_q := reduce mod (R'+mod-1-q_pl)
    twopc_ic f p q mod false k0 R+twopc_ic f p q mod true k1 R =
      bit (R' > p)-bit (R' > q_pl)-(evalAt f k0 x_p-evalAt f k1 x_p)
        +(evalAt f k0 x_q-evalAt f k1 x_q)+(k0.delta+k1.delta) := by
  intro R' q_pl x_p x_q
  have h0 : twopc_ic f p q mod false k0 R = 0-evalAt f k0 x_p+evalAt f k0 x_q+k0.delta := rfl
  have h1 : twopc_ic f p q mod true k1 R =
      bit (R' > p)-bit (R' > q_pl)- -evalAt f k1 x_p+ -evalAt f k1 x_q+k1.delta := rfl
  rw [h0, h1]
  ring

/-- What the two evaluators add up to, but for their shares of the correction. -/
lemma twopc_sum (hpq : p ≤ q) (hq : q.toNat < m.N) (hr : r.toNat < m.N) (hx : x.toNat < m.N)
    {k0 k1 : IcKey} (hk : LtCorrect f k0.lt k1.lt (gamma m.mod r).toNat) :
    twopc_ic f p q m.mod false k0 (reduce m.mod (x+r))+twopc_ic f p q m.mod true k1 (reduce m.mod (x+r)) =
      ((if p.toNat ≤ x.toNat ∧ x.toNat ≤ q.toNat then 1 else 0)
        -wrapInt m.N p.toNat q.toNat r.toNat : ℤ)+(k0.delta+k1.delta) := by
  have htwo := m.two_le
  have hdeep := m.le_deep
  have hone : (1 : Word).toNat = 1 := rfl
  have hR := reduce_add m x r (by omega)
  have hlt : (reduce m.mod (x+r)).toNat < m.N := hR ▸ Nat.mod_lt _ (by omega)
  have hR' : reduce m.mod (reduce m.mod (x+r)) = reduce m.mod (x+r) := by
    apply BitVec.eq_of_toNat_eq
    rw [reduce_toNat m (Nat.mod_eq_of_lt (BitVec.isLt _)).symm (by omega), Nat.mod_eq_of_lt hlt]
  have hqpl := reduce_add m q 1 (by omega)
  have hqlt : (reduce m.mod (q+1)).toNat < m.N := hqpl ▸ Nat.mod_lt _ (by omega)
  have hγ := gamma_toNat m hr
  have hγlt : (gamma m.mod r).toNat < m.N := hγ ▸ Nat.mod_lt _ (by omega)
  have hxp := reduce_sub m hlt (hq.trans_le' hpq)
  have hxq := reduce_sub m hlt hqlt
  have hxplt := (hxp ▸ Nat.mod_lt _ (by omega)).trans_le hdeep
  have hxqlt := (hxq ▸ Nat.mod_lt _ (by omega)).trans_le hdeep
  have hcount := congrArg (Int.cast : ℤ → Word) (interval_count hr hpq hq hx)
  simp only [Int.cast_sub, Int.cast_add, cast_bit] at hcount
  rw [twopc_pair, hR', evalAt_sub hk hxplt (by omega), evalAt_sub hk hxqlt (by omega), hγ, hxp,
    hxq, hqpl, hR, hone]
  simp only [gt_iff_lt, BitVec.lt_def, hR, hqpl, hone, Int.cast_sub, cast_bit]
  rw [← hcount]
  ring

end bits

/-! ## Gates -/

/-- A gate of the owner: keys that are correct for its mask, and the random share of the correction. -/
structure IcGate (f : Fss) (mod : Word) where
  r_in : Word
  lt_00 : ServerKeyLt
  lt_01 : ServerKeyLt
  z0 : Word
  correct : LtCorrect f lt_00 lt_01 (gamma mod r_in).toNat

/-- What the gate sends to the successor and to the predecessor. -/
def IcGate.keys {f : Fss} {mod : Word} (g : IcGate f mod) (p q : Word) : IcKey × IcKey :=
  let z := wrapBit p mod (reduce mod (p+g.r_in)) (reduce mod (q+g.r_in)) (reduce mod (q+1+g.r_in))
    (reduce mod (q+1))
  if mod ≠ 0 then
    let z0 := g.z0%mod
    (⟨g.lt_00,z0⟩,⟨g.lt_01,(z+mod-z0)%mod⟩)
  else (⟨g.lt_00,g.z0⟩,⟨g.lt_01,z-g.z0⟩)

section gates
variable {f : Fss}

/-- The gate that the owner generates. -/
def genGate (h0 : 0 < f.numBits) (h64 : f.numBits ≤ 64) (mod r_in : Word) (d : IcDraw) : IcGate f mod :=
  let k := genLt f ((gamma mod r_in).setWidth 64) d.key
  ⟨r_in,k.1,k.2,d.z0,genLt_correct h0 h64 _ (BitVec.toNat_setWidth_of_le (by norm_num))⟩

lemma twopc_ic_off_eq (h0 : 0 < f.numBits) (h64 : f.numBits ≤ 64) (p q mod r_in : Word) (d : IcDraw) :
    twopc_ic_off f p q mod r_in d = (genGate h0 h64 mod r_in d).keys p q := by
  by_cases hmod : mod = 0
  · have hne : ¬mod ≠ 0 := not_not.mpr hmod
    simp only [twopc_ic_off, IcGate.keys, genGate, gamma, reduce, if_neg hne]
  · simp only [twopc_ic_off, IcGate.keys, genGate, gamma, reduce, if_pos hmod]

variable (m : Modulus f.numBits) {p q : Word} (g : IcGate f m.mod)

lemma keys_lt : (g.keys p q).1.lt = g.lt_00 ∧ (g.keys p q).2.lt = g.lt_01 := by
  rw [IcGate.keys]
  split
  · exact ⟨rfl,rfl⟩
  · exact ⟨rfl,rfl⟩

lemma add_eq_cast {a b : Word} {v : ℤ} (h : (a.toNat+b.toNat : ℤ) = v) : a+b = (v : Word) := by
  have hself : ∀ w : Word, ((w.toNat : ℤ) : Word) = w := by
    intro w
    rw [Int.cast_natCast, BitVec.natCast_eq_ofNat, BitVec.ofNat_toNat, BitVec.setWidth_eq]
  rw [← h, Int.cast_add, hself, hself]

/-- Below the modulus a correction of at most one in size does not wrap around. -/
lemma sub_share {z mod z0 : Word} {v : ℤ} (hz : z = (v : Word)) (hv : -1 ≤ v ∧ v ≤ 1)
    (hmod : mod.toNat ≤ 2^31) (h0 : z0.toNat < mod.toNat) :
    ((z+mod-z0).toNat : ℤ) = v+mod.toNat-z0.toNat := by
  obtain rfl | rfl | rfl : v = -1 ∨ v = 0 ∨ v = 1 := by omega
  · have hone : z.toNat = 2^32-1 := by
      rw [hz]
      rfl
    rw [BitVec.toNat_sub, BitVec.toNat_add, hone]
    omega
  · have hzero : z.toNat = 0 := by
      rw [hz]
      rfl
    rw [BitVec.toNat_sub, BitVec.toNat_add, hzero]
    omega
  · have hone : z.toNat = 1 := by
      rw [hz]
      rfl
    rw [BitVec.toNat_sub, BitVec.toNat_add, hone]
    omega

/-- The shares of the correction exceed it by nothing or by the modulus. -/
lemma keys_delta (hpq : p ≤ q) (hq : q.toNat < m.N) (hr : g.r_in.toNat < m.N) :
    ∃ c : ℕ, c*m.N ≤ 2^31 ∧ (g.keys p q).1.delta+(g.keys p q).2.delta =
      ((wrapInt m.N p.toNat q.toNat g.r_in.toNat+c*m.N : ℤ) : Word) := by
  have hz := wrapBit_eq m hpq hq hr
  have hv := wrapInt_range hr hpq hq
  have htwo := m.two_le
  by_cases hmod : m.mod = 0
  · have hne : ¬m.mod ≠ 0 := not_not.mpr hmod
    refine ⟨0,by omega,?_⟩
    rw [IcGate.keys]
    simp only [if_neg hne]
    rw [hz, Nat.cast_zero, zero_mul, add_zero]
    ring
  · rcases m.ok with ⟨hN, -, hle, -⟩ | ⟨h, -⟩
    · have hz0 : (g.z0%m.mod).toNat < m.N := by
        rw [BitVec.toNat_umod, hN]
        exact Nat.mod_lt _ (by omega)
      have hshare := sub_share hz hv (hN ▸ hle) (hN ▸ hz0)
      rw [IcGate.keys]
      simp only [if_pos hmod]
      generalize wrapBit p m.mod _ _ _ _+m.mod-g.z0%m.mod = w at hshare ⊢
      generalize wrapInt m.N p.toNat q.toNat g.r_in.toNat = v at hv hshare ⊢
      generalize g.z0%m.mod = z0 at hz0 hshare ⊢
      have hw : (w%m.mod).toNat = if w.toNat < m.N then w.toNat else w.toNat-m.N := by
        rw [BitVec.toNat_umod, hN]
        exact mod_of_lt_two (by omega)
      by_cases hwrap : w.toNat < m.N
      · refine ⟨1,by omega,add_eq_cast ?_⟩
        rw [hw, if_pos hwrap, hshare]
        push_cast
        omega
      · refine ⟨0,by omega,add_eq_cast ?_⟩
        rw [hw, if_neg hwrap]
        push_cast
        omega
    · exact absurd h hmod

/-- The masked input as a word. -/
lemma masked_eq {r x : Word} (hr : r.toNat < m.N) (hx : x.toNat < m.N) :
    BitVec.ofNat 32 ((x.toNat+r.toNat)%m.N) = reduce m.mod (x+r) := by
  have htwo := m.two_le
  have hle : m.N ≤ 2^32 := by
    rcases m.ok with ⟨-, -, h, -⟩ | ⟨-, -, h⟩ <;> omega
  apply BitVec.eq_of_toNat_eq
  rw [reduce_add m x r (by omega), BitVec.toNat_ofNat, Nat.mod_eq_of_lt]
  exact (Nat.mod_lt _ (by omega)).trans_le hle

lemma ic_open (hpq : p ≤ q) (hq : q.toNat < m.N) (hr : g.r_in.toNat < m.N) {x : Word}
    (hx : x.toNat < m.N) :
    (twopc_ic f p q m.mod false (g.keys p q).1 (reduce m.mod (x+g.r_in))
      +twopc_ic f p q m.mod true (g.keys p q).2 (reduce m.mod (x+g.r_in))).toNat%m.N =
      if p ≤ x ∧ x ≤ q then 1 else 0 := by
  have htwo := m.two_le
  obtain ⟨c, hc, hdelta⟩ := keys_delta m g hpq hq hr
  have hk : LtCorrect f (g.keys p q).1.lt (g.keys p q).2.lt (gamma m.mod g.r_in).toNat := by
    rw [(keys_lt m g).1, (keys_lt m g).2]
    exact g.correct
  have hsum := twopc_sum m hpq hq hr hx hk
  rw [hdelta, ← Int.cast_add] at hsum
  have hbit : (if p.toNat ≤ x.toNat ∧ x.toNat ≤ q.toNat then (1 : ℕ) else 0) ≤ 1 := by
    split_ifs <;> omega
  have htotal : ((if p.toNat ≤ x.toNat ∧ x.toNat ≤ q.toNat then 1 else 0)
      -wrapInt m.N p.toNat q.toNat g.r_in.toNat+(wrapInt m.N p.toNat q.toNat g.r_in.toNat+c*m.N) : ℤ) =
      ((if p.toNat ≤ x.toNat ∧ x.toNat ≤ q.toNat then 1 else 0)+c*m.N : ℕ) := by
    push_cast
    ring
  have hsmall : ((if p.toNat ≤ x.toNat ∧ x.toNat ≤ q.toNat then 1 else 0)+c*m.N)%2^32 =
      (if p.toNat ≤ x.toNat ∧ x.toNat ≤ q.toNat then 1 else 0)+c*m.N := Nat.mod_eq_of_lt (by omega)
  rw [hsum, htotal, Int.cast_natCast, BitVec.natCast_eq_ofNat, BitVec.toNat_ofNat, hsmall,
    Nat.add_mul_mod_self_right, Nat.mod_eq_of_lt (by omega)]
  rfl

/-- The results of both evaluators open to the bit of the interval. -/
theorem ic_exact (hpq : p ≤ q) (hq : q.toNat < m.N) (hr : g.r_in.toNat < m.N) {x : Word}
    (hx : x.toNat < m.N) :
    let R := BitVec.ofNat 32 ((x.toNat+g.r_in.toNat)%m.N)
    (twopc_ic f p q m.mod false (g.keys p q).1 R
      +twopc_ic f p q m.mod true (g.keys p q).2 R).toNat%m.N = if p ≤ x ∧ x ≤ q then 1 else 0 := by
  rw [masked_eq m hr hx]
  exact ic_open m g hpq hq hr hx

end gates

/-! ### Modulo 10 -/

/-- Keys for a constant generator, in four levels. -/
def tenFss : Fss := ⟨fun _ s => s,4,0⟩

def ten : Modulus tenFss.numBits := ⟨10,10,.inl (by decide)⟩

def tenGate : IcGate tenFss ten.mod :=
  genGate (by decide) (by decide) ten.mod 6 ⟨⟨⟨0,1,0,0,0⟩,fun _ => ⟨0,0,0,0,0⟩,⟨3,4⟩,fun _ => ⟨0,0⟩⟩,8⟩

/-- The input 7 under the mask 6 lies between 2 and 9. -/
theorem ic_exact_ten :
    let R := BitVec.ofNat 32 (((7 : Word).toNat+tenGate.r_in.toNat)%ten.N)
    (twopc_ic tenFss 2 9 ten.mod false (tenGate.keys 2 9).1 R
      +twopc_ic tenFss 2 9 ten.mod true (tenGate.keys 2 9).2 R).toNat%ten.N = 1 :=
  (ic_exact ten tenGate (by decide) (by decide) (by decide) (by decide)).trans (if_pos (by decide))

/-! ## All 32 bits -/

/-- With all 32 bits and the lower end 0 the results add up to the bit `x ≤ q`. -/
lemma gate_sum {f : Fss} {q : Word} (hn : f.numBits = 32) (r x : Word) (d : IcDraw) :
    twopc_ic f 0 q 0 false (twopc_ic_off f 0 q 0 r d).1 (x+r)
        +twopc_ic f 0 q 0 true (twopc_ic_off f 0 q 0 r d).2 (x+r) = bit (x ≤ q) := by
  let m : Modulus f.numBits := ⟨0,2^32,.inr ⟨rfl,hn,rfl⟩⟩
  let g : IcGate f m.mod := genGate (by omega) (by omega) m.mod r d
  have hoff : twopc_ic_off f 0 q 0 r d = g.keys 0 q := twopc_ic_off_eq (by omega) (by omega) 0 q 0 r d
  have hle : (0 : Word) ≤ q := Nat.zero_le _
  have hk : LtCorrect f (g.keys 0 q).1.lt (g.keys 0 q).2.lt (gamma m.mod r).toNat := by
    rw [(keys_lt m g).1, (keys_lt m g).2]
    exact g.correct
  have hred : reduce m.mod (x+r) = x+r := rfl
  have hsum := twopc_sum m hle q.isLt r.isLt x.isLt hk
  have hdelta : (g.keys 0 q).1.delta+(g.keys 0 q).2.delta =
      (wrapInt m.N (0 : Word).toNat q.toNat r.toNat : Word) := by
    rw [← wrapBit_eq m hle q.isLt r.isLt]
    exact add_sub_cancel _ _
  rw [hoff, ← hred]
  refine hsum.trans ?_
  rw [hdelta, ← Int.cast_add, sub_add_cancel, cast_bit]
  exact bit_congr ⟨And.right,fun h => ⟨Nat.zero_le _,h⟩⟩

end OramPro.ThrPcIc
