import OramPro.Instruction

/-!
# Instruction words as a group

The codec `m2i` and `i2m`, subtraction of words, and the fold over shared words by which an
instruction is fetched.
-/
namespace OramPro

/-! ## Subtraction -/

/-- The difference of two residues; the branches are computed in `int` and stored in `w` bits. -/
def sub_mod {w : ℕ} (a b mod : BitVec w) : BitVec w := if a < b then a+mod-b else (a-b)%mod

def Ins.sub (a b : Ins) : Ins where
  optr := sub_mod a.optr b.optr (BitVec.ofNat 8 (2^optLen))
  idic := sub_mod a.idic b.idic (BitVec.ofNat 8 (2^indicLen))
  i := sub_mod a.i b.i (BitVec.ofNat 8 (2^regisLen))
  j := sub_mod a.j b.j (BitVec.ofNat 8 (2^regisLen))
  pad := sub_mod a.pad b.pad (BitVec.ofNat 16 (2^padLen))
  imme := a.imme-b.imme

def subIns (a b : BitVec 64) : BitVec 64 := i2m ((m2i a).sub (m2i b))

section sub_mod
variable {w k : ℕ} {a b : BitVec w}

lemma sub_mod_toNat (hk : k < w) (ha : a.toNat < 2^k) (hb : b.toNat < 2^k) :
    (sub_mod a b (BitVec.ofNat w (2^k))).toNat = (a.toNat+2^k-b.toNat)%2^k := by
  have hpow : 2^k*2 ≤ 2^w := by
    rw [← pow_succ]
    exact Nat.pow_le_pow_right two_pos hk
  have hmod : (BitVec.ofNat w (2^k)).toNat = 2^k := by
    rw [BitVec.toNat_ofNat, Nat.mod_eq_of_lt (by omega)]
  rw [sub_mod]
  by_cases hlt : a < b
  · have hlt' : a.toNat < b.toNat := hlt
    rw [if_pos hlt, BitVec.toNat_sub, BitVec.toNat_add, hmod, Nat.mod_eq_of_lt (by omega : a.toNat+2^k < 2^w),
      Nat.mod_eq_of_lt (by omega : a.toNat+2^k-b.toNat < 2^k),
      (by omega : 2^w-b.toNat+(a.toNat+2^k) = 2^w+(a.toNat+2^k-b.toNat)), Nat.add_mod_left,
      Nat.mod_eq_of_lt (by omega)]
  · have hge : b.toNat ≤ a.toNat := not_lt.mp hlt
    rw [if_neg hlt, BitVec.toNat_umod, hmod, BitVec.toNat_sub_of_le hge,
      (by omega : a.toNat+2^k-b.toNat = a.toNat-b.toNat+2^k), Nat.add_mod_right]

/-- Differences of residues are residues. -/
lemma sub_mod_lt (hk : k < w) (ha : a.toNat < 2^k) (hb : b.toNat < 2^k) :
    (sub_mod a b (BitVec.ofNat w (2^k))).toNat < 2^k := by
  rw [sub_mod_toNat hk ha hb]
  exact Nat.mod_lt _ (Nat.two_pow_pos k)

lemma setWidth_sub_mod (hk : k < w) (ha : a.toNat < 2^k) (hb : b.toNat < 2^k) :
    (sub_mod a b (BitVec.ofNat w (2^k))).setWidth k = a.setWidth k-b.setWidth k := by
  apply BitVec.eq_of_toNat_eq
  rw [BitVec.toNat_setWidth, sub_mod_toNat hk ha hb, BitVec.toNat_sub, BitVec.toNat_setWidth,
    BitVec.toNat_setWidth, Nat.mod_eq_of_lt ha, Nat.mod_eq_of_lt hb, Nat.mod_mod]
  congr 1
  omega

end sub_mod

lemma Ins.sub_packed {a b : Ins} (ha : a.Packed) (hb : b.Packed) : (a.sub b).Packed where
  optr := sub_mod_lt (by norm_num) ha.optr hb.optr
  idic := sub_mod_lt (by norm_num) ha.idic hb.idic
  i := sub_mod_lt (by norm_num) ha.i hb.i
  j := sub_mod_lt (by norm_num) ha.j hb.j
  pad := sub_mod_lt (by norm_num) ha.pad hb.pad

/-! ## The codec -/

lemma m2i_packed (x : BitVec 64) : (m2i x).Packed := by
  have hfield : ∀ (w k n : ℕ), k ≤ w → (BitVec.ofNat w (n%2^k)).toNat < 2^k := by
    intro w k n hk
    have hle := Nat.pow_le_pow_right two_pos hk
    have hlt := Nat.mod_lt n (Nat.two_pow_pos k)
    rw [BitVec.toNat_ofNat, Nat.mod_eq_of_lt (by omega)]
    exact hlt
  exact {
    optr := hfield 8 optLen _ (by norm_num)
    idic := hfield 8 indicLen _ (by norm_num)
    i := hfield 8 regisLen _ (by norm_num)
    j := hfield 8 regisLen _ (by norm_num)
    pad := hfield 16 padLen _ (by norm_num)
  }

/-- The fields take up all 64 bits. -/
lemma i2m_m2i (x : BitVec 64) : i2m (m2i x) = x := by
  apply BitVec.eq_of_toNat_eq
  have hx := x.isLt
  simp only [i2m, m2i, BitVec.toNat_ofNat, optLen, indicLen, regisLen, padLen, immLen]
  omega

lemma m2i_subIns (a b : BitVec 64) : m2i (subIns a b) = (m2i a).sub (m2i b) :=
  m2i_i2m (Ins.sub_packed (m2i_packed a) (m2i_packed b))

/-! ## Fields as residues -/

def padField : Field where
  w := 16
  k := padLen
  get := Ins.pad
  hk := by norm_num
  hw := by norm_num
  add _ _ := rfl
  mul _ _ := rfl
  neg _ := rfl
  of _ := rfl

inductive InsField
  | optr
  | idic
  | i
  | j
  | pad
  | imme

namespace InsField

def width : InsField → ℕ
  | optr => optLen
  | idic => indicLen
  | i | j => regisLen
  | pad => padLen
  | imme => immLen

def value (fd : InsField) (a : Ins) : ℕ :=
  match fd with
  | optr => a.optr.toNat
  | idic => a.idic.toNat
  | i => a.i.toNat
  | j => a.j.toNat
  | pad => a.pad.toNat
  | imme => a.imme.toNat

/-- The field modulo its width. -/
def part (fd : InsField) (a : Ins) : BitVec fd.width :=
  match fd with
  | optr => optrField.part a
  | idic => idicField.part a
  | i => iField.part a
  | j => jField.part a
  | pad => padField.part a
  | imme => a.imme

def trunc (fd : InsField) : Word →+* BitVec fd.width :=
  match fd with
  | optr => optrField.trunc
  | idic => idicField.trunc
  | i => iField.trunc
  | j => jField.trunc
  | pad => padField.trunc
  | imme => RingHom.id Word

variable (fd : InsField)

lemma part_toNat (a : Ins) : (fd.part a).toNat = fd.value a%2^fd.width := by
  cases fd with
  | imme => exact (Nat.mod_eq_of_lt a.imme.isLt).symm
  | optr | idic | i | j | pad => exact BitVec.toNat_setWidth _ _

lemma trunc_toNat (c : Word) : (fd.trunc c).toNat = c.toNat%2^fd.width := by
  cases fd with
  | imme => exact (Nat.mod_eq_of_lt c.isLt).symm
  | optr | idic | i | j | pad => exact BitVec.toNat_setWidth _ _

lemma value_lt {a : Ins} (h : a.Packed) : fd.value a < 2^fd.width := by
  cases fd with
  | optr => exact h.optr
  | idic => exact h.idic
  | i => exact h.i
  | j => exact h.j
  | pad => exact h.pad
  | imme => exact a.imme.isLt

lemma value_eq {a : Ins} (h : a.Packed) : fd.value a = (fd.part a).toNat := by
  rw [part_toNat, Nat.mod_eq_of_lt (fd.value_lt h)]

lemma part_neg (a : Ins) : fd.part a.neg = -fd.part a := by
  cases fd with
  | optr => exact optrField.part_neg a
  | idic => exact idicField.part_neg a
  | i => exact iField.part_neg a
  | j => exact jField.part_neg a
  | pad => exact padField.part_neg a
  | imme => rfl

lemma part_sub {a b : Ins} (ha : a.Packed) (hb : b.Packed) : fd.part (a.sub b) = fd.part a-fd.part b := by
  cases fd with
  | optr => exact setWidth_sub_mod (by norm_num) ha.optr hb.optr
  | idic => exact setWidth_sub_mod (by norm_num) ha.idic hb.idic
  | i => exact setWidth_sub_mod (by norm_num) ha.i hb.i
  | j => exact setWidth_sub_mod (by norm_num) ha.j hb.j
  | pad => exact setWidth_sub_mod (by norm_num) ha.pad hb.pad
  | imme => rfl

lemma linear : Linear (fun x => fd.part (m2i x)) fd.trunc mulInsSingle addIns := by
  cases fd with
  | optr => exact optrField.linear
  | idic => exact idicField.linear
  | i => exact iField.linear
  | j => exact jField.linear
  | pad => exact padField.linear
  | imme => exact imme_linear

end InsField

/-- A field of a word as a residue. -/
def wordPart (fd : InsField) (x : BitVec 64) : BitVec fd.width := fd.part (m2i x)

section words
variable (fd : InsField) (a b : BitVec 64)

lemma wordPart_add : wordPart fd (addIns a b) = wordPart fd a+wordPart fd b := fd.linear.add a b

lemma wordPart_mul (c : Word) : wordPart fd (mulInsSingle a c) = wordPart fd a*fd.trunc c := fd.linear.mul a c

lemma wordPart_sub : wordPart fd (subIns a b) = wordPart fd a-wordPart fd b := by
  rw [wordPart, m2i_subIns, fd.part_sub (m2i_packed a) (m2i_packed b), wordPart, wordPart]

lemma wordPart_zero : wordPart fd 0 = 0 := by
  cases fd <;> rfl

/-- A word is known by its fields. -/
lemma word_ext {a b : BitVec 64} (h : ∀ fd, wordPart fd a = wordPart fd b) : a = b := by
  have hval : ∀ fd, InsField.value fd (m2i a) = InsField.value fd (m2i b) := by
    intro fd
    rw [fd.value_eq (m2i_packed a), fd.value_eq (m2i_packed b)]
    exact congrArg _ (h fd)
  rw [← i2m_m2i a, ← i2m_m2i b]
  congr 1
  ext : 1
  · exact BitVec.eq_of_toNat_eq (hval .optr)
  · exact BitVec.eq_of_toNat_eq (hval .idic)
  · exact BitVec.eq_of_toNat_eq (hval .i)
  · exact BitVec.eq_of_toNat_eq (hval .j)
  · exact BitVec.eq_of_toNat_eq (hval .pad)
  · exact BitVec.eq_of_toNat_eq (hval .imme)

end words

/-! ## The fetch -/

/-- The loop of a read over `n` words. -/
def insFold (n : ℕ) (data : ℕ → BitVec 64) (e : ℕ → Word) : BitVec 64 :=
  (List.range' 1 (n-1)).foldl (fun res i => addIns res (mulInsSingle (data i) (e i)))
    (mulInsSingle (data 0) (e 0))

/-- Words that two pairs of players share, and their coefficients for word `j`. -/
structure InsFetch where
  n : ℕ
  data : ℕ → BitVec 64
  data0 : ℕ → BitVec 64
  e0 : ℕ → Word
  e1 : ℕ → Word
  e2 : ℕ → Word
  e3 : ℕ → Word
  j : ℕ
  j_lt : j < n
  unit01 : ∀ i < n, e0 i-e1 i = if i = j then 1 else 0
  unit23 : ∀ i < n, e2 i-e3 i = if i = j then 1 else 0

def InsFetch.data1 (s : InsFetch) (i : ℕ) : BitVec 64 := subIns (s.data i) (s.data0 i)

/-- `now_ins` of the players: 1 and 3 negate the fields. -/
def InsFetch.nowIns (s : InsFetch) (p : Party) : Ins :=
  match p with
  | .player0 => m2i (insFold s.n s.data0 s.e0)
  | .player1 => (m2i (insFold s.n s.data0 s.e1)).neg
  | .player2 => m2i (insFold s.n s.data1 s.e2)
  | .player3 => (m2i (insFold s.n s.data1 s.e3)).neg

section fetch
variable (fd : InsField)

lemma insFold_eq {n : ℕ} (hn : 0 < n) (data : ℕ → BitVec 64) (e : ℕ → Word) :
    wordPart fd (insFold n data e) = ∑ i ∈ Finset.range n, wordPart fd (data i)*fd.trunc (e i) := by
  have hsum := foldl_linear fd.linear data e (n-1)
  rw [Nat.sub_add_cancel hn] at hsum
  exact hsum

/-- Coefficients that differ at `j` by one pick the word `j`. -/
lemma insFold_sub {n j : ℕ} (hj : j < n) (data : ℕ → BitVec 64) {e e' : ℕ → Word}
    (h : ∀ i < n, e i-e' i = if i = j then 1 else 0) :
    wordPart fd (insFold n data e)-wordPart fd (insFold n data e') = wordPart fd (data j) := by
  rw [insFold_eq fd (by omega), insFold_eq fd (by omega), ← Finset.sum_sub_distrib]
  have hterm : ∀ i ∈ Finset.range n, wordPart fd (data i)*fd.trunc (e i)
      -wordPart fd (data i)*fd.trunc (e' i) = if i = j then wordPart fd (data i) else 0 := by
    intro i hi
    rw [← mul_sub, ← map_sub, h i (Finset.mem_range.mp hi)]
    split
    · rw [map_one, mul_one]
    · rw [map_zero, mul_zero]
  rw [Finset.sum_congr rfl hterm, Finset.sum_ite_eq', if_pos (Finset.mem_range.mpr hj)]

lemma nowIns_part (s : InsFetch) :
    fd.part (s.nowIns .player0)+fd.part (s.nowIns .player1)+fd.part (s.nowIns .player2)
      +fd.part (s.nowIns .player3) = wordPart fd (s.data s.j) := by
  have h0 := insFold_sub fd s.j_lt s.data0 s.unit01
  have h1 := insFold_sub fd s.j_lt s.data1 s.unit23
  have hdata := wordPart_sub fd (s.data s.j) (s.data0 s.j)
  have hn1 : fd.part (s.nowIns .player1) = -wordPart fd (insFold s.n s.data0 s.e1) := fd.part_neg _
  have hn3 : fd.part (s.nowIns .player3) = -wordPart fd (insFold s.n s.data1 s.e3) := fd.part_neg _
  have hp0 : fd.part (s.nowIns .player0) = wordPart fd (insFold s.n s.data0 s.e0) := rfl
  have hp2 : fd.part (s.nowIns .player2) = wordPart fd (insFold s.n s.data1 s.e2) := rfl
  have hshare : wordPart fd (s.data1 s.j) = wordPart fd (s.data s.j)-wordPart fd (s.data0 s.j) := hdata
  rw [hn1, hn3, hp0, hp2]
  linear_combination h0+h1+hshare

end fetch

/-! ## Results -/

structure InsCodec : Prop where
  word : ∀ x, i2m (m2i x) = x
  ins : ∀ a : Ins, a.Packed → m2i (i2m a) = a

/-- The words are a commutative group under field-wise addition, and `subIns` is its difference. -/
structure InsGroup : Prop where
  field : ∀ fd a b, InsField.value fd (m2i (addIns a b)) =
    (InsField.value fd (m2i a)+InsField.value fd (m2i b))%2^fd.width
  assoc : ∀ a b c, addIns (addIns a b) c = addIns a (addIns b c)
  comm : ∀ a b, addIns a b = addIns b a
  zero : ∀ a, addIns a 0 = a
  sub_add : ∀ a b, addIns (subIns a b) b = a
  add_sub : ∀ a b, subIns (addIns a b) b = a

structure InsScale : Prop where
  field : ∀ fd a c, InsField.value fd (m2i (mulInsSingle a c)) =
    InsField.value fd (m2i a)*c.toNat%2^fd.width
  add_ins : ∀ a b c, mulInsSingle (addIns a b) c = addIns (mulInsSingle a c) (mulInsSingle b c)
  add_word : ∀ a c d, mulInsSingle a (c+d) = addIns (mulInsSingle a c) (mulInsSingle a d)

lemma insGroup : InsGroup where
  field fd a b := by
    rw [fd.value_eq (m2i_packed _), fd.value_eq (m2i_packed a), fd.value_eq (m2i_packed b),
      ← BitVec.toNat_add]
    exact congrArg _ (wordPart_add fd a b)
  assoc a b c := word_ext fun fd => by simp only [wordPart_add, add_assoc]
  comm a b := word_ext fun fd => by simp only [wordPart_add, add_comm]
  zero a := word_ext fun fd => by rw [wordPart_add, wordPart_zero, add_zero]
  sub_add a b := word_ext fun fd => by rw [wordPart_add, wordPart_sub, sub_add_cancel]
  add_sub a b := word_ext fun fd => by rw [wordPart_sub, wordPart_add, add_sub_cancel_right]

lemma insScale : InsScale where
  field fd a c := by
    have hval : InsField.value fd (m2i (mulInsSingle a c)) = (wordPart fd a*fd.trunc c).toNat := by
      rw [fd.value_eq (m2i_packed _), ← wordPart_mul, wordPart]
    rw [hval, BitVec.toNat_mul, fd.trunc_toNat, Nat.mul_mod_mod, wordPart, ← fd.value_eq (m2i_packed a)]
  add_ins a b c := word_ext fun fd => by simp only [wordPart_add, wordPart_mul, add_mul]
  add_word a c d := word_ext fun fd => by simp only [wordPart_add, wordPart_mul, map_add, mul_add]

/-- The codec, the ring operations and the fetch are sound. -/
theorem ins_sound : InsCodec ∧ InsGroup ∧ InsScale ∧ ∀ (s : InsFetch) (fd : InsField),
    (fd.value (s.nowIns .player0)+fd.value (s.nowIns .player1)+fd.value (s.nowIns .player2)
      +fd.value (s.nowIns .player3))%2^fd.width = fd.value (m2i (s.data s.j)) := by
  refine ⟨⟨i2m_m2i,fun a h => m2i_i2m h⟩,insGroup,insScale,fun s fd => ?_⟩
  have hpart := congrArg BitVec.toNat (nowIns_part fd s)
  rw [fd.value_eq (m2i_packed _)]
  refine Eq.trans ?_ hpart
  simp only [BitVec.toNat_add, fd.part_toNat, Nat.add_mod, Nat.mod_mod]

/-- Three words, of which the second one is fetched; the shares and the second coefficients are arbitrary. -/
def threeFetch : InsFetch where
  n := 3
  data i := 0x9abcdef012345678*BitVec.ofNat 64 (i+1)
  data0 i := 0xfedcba9876543210 >>> i
  e0 i := 0x9e3779b9*BitVec.ofNat 32 i+if i = 1 then 1 else 0
  e1 i := 0x9e3779b9*BitVec.ofNat 32 i
  e2 i := 0xdeadbeef-BitVec.ofNat 32 i+if i = 1 then 1 else 0
  e3 i := 0xdeadbeef-BitVec.ofNat 32 i
  j := 1
  j_lt := by decide
  unit01 _ _ := add_sub_cancel_left _ _
  unit23 _ _ := add_sub_cancel_left _ _

/-- The players' opcodes and immediates add up to those of the second word. -/
theorem fetch_three :
    ((threeFetch.nowIns .player0).optr.toNat+(threeFetch.nowIns .player1).optr.toNat
      +(threeFetch.nowIns .player2).optr.toNat+(threeFetch.nowIns .player3).optr.toNat)%2^5 = 6 ∧
    ((threeFetch.nowIns .player0).imme.toNat+(threeFetch.nowIns .player1).imme.toNat
      +(threeFetch.nowIns .player2).imme.toNat+(threeFetch.nowIns .player3).imme.toNat)%2^32 = 610839792 :=
  ⟨(ins_sound.2.2.2 threeFetch .optr).trans (by decide),(ins_sound.2.2.2 threeFetch .imme).trans (by decide)⟩

end OramPro
