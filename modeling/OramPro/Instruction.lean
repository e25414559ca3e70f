import OramPro.Ram

/-!
# Instruction words

An instruction is packed into 64 bits. Words are shared and read field by field, so addition
and multiplication of words act modulo the width of each field.
-/
namespace OramPro

abbrev optLen : ℕ := 5
abbrev indicLen : ℕ := 6
abbrev regisLen : ℕ := 5
abbrev padLen : ℕ := 11
abbrev immLen : ℕ := 32

@[ext] structure Ins where
  optr : BitVec 8
  idic : BitVec 8
  i : BitVec 8
  j : BitVec 8
  pad : BitVec 16
  imme : Word

/-- Unpack a word, the least significant field first. -/
def m2i (data : BitVec 64) : Ins :=
  let data0 := data.toNat
  let data1 := data0/2^immLen
  let data2 := data1/2^padLen
  let data3 := data2/2^regisLen
  let data4 := data3/2^regisLen
  let data5 := data4/2^indicLen
  { imme := BitVec.ofNat 32 data0
    pad := BitVec.ofNat 16 (data1%2^padLen)
    j := BitVec.ofNat 8 (data2%2^regisLen)
    i := BitVec.ofNat 8 (data3%2^regisLen)
    idic := BitVec.ofNat 8 (data4%2^indicLen)
    optr := BitVec.ofNat 8 (data5%2^optLen) }

def i2m (data : Ins) : BitVec 64 :=
  let ans := data.optr.toNat*2^indicLen+data.idic.toNat
  let ans := ans*2^regisLen+data.i.toNat
  let ans := ans*2^regisLen+data.j.toNat
  let ans := ans*2^padLen+data.pad.toNat
  BitVec.ofNat 64 (ans*2^immLen+data.imme.toNat)

/-- A field operation in `int`, reduced to `k` bits and stored in `w` bits. -/
def fieldOp {w : ℕ} (op : ℕ → ℕ → ℕ) (k : ℕ) (a b : BitVec w) : BitVec w :=
  BitVec.ofNat w (op a.toNat b.toNat%2^k)

def Ins.map2 (op : ℕ → ℕ → ℕ) (imm : Word → Word → Word) (a b : Ins) : Ins where
  optr := fieldOp op optLen a.optr b.optr
  idic := fieldOp op indicLen a.idic b.idic
  i := fieldOp op regisLen a.i b.i
  j := fieldOp op regisLen a.j b.j
  pad := fieldOp op padLen a.pad b.pad
  imme := imm a.imme b.imme

def Ins.add (a b : Ins) : Ins := a.map2 (· + ·) (· + ·) b
def Ins.mul (a b : Ins) : Ins := a.map2 (· * ·) (· * ·) b

def Ins.neg (a : Ins) : Ins where
  optr := BitVec.ofNat 8 (2^optLen)-a.optr
  idic := BitVec.ofNat 8 (2^indicLen)-a.idic
  i := BitVec.ofNat 8 (2^regisLen)-a.i
  j := BitVec.ofNat 8 (2^regisLen)-a.j
  pad := BitVec.ofNat 16 (2^padLen)-a.pad
  imme := -a.imme

/-- The instruction that `mul_ins_single` makes of a word. -/
def insOf (b : Word) : Ins where
  optr := BitVec.ofNat 8 (b.toNat%2^optLen)
  idic := BitVec.ofNat 8 (b.toNat%2^indicLen)
  i := BitVec.ofNat 8 (b.toNat%2^regisLen)
  j := BitVec.ofNat 8 (b.toNat%2^regisLen)
  pad := BitVec.ofNat 16 (b.toNat%2^padLen)
  imme := b

def addIns (a b : BitVec 64) : BitVec 64 := i2m ((m2i a).add (m2i b))
def mulInsSingle (a : BitVec 64) (b : Word) : BitVec 64 := i2m ((m2i a).mul (insOf b))

/-- Every field fits in its width. -/
structure Ins.Packed (a : Ins) : Prop where
  optr : a.optr.toNat < 2^optLen
  idic : a.idic.toNat < 2^indicLen
  i : a.i.toNat < 2^regisLen
  j : a.j.toNat < 2^regisLen
  pad : a.pad.toNat < 2^padLen

/-- Unpacking recovers a packed instruction. -/
theorem m2i_i2m {a : Ins} (h : a.Packed) : m2i (i2m a) = a := by
  obtain ⟨h0, h1, h2, h3, h4⟩ := h
  have h5 := a.imme.isLt
  simp only [optLen, indicLen, regisLen, padLen] at h0 h1 h2 h3 h4
  have hn : (i2m a).toNat = ((((a.optr.toNat*2^6+a.idic.toNat)*2^5+a.i.toNat)*2^5+a.j.toNat)*2^11+
      a.pad.toNat)*2^32+a.imme.toNat := by
    simp only [i2m, BitVec.toNat_ofNat, indicLen, regisLen, padLen, immLen]
    omega
  apply Ins.ext <;> apply BitVec.eq_of_toNat_eq <;>
    simp only [m2i, hn, BitVec.toNat_ofNat, optLen, indicLen, regisLen, padLen, immLen] <;> omega

lemma fieldOp_lt {w : ℕ} (op : ℕ → ℕ → ℕ) {k : ℕ} (hk : k ≤ w) (a b : BitVec w) :
    (fieldOp op k a b).toNat < 2^k := by
  have hle := Nat.pow_le_pow_right (n := 2) (by norm_num) hk
  have hlt := Nat.mod_lt (op a.toNat b.toNat) (Nat.two_pow_pos k)
  rw [fieldOp, BitVec.toNat_ofNat, Nat.mod_eq_of_lt (by omega)]
  exact hlt

lemma Ins.map2_packed (op : ℕ → ℕ → ℕ) (imm : Word → Word → Word) (a b : Ins) :
    (a.map2 op imm b).Packed where
  optr := fieldOp_lt op (by norm_num) _ _
  idic := fieldOp_lt op (by norm_num) _ _
  i := fieldOp_lt op (by norm_num) _ _
  j := fieldOp_lt op (by norm_num) _ _
  pad := fieldOp_lt op (by norm_num) _ _

@[simp] lemma m2i_addIns (a b : BitVec 64) : m2i (addIns a b) = (m2i a).add (m2i b) :=
  m2i_i2m (Ins.map2_packed _ _ _ _)

@[simp] lemma m2i_mulInsSingle (a : BitVec 64) (b : Word) :
    m2i (mulInsSingle a b) = (m2i a).mul (insOf b) :=
  m2i_i2m (Ins.map2_packed _ _ _ _)

/-! ## Fields as residues -/

/-- Truncation of a word to `k` bits as a ring homomorphism. -/
def truncHom (k : ℕ) (hk : k ≤ 32) : Word →+* BitVec k where
  toFun x := x.setWidth k
  map_one' := by
    apply BitVec.eq_of_toNat_eq
    simp only [BitVec.toNat_setWidth]
    rfl
  map_zero' := by simp
  map_add' a b := BitVec.setWidth_add a b hk
  map_mul' a b := BitVec.setWidth_mul a b hk

lemma setWidth_ofNat_mod {w k : ℕ} (hk : k ≤ w) (n : ℕ) :
    (BitVec.ofNat w (n%2^k)).setWidth k = BitVec.ofNat k n := by
  apply BitVec.eq_of_toNat_eq
  rw [BitVec.toNat_setWidth, BitVec.toNat_ofNat, BitVec.toNat_ofNat,
    Nat.mod_mod_of_dvd _ (Nat.pow_dvd_pow 2 hk), Nat.mod_mod]

lemma setWidth_fieldOp_add {w k : ℕ} (hk : k ≤ w) (a b : BitVec w) :
    (fieldOp (· + ·) k a b).setWidth k = a.setWidth k+b.setWidth k := by
  rw [fieldOp, setWidth_ofNat_mod hk]
  apply BitVec.eq_of_toNat_eq
  simp

lemma setWidth_fieldOp_mul {w k : ℕ} (hk : k ≤ w) (a b : BitVec w) :
    (fieldOp (· * ·) k a b).setWidth k = a.setWidth k*b.setWidth k := by
  rw [fieldOp, setWidth_ofNat_mod hk]
  apply BitVec.eq_of_toNat_eq
  simp [Nat.mul_mod]

/-- A field of `w` bits that uses its low `k` bits. -/
structure Field where
  w : ℕ
  k : ℕ
  get : Ins → BitVec w
  hk : k ≤ w
  hw : w ≤ 32
  add : ∀ a b, get (a.add b) = fieldOp (· + ·) k (get a) (get b)
  mul : ∀ a b, get (a.mul b) = fieldOp (· * ·) k (get a) (get b)
  neg : ∀ a, get a.neg = BitVec.ofNat w (2^k)-get a
  of : ∀ b : Word, get (insOf b) = BitVec.ofNat w (b.toNat%2^k)

def Field.part (F : Field) (a : Ins) : BitVec F.k := (F.get a).setWidth F.k

def Field.trunc (F : Field) : Word →+* BitVec F.k := truncHom F.k (F.hk.trans F.hw)

lemma Field.part_add (F : Field) (a b : Ins) : F.part (a.add b) = F.part a+F.part b := by
  simp only [Field.part, F.add, setWidth_fieldOp_add F.hk]

lemma Field.part_neg (F : Field) (a : Ins) : F.part a.neg = -F.part a := by
  rw [eq_neg_iff_add_eq_zero, Field.part, Field.part, F.neg, ← BitVec.setWidth_add _ _ F.hk,
    sub_add_cancel, BitVec.setWidth_ofNat_of_le F.hk]
  apply BitVec.eq_of_toNat_eq
  rw [BitVec.toNat_ofNat, Nat.mod_self]
  rfl

/-- A field that is passed on as a word keeps its residue. -/
lemma Field.trunc_word (F : Field) (a : Ins) : F.trunc ((F.get a).setWidth 32) = F.part a :=
  BitVec.setWidth_setWidth_of_le _ (F.hk.trans F.hw)

lemma Field.trunc_toNat (F : Field) (x : Word) : (F.trunc x).toNat = x.toNat%2^F.k :=
  BitVec.toNat_setWidth _ _

lemma Field.part_toNat (F : Field) (a : Ins) : (F.part a).toNat = (F.get a).toNat%2^F.k :=
  BitVec.toNat_setWidth _ _

lemma Field.linear (F : Field) : Linear (fun x => F.part (m2i x)) F.trunc mulInsSingle addIns where
  add a b := by rw [m2i_addIns, F.part_add]
  mul a c := by
    simp only [Field.part, m2i_mulInsSingle, F.mul, setWidth_fieldOp_mul F.hk, F.of,
      setWidth_ofNat_mod F.hk, BitVec.ofNat_toNat]
    rfl

lemma imme_linear :
    Linear (fun x => (m2i x).imme) (RingHom.id Word) mulInsSingle addIns where
  add a b := by rw [m2i_addIns]; rfl
  mul a c := by rw [m2i_mulInsSingle]; rfl

def optrField : Field where
  w := 8
  k := optLen
  get := Ins.optr
  hk := by norm_num
  hw := by norm_num
  add _ _ := rfl
  mul _ _ := rfl
  neg _ := rfl
  of _ := rfl

def idicField : Field where
  w := 8
  k := indicLen
  get := Ins.idic
  hk := by norm_num
  hw := by norm_num
  add _ _ := rfl
  mul _ _ := rfl
  neg _ := rfl
  of _ := rfl

def iField : Field where
  w := 8
  k := regisLen
  get := Ins.i
  hk := by norm_num
  hw := by norm_num
  add _ _ := rfl
  mul _ _ := rfl
  neg _ := rfl
  of _ := rfl

def jField : Field where
  w := 8
  k := regisLen
  get := Ins.j
  hk := by norm_num
  hw := by norm_num
  add _ _ := rfl
  mul _ _ := rfl
  neg _ := rfl
  of _ := rfl

end OramPro
