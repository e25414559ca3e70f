import OramPro.FssCommon

/-!
# Comparison-function keys generated by two parties

`DCF_MPC` and the selections of `pre_op.h` it uses. The first party of `players` is `false`. A
selection of `n` bytes hands the buffers over in `n / 16` blocks; the oblivious transfer of these
blocks is ideal.
-/
namespace OramPro.DcfMpc

/-! ## Selections -/

section select
variable {n : ℕ}

/-- A buffer of `n` bytes after `n/16` blocks of a message have been received into it. -/
def otRecv (msg buf : BitVec (8*n)) : BitVec (8*n) :=
  (msg.setWidth (128*(n/16))).setWidth (8*n)|||(buf>>>(128*(n/16)))<<<(128*(n/16))

variable (data0 data1 : Bool → BitVec (8*n)) (select_bit : Bool → Bool) (r res : Bool → BitVec (8*n))

/-- `shared_select` on bytes at party `p`, with random bytes `r` and a result buffer `res`. -/
def shared_select (p : Bool) : BitVec (8*n) :=
  let z := fun p => data0 p^^^data1 p
  let z_r := fun p => z p^^^r p
  let res := otRecv (if select_bit p then z_r (!p) else r (!p)) (res p)^^^r p
  let res := if select_bit p then res^^^z p else res
  res^^^data0 p

/-- What party `p` of `add_shared_select` sends for the choice `b`. -/
def addSent (p b : Bool) : BitVec (8*n) :=
  let z := data0 p-r p
  let z_r := data1 p-r p
  if select_bit p then (if b then z_r else z) else (if b then z else z_r)

/-- `add_shared_select` of one value. -/
def add_shared_select (p : Bool) : BitVec (8*n) :=
  otRecv (addSent data0 data1 select_bit r (!p) (select_bit p)) (res p)+r p

/-- `half_select`, `is_second`: the first party sends, `res` is random at both. -/
def half_select (data0 data1 : BitVec (8*n)) (select_bit : Bool) (res : Bool → BitVec (8*n)) (p : Bool) :
    BitVec (8*n) :=
  if p then otRecv (if select_bit then data1-res false else data0-res false) (res true) else res false

@[simp] lemma otRecv_zero : otRecv 0#(8*n) 0#(8*n) = 0#(8*n) := by
  simp [otRecv]

/-- The received values add up to the value that the opened bit does not select. -/
lemma addSent_add : addSent data0 data1 select_bit r true (select_bit false)+r false
    +(addSent data0 data1 select_bit r false (select_bit true)+r true) =
      if select_bit false ^^ select_bit true then data0 false+data0 true else data1 false+data1 true := by
  simp only [addSent]
  generalize select_bit false = a
  generalize select_bit true = b
  cases a <;> cases b <;> simp <;> ring

end select

/-! ## Output of the generator

Sixty-four bytes: two seeds, two bits, and two values of `n` bytes from byte 34 on. -/

/-- `byteArr2Block<R>` with `sizeof(R) = n`. -/
def byteArr2Block (n : ℕ) (arr : ℕ → Byte) : BitVec (8*n) :=
  BitVec.ofNat (8*n) ((List.range n).foldr (fun j v => v*256+(arr j).toNat) 0)

section out
variable (prg : ℕ → Block → Block) (n : ℕ) (key : Block) (b : Bool)

def outBit : Byte := prfByte prg key (32+b.toNat)%2

def outValue : BitVec (8*n) := byteArr2Block n fun j => prfByte prg key (34+b.toNat*n+j)

end out

/-- Every byte multiplied by `t`. -/
def mulBytes (t : Byte) (s : Block) : Block :=
  (List.range 16).foldr (fun j v => v<<<8|||(t*byteAt s j).setWidth 128) 0

/-! ## Key generation -/

structure NCWLt where
  cs : Block
  ct : Bool → Byte
  cv : BitVec 64
  deriving Inhabited

structure LevelSums (n : ℕ) where
  s_L_R : Bool → Block
  t_L_R : Bool → Byte
  V_L_R : Bool → BitVec (8*n)

/-- Random bytes of a level, and the contents of the two buffers on the stack. -/
structure Draw (n : ℕ) where
  r_cw : Bool → BitVec (8*18)
  cw : Bool → BitVec (8*18)
  r_cv : Bool → BitVec (8*n)
  tmp : Bool → BitVec (8*n)
  r_half : Bool → BitVec (8*n)
  r_alpha : Bool → BitVec (8*n)

def packCw (s : Block) (t0 t1 : Byte) : BitVec (8*18) := (t1++t0++s : BitVec (8+8+128))

section mpc
variable {n : ℕ} (alpha_bit : Bool → Bool) (beta : Bool → BitVec (8*n)) (l : Bool → LevelSums n)
  (t_p : Bool → Byte) (V_alpha : Bool → BitVec (8*n)) (d : Draw n)

def odd (t : Byte) : Bool := t.getLsbD 0

/-- `cw`. The first party flips one bit of either word. -/
def cwShare (p : Bool) : BitVec (8*18) :=
  let cw_0 := fun p => packCw ((l p).s_L_R true) (if p then (l p).t_L_R false else (l p).t_L_R false^^^1)
    ((l p).t_L_R true)
  let cw_1 := fun p => packCw ((l p).s_L_R false) ((l p).t_L_R false)
    (if p then (l p).t_L_R true else (l p).t_L_R true^^^1)
  shared_select cw_0 cw_1 alpha_bit d.r_cw d.cw p

def cvShare (p : Bool) : BitVec (8*n) :=
  let V := fun p => (l p).V_L_R
  let tmps0 := fun p => if p then V p true-V_alpha p else -V p true-V_alpha p
  let tmps1 := fun p => if p then V p false-V_alpha p+beta p else -V p false-V_alpha p+beta p
  let tmp := add_shared_select tmps0 tmps1 alpha_bit d.r_cv d.tmp
  half_select (tmp false) (-tmp false) (odd (t_p true)) d.r_half p

/-- The next `V_alpha`; it is selected into itself. -/
def nextAlpha (p : Bool) : BitVec (8*n) :=
  let V := fun p => (l p).V_L_R
  let tmps0 := fun p => if p then V p true-V p false else V p false-V p true
  let tmps1 := fun p => if p then V p false-V p true+beta p else V p true-V p false+beta p
  add_shared_select tmps0 tmps1 alpha_bit d.r_alpha V_alpha p

/-- `mpc_dcf`: the word that party `p` stores is its own share. -/
def mpc_dcf (p : Bool) : NCWLt :=
  let cw := cwShare alpha_bit l d p
  { cs := cw.setWidth 128
    ct := fun b => cw.extractLsb' (if b then 136 else 128) 8
    cv := (cvShare alpha_bit beta l t_p V_alpha d p).setWidth 64 }

end mpc

/-- A party during `gen`; `out_level` keeps the keys whose outputs are in the queue. -/
structure Gen (n : ℕ) where
  s_level : List Block
  out_level : List Block
  t_level : List Byte
  t0 : Byte
  V_alpha : BitVec (8*n)
  CW : ℕ → NCWLt

section gen
variable (prg : ℕ → Block → Block) {n w : ℕ}

/-- `1 << k`, an `int`, as a bound of a loop from 0. -/
def loopBound (k : ℕ) : ℕ := ((1 : BitVec 32)<<<k).toInt.toNat

/-- The first loop over a level. -/
def sumStep (st : Gen n × LevelSums n) : Gen n × LevelSums n :=
  let key := st.1.s_level.headD 0
  ({ st.1 with s_level := st.1.s_level.tail, out_level := st.1.out_level++[key] },
    { s_L_R := fun b => st.2.s_L_R b^^^prfSeed prg key b
      t_L_R := fun b => st.2.t_L_R b^^^outBit prg key b
      V_L_R := fun b => st.2.V_L_R b+outValue prg n key b })

/-- The second loop. Both children keep the left seed. -/
def childStep (cw : NCWLt) (tmp_t : BitVec 32) (st : Gen n) (i : ℕ) : Gen n :=
  let key := st.out_level.headD 0
  let t_b := st.t_level.headD 0
  let next_s := prfSeed prg key false^^^mulBytes t_b cw.cs
  let t_w := fun b => outBit prg key b^^^t_b*cw.ct b
  { st with
    s_level := st.s_level++[next_s,next_s]
    out_level := st.out_level.tail
    t_level := st.t_level.tail++[t_w false,t_w true]
    t0 := if i*2 = tmp_t.toNat then t_w false else if i*2+1 = tmp_t.toNat then t_w true else st.t0 }

def sumLevel (st : Gen n) (k : ℕ) : Gen n × LevelSums n :=
  (List.range k).foldl (fun s _ => sumStep prg s) (st,⟨fun _ => 0,fun _ => 0,fun _ => 0⟩)

def childLevel (cw : NCWLt) (tmp_t : BitVec 32) (st : Gen n) (k : ℕ) : Gen n :=
  (List.range k).foldl (childStep prg cw tmp_t) st

variable (deep : ℕ) (alpha : Bool → BitVec w) (beta : Bool → BitVec (8*n)) (d : ℕ → Draw n)

def alphabit (j : ℕ) (p : Bool) : Bool := (alpha p).getLsbD (deep-j)

def genLevel (st : Bool → Gen n) (j : ℕ) (p : Bool) : Gen n :=
  let nodes := loopBound (j-1)
  let l := fun p => (sumLevel prg (st p) nodes).2
  let t_p := fun p => (st p).t0
  let V_alpha := fun p => (st p).V_alpha
  let cw := mpc_dcf (alphabit deep alpha j) beta l t_p V_alpha (d j) p
  let g := { (sumLevel prg (st p) nodes).1 with
    V_alpha := nextAlpha (alphabit deep alpha j) beta l V_alpha (d j) p
    CW := Function.update (sumLevel prg (st p) nodes).1.CW j cw }
  childLevel prg cw ((alpha p>>>(deep-j)).setWidth 32) g nodes

end gen

structure Object where
  s0 : Block
  CW : ℕ → NCWLt

section keys
variable (prg : ℕ → Block → Block) {n w : ℕ} (deep : ℕ)

/-- The first control bit, `bit ? 1 : 0`. -/
def t_int (p : Bool) : Byte := if p then 1 else 0

def genStart (s0 : Bool → Block) (CW : ℕ → NCWLt) (p : Bool) : Gen n :=
  { s_level := [s0 p], out_level := [], t_level := [t_int p], t0 := t_int p, V_alpha := 0, CW := CW }

/-- `gen` on new objects, with root seeds `s0` and uninitialised words `CW`. -/
def gen (s0 : Bool → Block) (CW : ℕ → NCWLt) (alpha : Bool → BitVec w) (beta : Bool → BitVec (8*n))
    (d : ℕ → Draw n) (p : Bool) : Object :=
  ⟨s0 p,((List.range' 1 deep).foldl (genLevel prg deep alpha beta d) (genStart s0 CW) p).CW⟩

structure Evl (n : ℕ) where
  s0 : Block
  t0 : Byte
  V_alpha : BitVec (8*n)

/-- Level `j` of `evl` at party `p`. For a set bit the first party adds the left value. -/
def evlStep (p : Bool) (CW : ℕ → NCWLt) (x : BitVec w) (st : Evl n) (j : ℕ) : Evl n :=
  let xbit := x.getLsbD (deep-j)
  let cv := (st.t0.setWidth 64*(CW j).cv).setWidth (8*n)
  let V := if p then st.V_alpha-(outValue prg n st.s0 xbit+cv)
    else st.V_alpha+outValue prg n st.s0 false+cv
  ⟨prfSeed prg st.s0 false^^^mulBytes st.t0 (CW j).cs,
    outBit prg st.s0 xbit^^^st.t0*(CW j).ct xbit,V⟩

/-- `evl`: the object keeps the last seed. -/
def evl (n : ℕ) (p : Bool) (o : Object) (x : BitVec w) : Object × BitVec (8*n) :=
  let st := (List.range' 1 deep).foldl (evlStep prg deep p o.CW x) (⟨o.s0,t_int p,0⟩ : Evl n)
  (⟨st.s0,o.CW⟩,st.V_alpha)

def evlAll (n : ℕ) (p : Bool) (o : Object) (xs : List (BitVec w)) : Object :=
  xs.foldl (fun o x => (evl prg deep n p o x).1) o

end keys

/-! ## Correctness -/

/-- What a key for values of `n` bytes is for. -/
def DcfCorrect (deep n : ℕ) : Prop :=
  ∀ (w : ℕ) (prg : ℕ → Block → Block) (s0 : Bool → Block) (CW : ℕ → NCWLt) (alpha : Bool → BitVec w)
    (beta : Bool → BitVec (8*n)) (d : ℕ → Draw n), (alpha false^^^alpha true).toNat < 2^deep →
    ∀ (before : List (BitVec w)) (x : BitVec w), (∀ y ∈ before, y.toNat < 2^deep) → x.toNat < 2^deep →
      let V := fun p =>
        (evl prg deep n p (evlAll prg deep n p (gen prg deep s0 CW alpha beta d p) before) x).2
      V false+V true =
        if x.toNat < (alpha false^^^alpha true).toNat then beta false+beta true else 0

/-! ## A generator that is constantly zero -/

section zeros
variable {deep n : ℕ}

def zeroPrg : ℕ → Block → Block := fun _ _ => 0

/-- The first party knows the point `2^deep-1` and the value 1. -/
def lastPoint (deep : ℕ) (p : Bool) : BitVec deep := if p then 0 else BitVec.allOnes deep

def valueOne (n : ℕ) (p : Bool) : BitVec (8*n) := if p then 0 else 1

def zeroDraw (n : ℕ) : Draw n :=
  ⟨fun _ => 0,fun _ => 0,fun _ => 0,fun _ => 0,fun _ => 0,fun _ => 0⟩

lemma prfByte_zero (key : Block) (j : ℕ) : prfByte zeroPrg key j = 0 := by
  simp [prfByte, zeroPrg, byteAt]

lemma outValue_zero (key : Block) (b : Bool) : outValue zeroPrg n key b = 0 := by
  have hsum : ∀ l : List ℕ, l.foldr (fun j v => v*256+(prfByte zeroPrg key
      (34+b.toNat*n+j)).toNat) 0 = 0 := by
    intro l
    induction l with
    | nil => rfl
    | cons j l ih => rw [List.foldr_cons, ih, prfByte_zero]; rfl
  rw [outValue, byteArr2Block, hsum]
  rfl

/-- No value reaches the second party: its share of the running value stays 0, and so do the value
words. -/
structure Zeros (k : ℕ) (st : Bool → Gen n) : Prop where
  V_alpha : (st true).V_alpha = 0
  cv : ∀ p, ∀ j, 1 ≤ j → j ≤ k → ((st p).CW j).cv = 0

lemma sumLevel_value (st : Gen n) (k : ℕ) (b : Bool) : (sumLevel zeroPrg st k).2.V_L_R b = 0 := by
  induction k with
  | zero => rfl
  | succ k ih =>
    rw [sumLevel, List.range_succ, List.foldl_append]
    change (sumLevel zeroPrg st k).2.V_L_R b+outValue zeroPrg n _ b = 0
    rw [outValue_zero, ih, add_zero]

lemma sumLevel_frame (st : Gen n) (k : ℕ) : (sumLevel zeroPrg st k).1.CW = st.CW :=
  CountLoop.foldl_range (P := fun _ (s : Gen n × LevelSums n) => s.1.CW = st.CW) rfl fun _ _ _ h => h

lemma childLevel_frame (cw : NCWLt) (t : BitVec 32) (st : Gen n) (k : ℕ) :
    (childLevel zeroPrg cw t st k).CW = st.CW ∧ (childLevel zeroPrg cw t st k).V_alpha = st.V_alpha :=
  CountLoop.foldl_range (P := fun _ (s : Gen n) => s.CW = st.CW ∧ s.V_alpha = st.V_alpha) ⟨rfl,rfl⟩
    fun _ _ _ h => h

section level
variable {l : Bool → LevelSums n} {t_p : Bool → Byte} {V_alpha : Bool → BitVec (8*n)} {k : ℕ}

lemma alphabit_lastPoint (hk : k < deep) (p : Bool) : alphabit deep (lastPoint deep) (k+1) p = !p := by
  cases p
  · have hlt : deep-(k+1) < deep := by omega
    simp [alphabit, lastPoint, hlt]
  · simp [alphabit, lastPoint]

lemma cvShare_zero (hl : ∀ p b, (l p).V_L_R b = 0) (hV : V_alpha true = 0) (p : Bool) :
    cvShare (fun p => !p) (valueOne n) l t_p V_alpha (zeroDraw n) p = 0 := by
  have htmp : ∀ tmps0 tmps1 : Bool → BitVec (8*n), tmps0 true = 0 →
      add_shared_select tmps0 tmps1 (fun p => !p) (zeroDraw n).r_cv (zeroDraw n).tmp false = 0 := by
    intro tmps0 tmps1 h0
    simp [add_shared_select, addSent, zeroDraw, h0]
  rw [cvShare, htmp _ _ (by simp [hl, hV])]
  cases p <;> simp [half_select, zeroDraw]

lemma mpc_dcf_zero (hl : ∀ p b, (l p).V_L_R b = 0) (hV : V_alpha true = 0) (p : Bool) :
    (mpc_dcf (fun p => !p) (valueOne n) l t_p V_alpha (zeroDraw n) p).cv = 0 := by
  rw [mpc_dcf, cvShare_zero hl hV]
  exact BitVec.setWidth_zero ..

lemma nextAlpha_zero (hl : ∀ p b, (l p).V_L_R b = 0) (hV : V_alpha true = 0) :
    nextAlpha (fun p => !p) (valueOne n) l V_alpha (zeroDraw n) true = 0 := by
  simp [nextAlpha, add_shared_select, addSent, zeroDraw, hl, hV]

end level

lemma Zeros.next {st : Bool → Gen n} {k : ℕ} (h : Zeros k st) (hk : k < deep) :
    Zeros (k+1) (genLevel zeroPrg deep (lastPoint deep) (valueOne n) (fun _ => zeroDraw n) st (k+1)) := by
  have hbit : alphabit deep (lastPoint deep) (k+1) = fun p => !p := funext (alphabit_lastPoint hk)
  have hvalue : ∀ p b, (sumLevel zeroPrg (st p) (loopBound (k+1-1))).2.V_L_R b = 0 :=
    fun p b => sumLevel_value (st p) _ b
  constructor
  · rw [genLevel, hbit, (childLevel_frame ..).2]
    dsimp only
    exact nextAlpha_zero hvalue h.V_alpha
  · intro p j hj hjk
    rw [genLevel, hbit, (childLevel_frame ..).1]
    dsimp only
    rw [sumLevel_frame]
    by_cases hlast : j = k+1
    · subst hlast
      rw [Function.update_self]
      exact mpc_dcf_zero hvalue h.V_alpha p
    · rw [Function.update_of_ne hlast]
      exact h.cv p j hj (by omega)

lemma zeros_gen {k : ℕ} (hk : k ≤ deep) :
    Zeros k ((List.range' 1 k).foldl (genLevel zeroPrg deep (lastPoint deep) (valueOne n) fun _ => zeroDraw n)
      (genStart (fun _ => 0) fun _ => default)) := by
  induction k with
  | zero => exact ⟨rfl,fun p j h1 h0 => by omega⟩
  | succ k ih =>
    rw [List.range'_concat, List.foldl_append, one_mul, Nat.add_comm 1 k]
    exact (ih (by omega)).next hk

lemma evl_zero (n : ℕ) (p : Bool) {o : Object} (ho : ∀ j, 1 ≤ j → j ≤ deep → (o.CW j).cv = 0) {w : ℕ}
    (x : BitVec w) : (evl zeroPrg deep n p o x).2 = 0 := by
  have hwalk : ∀ k ≤ deep, ((List.range' 1 k).foldl (evlStep zeroPrg deep p o.CW x)
      (⟨o.s0,t_int p,0⟩ : Evl n)).V_alpha = 0 := by
    intro k hk
    induction k with
    | zero => rfl
    | succ k ih =>
      rw [List.range'_concat, List.foldl_append, one_mul, Nat.add_comm 1 k, List.foldl_cons,
        List.foldl_nil, evlStep]
      simp only [outValue_zero, ho (k+1) (by omega) hk, ih (by omega)]
      cases p <;> simp
  exact hwalk deep le_rfl

end zeros

lemma not_correct {deep n : ℕ} (hdeep : 0 < deep) (hn : 0 < n) : ¬DcfCorrect deep n := by
  intro h
  have hpow : 1 < 2^deep := Nat.one_lt_two_pow hdeep.ne'
  have hpoint : (lastPoint deep false^^^lastPoint deep true).toNat = 2^deep-1 := by
    simp [lastPoint]
  have hone : valueOne n false+valueOne n true = 1 := by simp [valueOne]
  have hzero := h deep zeroPrg (fun _ => 0) (fun _ => default) (lastPoint deep) (valueOne n)
    (fun _ => zeroDraw n) (by omega) [] 0 (fun y hy => absurd hy (List.not_mem_nil)) (by simp)
  have hV : ∀ p, (evl zeroPrg deep n p (gen zeroPrg deep (fun _ => 0) (fun _ => default)
      (lastPoint deep) (valueOne n) (fun _ => zeroDraw n) p) (0 : BitVec deep)).2 = 0 :=
    fun p => evl_zero n p (fun j hj hle => (zeros_gen le_rfl).cv p j hj hle) 0
  simp only [evlAll, List.foldl_nil] at hzero
  rw [hV, hV, hpoint, hone, if_pos (by simp; omega)] at hzero
  have hbit := congrArg BitVec.toNat hzero
  have hbytes : 1 < 2^(8*n) := Nat.one_lt_two_pow (by omega)
  simp [Nat.mod_eq_of_lt hbytes] at hbit

/-- Without a level there is nothing to compare. With any level some key is wrong: the correction
words are never opened, so each party works with its own share of them. -/
theorem dcf_correct_iff (deep : ℕ) {n : ℕ} (hn : 0 < n) : DcfCorrect deep n ↔ deep = 0 := by
  constructor
  · intro h
    by_contra hdeep
    exact not_correct (Nat.pos_of_ne_zero hdeep) hn h
  · rintro rfl w prg s0 CW alpha beta d halpha before x - hx
    have hx0 : x.toNat = 0 := by omega
    have ha0 : (alpha false^^^alpha true).toNat = 0 := by omega
    rw [hx0, ha0, if_neg (lt_irrefl 0)]
    exact add_zero (0 : BitVec (8*n))

theorem dcf_correct_zero : 0 < 4 ∧ DcfCorrect 0 4 := ⟨by norm_num,(dcf_correct_iff 0 (by norm_num)).mpr rfl⟩

theorem dcf_one_level_wrong : ¬DcfCorrect 1 4 := not_correct (by norm_num) (by norm_num)

end OramPro.DcfMpc
