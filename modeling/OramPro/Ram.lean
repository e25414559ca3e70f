import OramPro.FourParty
import OramPro.FssEq

/-!
# The oblivious array `Ram`

The four parties hold the cells as replicated shares. A read turns the shared index into an
offset between the index and the hidden position of a key pair; the expanded key, shifted by
that offset, selects the cell. A write adds two shifted key lists to every cell.
-/
namespace OramPro

open Party

/-- Lengths for which the loop that lifts a negative offset ends. -/
structure DataLen where
  len : ℕ
  pos : 0 < len
  le : len ≤ 2^31

namespace DataLen

def word (N : DataLen) : Word := BitVec.ofNat 32 N.len

lemma word_toNat (N : DataLen) : N.word.toNat = N.len := by
  have := N.le
  rw [word, BitVec.toNat_ofNat, Nat.mod_eq_of_lt (by omega)]

end DataLen

/-- `logn`: the first `i` below 32 with `2^i ≥ x`. -/
def logn (x : ℕ) : ℕ := ((List.range 32).find? fun i => decide (x ≤ 2^i)).getD 32

lemma logn_spec {x : ℕ} (hx : x ≤ 2^32) :
    x ≤ 2^logn x ∧ logn x ≤ 32 ∧ ∀ i < 32, x ≤ 2^i → logn x ≤ i := by
  cases hm : (List.range 32).find? fun i => decide (x ≤ 2^i) with
  | none =>
    have hlog : logn x = 32 := by rw [logn, hm, Option.getD_none]
    rw [hlog]
    refine ⟨hx,le_rfl,fun i hi h => ?_⟩
    have := List.find?_eq_none.mp hm i (List.mem_range.mpr hi)
    exact absurd h (by simpa using this)
  | some m =>
    have hlog : logn x = m := by rw [logn, hm, Option.getD_some]
    obtain ⟨hp, hmem, hmin⟩ := List.find?_range_eq_some.mp hm
    rw [hlog]
    refine ⟨by simpa using hp,(List.mem_range.mp hmem).le,fun i _ hi => ?_⟩
    by_contra hlt
    have := hmin i (by omega)
    simp [hi] at this

/-- `sub` of the source: a difference modulo `c`, when `a` and `b` are below `c`. -/
def sub (a b c : Word) : Word := if b.toNat ≤ a.toNat then a-b else a+c-b

/-- `while(delta_r > (1<<31)) delta_r+=data_len`; the bound is compared as an unsigned word. -/
def liftDelta (N : DataLen) (x : Word) : Word :=
  if 2^31 < x.toNat then liftDelta N (x+N.word) else x
termination_by if 2^31 < x.toNat then 2^32-x.toNat else 0
decreasing_by
  have hx : 2^31 < x.toNat := by assumption
  have h0 := N.pos
  have h1 := N.le
  have h2 := N.word_toNat
  rw [if_pos hx]
  split
  · have h3 : (x+N.word).toNat = (x.toNat+N.len)%2^32 := by rw [BitVec.toNat_add, h2]
    omega
  · omega

/-- The loop and `delta_r % data_len`. -/
def fixDelta (N : DataLen) (x : Word) : Word := liftDelta N x%N.word

/-! ## Prepared correlated data -/

/-- `fss_triple` -/
structure FssTriple where
  key : ServerKeyEq
  delta : Word

/-- `write_tuple` -/
structure WriteTuple where
  k_w : ServerKeyEq
  k_d : ServerKeyEq
  delta0 : Word
  delta1 : Word
  v : Word

structure KeyDraw where
  root : RootDraw
  level : ℕ → LevelDraw

/-- The values of `rand()` in one round of `prepare_read`. -/
structure ReadDraw where
  delta0 : Word
  delta1 : Word
  delta00 : Word
  delta10 : Word
  key0 : KeyDraw
  key1 : KeyDraw

/-- The values of `rand()` in one round of `prepare_write`. -/
structure WriteDraw where
  r1 : Word
  r2 : Word
  v : Word
  delta00 : Word
  delta10 : Word
  v0 : Word
  key0 : KeyDraw
  key1 : KeyDraw

section prepare
variable (f : Fss) (N : DataLen)

def genKeys (a b : Word) (k : KeyDraw) : ServerKeyEq × ServerKeyEq :=
  generateTreeEq32 f (a.zeroExtend 64) b k.root k.level

/-- What the aid sends to each party in one round of `prepare_read`. -/
def prepareRead (d : ReadDraw) : Party → FssTriple :=
  let delta0 := d.delta0%N.word
  let delta1 := d.delta1%N.word
  let delta00 := d.delta00%N.word
  let delta10 := d.delta10%N.word
  fun
  | player0 => ⟨(genKeys f delta0 1 d.key0).1,delta00⟩
  | player1 => ⟨(genKeys f delta0 1 d.key0).2,sub delta0 delta00 N.word⟩
  | player2 => ⟨(genKeys f delta1 1 d.key1).1,delta10⟩
  | player3 => ⟨(genKeys f delta1 1 d.key1).2,sub delta1 delta10 N.word⟩

/-- What the aid sends to each party in one round of `prepare_write`. -/
def prepareWrite (d : WriteDraw) : Party → WriteTuple :=
  let r1 := d.r1%N.word
  let r2 := d.r2%N.word
  let v := d.v%256
  let delta00 := d.delta00%N.word
  let delta10 := d.delta10%N.word
  fun p =>
    if p.isFirst then ⟨(genKeys f r1 v d.key0).1,(genKeys f r2 1 d.key1).1,delta00,delta10,d.v0⟩
    else ⟨(genKeys f r1 v d.key0).2,(genKeys f r2 1 d.key1).2,sub r1 delta00 N.word,
      sub r2 delta10 N.word,v-d.v0⟩

end prepare

/-! ## Reading -/

section read
variable {T : Type*} (N : DataLen)

/-- What `read_1` puts on the channels: the difference alone for a replicated index, else the
difference in the party's own slot and the index share in the other. -/
structure ReadOut where
  rep : Party → Word
  four : Party → Word × Word

def read1 (tr : Party → FssTriple) (idex : Party → Word) : ReadOut where
  rep p := sub (idex p) (tr p).delta N.word
  four p :=
    let delta := sub (idex p) (tr p).delta N.word
    if p.isFirst then (delta,idex p) else (idex p,delta)

/-- The offset after the reveal, with the values received in `sent`. -/
def readDelta (tr : Party → FssTriple) (idex : Party → Word) (is_rep : Bool) (sent : ReadOut)
    (p : Party) : Word :=
  let own := read1 N tr idex
  if is_rep then twopcRecv own.rep sent.rep p
  else if p.isFirst then (fourpcRecv own.four sent.four p).1
  else (fourpcRecv own.four sent.four p).2

def ansList (f : Fss) (k : ServerKeyEq) (i : ℕ) : Word := (evaluateEq32 f k N.len).getD i 0

/-- `ans_list[sub(i, delta_r, data_len)]` -/
def shifted (ans_list : ℕ → Word) (delta_r : Word) (i : ℕ) : Word :=
  ans_list (sub (BitVec.ofNat 32 i) delta_r N.word).toNat

/-- The loop of a read over the cells, which starts from cell 0. -/
def readFold (data : ℕ → T) (mul_cb : T → Word → T) (add_cb : T → T → T) (ans : ℕ → Word) : T :=
  (List.range' 1 (N.len-1)).foldl (fun res i => add_cb res (mul_cb (data i) (ans i)))
    (mul_cb (data 0) (ans 0))

def read2 (f : Fss) (tr : Party → FssTriple) (data : Party → ℕ → T) (idex : Party → Word)
    (is_rep : Bool) (mul_cb : T → Word → T) (add_cb : T → T → T) (sent : ReadOut) (p : Party) : T :=
  let delta_r := fixDelta N (readDelta N tr idex is_rep sent p)
  readFold N (data p) mul_cb add_cb (shifted N (ansList N f (tr p).key) delta_r)

def read (f : Fss) (tr : Party → FssTriple) (data : Party → ℕ → T) (idex : Party → Word)
    (is_rep : Bool) (mul_cb : T → Word → T) (add_cb : T → T → T) : Party → T :=
  read2 N f tr data idex is_rep mul_cb add_cb (read1 N tr idex)

def recoverList (f : Fss) (tr : Party → FssTriple) (idex : Party → Word) (is_rep : Bool)
    (p : Party) : ℕ → Word :=
  shifted N (ansList N f (tr p).key)
    (fixDelta N (readDelta N tr idex is_rep (read1 N tr idex) p))

end read

/-! ## Writing -/

section write
variable (N : DataLen)

/-- What `write_1` puts on the channels. -/
structure WriteOut where
  deltaV : Party → Word
  target : Party → Word
  rep : Party → Word × Word
  four : Party → (Word × Word) × Word × Word

def write1 (tr : Party → WriteTuple) (idex target org : Party → Word) : WriteOut where
  deltaV p := target p-org p-(tr p).v
  target := target
  rep p := (sub (idex p) (tr p).delta0 N.word,sub (idex p) (tr p).delta1 N.word)
  four p :=
    let delta := (sub (idex p) (tr p).delta0 N.word,sub (idex p) (tr p).delta1 N.word)
    if p.isEven then (delta,idex p,idex p) else ((idex p,idex p),delta)

def writeDelta (tr : Party → WriteTuple) (idex target org : Party → Word) (is_rep : Bool)
    (sent : WriteOut) (p : Party) : Word × Word :=
  let own := write1 N tr idex target org
  if is_rep then diagRecv own.rep sent.rep p
  else if p.isEven then (fourpcRecv own.four sent.four p).1
  else (fourpcRecv own.four sent.four p).2

/-- One cell after the loop of a write. -/
def writeCell (p : Party) (cell first second deltaV : Word) : Word :=
  if p.isFirst then cell+first+deltaV*second else cell-first-deltaV*second

def write2 (f : Fss) (tr : Party → WriteTuple) (data : Party → ℕ → Word)
    (idex target org : Party → Word) (is_rep add_target : Bool) (sent : WriteOut) (p : Party) :
    ℕ → Word :=
  let own := write1 N tr idex target org
  let deltaV := diagRecv own.deltaV sent.deltaV p
  let deltaV := if add_target then deltaV+sent.target p.twopc+sent.target p.latt else deltaV
  let delta_r := writeDelta N tr idex target org is_rep sent p
  let first_list := shifted N (ansList N f (tr p).k_w) (fixDelta N delta_r.1)
  let second_list := shifted N (ansList N f (tr p).k_d) (fixDelta N delta_r.2)
  fun i => writeCell p (data p i) (first_list i) (second_list i) deltaV

/-- The unsplit `write`, which has no `add_target`. -/
def write (f : Fss) (tr : Party → WriteTuple) (data : Party → ℕ → Word)
    (idex target org : Party → Word) (is_rep : Bool) : Party → ℕ → Word :=
  write2 N f tr data idex target org is_rep false (write1 N tr idex target org)

end write

/-! ## Offsets -/

section offsets
variable {N : DataLen}

lemma sub_eq (a b : Word) : sub a b N.word = a-b ∨ sub a b N.word = a-b+N.word := by
  unfold sub
  split
  · exact .inl rfl
  · right; ring

lemma sub_toNat {a b : Word} (ha : a.toNat < N.len) (hb : b.toNat < N.len) :
    (sub a b N.word).toNat = (a.toNat+(N.len-b.toNat))%N.len := by
  have hN := N.le
  have hw := N.word_toNat
  unfold sub
  split
  · next h =>
    have he : a.toNat+(N.len-b.toNat) = a.toNat-b.toNat+N.len := by omega
    rw [he, Nat.add_mod_right, Nat.mod_eq_of_lt (by omega)]
    bv_omega
  · next h =>
    rw [Nat.mod_eq_of_lt (by omega)]
    bv_omega

lemma liftDelta_small {x : Word} (h : x.toNat ≤ 2^31) : liftDelta N x = x := by
  rw [liftDelta, if_neg (by omega)]

/-- A negative offset is lifted by multiples of the length until the word wraps around. -/
lemma liftDelta_big (x : Word) (h : 2^31 < x.toNat) :
    ∃ k, (liftDelta N x).toNat+2^32 = x.toNat+k*N.len := by
  induction x using liftDelta.induct N with
  | case2 x hx => exact absurd h hx
  | case1 x hx ih =>
    have hN := N.le
    have hadd : (x+N.word).toNat = (x.toNat+N.len)%2^32 := by rw [BitVec.toNat_add, N.word_toNat]
    have hlt := x.isLt
    rw [liftDelta, if_pos hx]
    by_cases hwrap : x.toNat+N.len < 2^32
    · rw [Nat.mod_eq_of_lt hwrap] at hadd
      obtain ⟨k, hk⟩ := ih (by omega)
      exact ⟨k+1, by rw [hk, hadd]; ring⟩
    · refine ⟨1,?_⟩
      rw [liftDelta_small (by omega), hadd, Nat.mod_eq_sub_mod (by omega),
        Nat.mod_eq_of_lt (by omega)]
      omega

/-- The index `w` names cell `i`: it is below a length that leaves room for the sign, or the
length divides the word size. -/
inductive Names (N : DataLen) (w : Word) (i : ℕ) : Prop
  | below (h : w.toNat = i) (hi : i < N.len) (h3 : 3*N.len ≤ 2^31)
  | wraps (h : w.toNat%N.len = i) (hd : N.len ∣ 2^32)

lemma Names.lt {w : Word} {i : ℕ} (h : Names N w i) : i < N.len := by
  cases h with
  | below _ hi _ => exact hi
  | wraps h _ => exact h ▸ Nat.mod_lt _ N.pos

/-- `x` is the difference of `w` and `δ` up to a small multiple of the length. -/
def Offset (N : DataLen) (w : Word) (δ : ℕ) (x : Word) : Prop :=
  ∃ e ≤ 3, x+BitVec.ofNat 32 δ+N.word = w+e • N.word

lemma nsmul_word (e : ℕ) (x : Word) : e • x = BitVec.ofNat 32 e*x := nsmul_eq_mul e x

lemma fixDelta_toNat (x : Word) : (fixDelta N x).toNat = (liftDelta N x).toNat%N.len := by
  rw [fixDelta, BitVec.toNat_umod, N.word_toNat]

lemma mod_of_add_modEq {L δ i n : ℕ} (hδ : δ ≤ n) (h : L+δ ≡ i [MOD n]) : L%n = (i+(n-δ))%n := by
  have h1 := h.add_right (n-δ)
  rw [Nat.add_assoc, Nat.add_sub_cancel' hδ] at h1
  exact ((Nat.add_modEq_right).symm.trans h1)

/-- An offset that is negative or at most `2^31` is lifted to the right residue. -/
lemma liftDelta_below {w x : Word} {δ : ℕ} (hw : w.toNat < N.len) (h3 : 3*N.len ≤ 2^31)
    (hδ : δ < N.len) (hx : Offset N w δ x) :
    (liftDelta N x).toNat+δ ≡ w.toNat [MOD N.len] := by
  obtain ⟨e, he, hx⟩ := hx
  have hlt := x.isLt
  have hle : e*N.len ≤ 3*N.len := Nat.mul_le_mul_right _ he
  have hsum : (x.toNat+δ+N.len)%2^32 = w.toNat+e*N.len := by
    have h := congrArg BitVec.toNat hx
    rw [nsmul_word] at h
    have hmul : (BitVec.ofNat 32 e*N.word).toNat = e*N.len := by
      rw [BitVec.toNat_mul, N.word_toNat, BitVec.toNat_ofNat, Nat.mod_eq_of_lt (by omega : e < 2^32),
        Nat.mod_eq_of_lt (by omega)]
    rw [BitVec.toNat_add, BitVec.toNat_add, BitVec.toNat_add, BitVec.toNat_ofNat, N.word_toNat,
      hmul] at h
    omega
  have hmod : ∀ k, w.toNat+k*N.len ≡ w.toNat [MOD N.len] := fun k => by
    simp [Nat.ModEq]
  have hN : ∀ a, a+N.len ≡ a [MOD N.len] := fun a => by simp [Nat.ModEq]
  by_cases hneg : 2^31 < x.toNat
  · obtain ⟨k, hk⟩ := liftDelta_big (N := N) x hneg
    have he' : (liftDelta N x).toNat+δ+N.len = w.toNat+(e+k)*N.len := by
      rw [Nat.add_mul]
      omega
    exact (hN _).symm.trans (he' ▸ hmod _)
  · rw [liftDelta_small (by omega)]
    have he' : x.toNat+δ+N.len = w.toNat+e*N.len := by omega
    exact (hN _).symm.trans (he' ▸ hmod _)

lemma liftDelta_dvd {w x : Word} {δ : ℕ} (hd : N.len ∣ 2^32) (hδ : δ < N.len)
    (hx : Offset N w δ x) : (liftDelta N x).toNat+δ ≡ w.toNat [MOD N.len] := by
  obtain ⟨e, -, hx⟩ := hx
  have hN := N.le
  have hlift : (liftDelta N x).toNat ≡ x.toNat [MOD N.len] := by
    by_cases hneg : 2^31 < x.toNat
    · obtain ⟨k, hk⟩ := liftDelta_big (N := N) x hneg
      have h0 : (liftDelta N x).toNat+2^32 ≡ (liftDelta N x).toNat [MOD N.len] :=
        (Nat.modEq_zero_iff_dvd.mpr hd).add_left _
      have h1 : x.toNat+k*N.len ≡ x.toNat [MOD N.len] := by simp [Nat.ModEq]
      exact h0.symm.trans (hk ▸ h1)
    · rw [liftDelta_small (by omega)]
  have hcut : ∀ a : ℕ, a%2^32 ≡ a [MOD N.len] := fun a => Nat.mod_mod_of_dvd a hd
  have hsum : x.toNat+δ+N.len ≡ w.toNat+e*N.len [MOD N.len] := by
    have h := congrArg BitVec.toNat hx
    rw [nsmul_word, BitVec.toNat_add, BitVec.toNat_add, BitVec.toNat_add, BitVec.toNat_mul, N.word_toNat,
      BitVec.toNat_ofNat, BitVec.toNat_ofNat, Nat.mod_eq_of_lt (by omega : δ < 2^32)] at h
    calc x.toNat+δ+N.len ≡ (x.toNat+δ)%2^32+N.len [MOD N.len] := (hcut _).symm.add_right _
      _ ≡ ((x.toNat+δ)%2^32+N.len)%2^32 [MOD N.len] := (hcut _).symm
      _ = (w.toNat+e%2^32*N.len%2^32)%2^32 := h
      _ ≡ w.toNat+e%2^32*N.len%2^32 [MOD N.len] := hcut _
      _ ≡ w.toNat+e%2^32*N.len [MOD N.len] := (hcut _).add_left _
      _ ≡ w.toNat+e*N.len [MOD N.len] := ((hcut e).mul_right _).add_left _
  have h0 : x.toNat+δ+N.len ≡ x.toNat+δ [MOD N.len] := by simp [Nat.ModEq]
  have h1 : w.toNat+e*N.len ≡ w.toNat [MOD N.len] := by simp [Nat.ModEq]
  exact (hlift.add_right δ).trans (h0.symm.trans (hsum.trans h1))

/-- The opened offset is the difference of the index and the hidden position. -/
lemma fixDelta_offset {w x : Word} {i δ : ℕ} (hw : Names N w i) (hδ : δ < N.len)
    (hx : Offset N w δ x) : (fixDelta N x).toNat = (i+(N.len-δ))%N.len := by
  rw [fixDelta_toNat]
  refine mod_of_add_modEq hδ.le ?_
  cases hw with
  | below h hi h3 => exact h ▸ liftDelta_below (h ▸ hi) h3 hδ hx
  | wraps h hd =>
    refine (liftDelta_dvd hd hδ hx).trans ?_
    rw [← h]
    exact (Nat.mod_modEq _ _).symm

end offsets

/-! ## Shifted lists select one cell -/

/-- The lists and offset shares of two parties for one hidden position `δ`. -/
structure Hides (N : DataLen) (δ : ℕ) (val : Word) (s0 s1 : Word) (e0 e1 : ℕ → Word) : Prop where
  lt : δ < N.len
  share : s0.toNat+s1.toNat = δ ∨ s0.toNat+s1.toNat = δ+N.len
  list : ∀ x < N.len, e0 x-e1 x = if x = δ then val else 0

section select
variable {N : DataLen} {δ i : ℕ} {val s0 s1 : Word} {e0 e1 : ℕ → Word}

lemma Hides.offset (h : Hides N δ val s0 s1 e0 e1) (i0 i1 r : Word) :
    Offset N (i0+i1+r) δ (sub i0 s0 N.word+sub i1 s1 N.word+r) := by
  have hs : s0+s1 = BitVec.ofNat 32 (s0.toNat+s1.toNat) := by simp [BitVec.ofNat_add]
  -- the four cases add at most two lengths, and the shares may exceed `δ` by one
  rcases h.share with hsh | hsh
  · rw [hsh] at hs
    rcases sub_eq (N := N) i0 s0 with h0 | h0 <;> rcases sub_eq (N := N) i1 s1 with h1 | h1 <;>
      rw [h0, h1]
    · exact ⟨1,by norm_num,by linear_combination -hs⟩
    · exact ⟨2,by norm_num,by linear_combination -hs⟩
    · exact ⟨2,by norm_num,by linear_combination -hs⟩
    · exact ⟨3,by norm_num,by linear_combination -hs⟩
  · rw [hsh, BitVec.ofNat_add] at hs
    have hs' : s0+s1 = BitVec.ofNat 32 δ+N.word := hs
    rcases sub_eq (N := N) i0 s0 with h0 | h0 <;> rcases sub_eq (N := N) i1 s1 with h1 | h1 <;>
      rw [h0, h1]
    · exact ⟨0,by norm_num,by linear_combination -hs'⟩
    · exact ⟨1,by norm_num,by linear_combination -hs'⟩
    · exact ⟨1,by norm_num,by linear_combination -hs'⟩
    · exact ⟨2,by norm_num,by linear_combination -hs'⟩

lemma mod_add_sub {a b n : ℕ} (ha : a < n) (hb : b ≤ n) :
    (a+(n-b))%n = if b ≤ a then a-b else a+n-b := by
  split
  · rw [Nat.mod_eq_sub_mod (by omega), Nat.mod_eq_of_lt (by omega)]
    omega
  · rw [Nat.mod_eq_of_lt (by omega)]
    omega

/-- The list entry used for cell `j` is the hidden one exactly when `j` is the index. -/
lemma shifted_sub (h : Hides N δ val s0 s1 e0 e1) (hi : i < N.len) {y : Word}
    (hy : y.toNat = (i+(N.len-δ))%N.len) {j : ℕ} (hj : j < N.len) :
    shifted N e0 y j-shifted N e1 y j = if j = i then val else 0 := by
  have hN := N.le
  have hδ := h.lt
  have hylt : y.toNat < N.len := hy ▸ Nat.mod_lt _ N.pos
  have hjw : (BitVec.ofNat 32 j).toNat = j := by
    rw [BitVec.toNat_ofNat, Nat.mod_eq_of_lt (by omega)]
  have hsub := sub_toNat (N := N) (by rw [hjw]; exact hj) hylt
  rw [hjw, mod_add_sub hj hylt.le] at hsub
  rw [mod_add_sub hi hδ.le] at hy
  have hiff : (sub (BitVec.ofNat 32 j) y N.word).toNat = δ ↔ j = i := by
    rw [hsub]
    split_ifs at hy ⊢ <;> omega
  have hlt : (sub (BitVec.ofNat 32 j) y N.word).toNat < N.len := by
    rw [hsub]
    split_ifs <;> omega
  rw [shifted, shifted, h.list _ hlt]
  simp only [hiff]

end select

/-! ## A read returns the cell -/

/-- The callbacks of a read act linearly on the part `φ` of a cell. -/
structure Linear {T R : Type*} [CommRing R] (φ : T → R) (ψ : Word →+* R) (mul_cb : T → Word → T)
    (add_cb : T → T → T) : Prop where
  add : ∀ a b, φ (add_cb a b) = φ a+φ b
  mul : ∀ a c, φ (mul_cb a c) = φ a*ψ c

/-- A prepared triple is correct for reads. -/
def ReadOk (N : DataLen) (f : Fss) (tr : Party → FssTriple) : Prop :=
  (∃ δ, Hides N δ 1 (tr player0).delta (tr player1).delta (ansList N f (tr player0).key)
    (ansList N f (tr player1).key)) ∧
  ∃ δ, Hides N δ 1 (tr player2).delta (tr player3).delta (ansList N f (tr player2).key)
    (ansList N f (tr player3).key)

/-- The index shares of a read name cell `i`. -/
def ReadIndex (N : DataLen) (idex : Party → Word) (is_rep : Bool) (i : ℕ) : Prop :=
  if is_rep then
    Names N (idex player0+idex player1) i ∧ Names N (idex player2+idex player3) i
  else Names N (open4 idex) i

section read
variable {N : DataLen} {f : Fss} {tr : Party → FssTriple} {idex : Party → Word} {is_rep : Bool}
  {i : ℕ}

lemma ReadIndex.lt (h : ReadIndex N idex is_rep i) : i < N.len := by
  cases is_rep
  · exact Names.lt h
  · exact Names.lt h.1

lemma readDelta_offset (hi : ReadIndex N idex is_rep i) (p : Party) {δ : ℕ} {val : Word}
    {e0 e1 : ℕ → Word} (h : Hides N δ val (tr p).delta (tr p.twopc).delta e0 e1) :
    (fixDelta N (readDelta N tr idex is_rep (read1 N tr idex) p)).toNat = (i+(N.len-δ))%N.len := by
  cases is_rep
  · refine fixDelta_offset hi h.lt ?_
    have hoff := fun r => h.offset (idex p) (idex p.twopc) r
    cases p
    · convert hoff (idex player2+idex player3) using 1
      · simp only [open4, twopc]; abel
      · simp [readDelta, read1, fourpcRecv, fourpcRecvBy, Party.all, isFirst, twopc]; abel
    · convert hoff (idex player2+idex player3) using 1
      · simp only [open4, twopc]; abel
      · simp [readDelta, read1, fourpcRecv, fourpcRecvBy, Party.all, isFirst, twopc]; abel
    · convert hoff (idex player0+idex player1) using 1
      · simp only [open4, twopc]; abel
      · simp [readDelta, read1, fourpcRecv, fourpcRecvBy, Party.all, isFirst, twopc]; abel
    · convert hoff (idex player0+idex player1) using 1
      · simp only [open4, twopc]; abel
      · simp [readDelta, read1, fourpcRecv, fourpcRecvBy, Party.all, isFirst, twopc]; abel
  · have hw : Names N (idex p+idex p.twopc) i := by
      obtain ⟨h01, h23⟩ := hi
      cases p
      · exact h01
      · rwa [add_comm] at h01
      · exact h23
      · rwa [add_comm] at h23
    refine fixDelta_offset hw h.lt ?_
    simpa [readDelta, read1, twopcRecv] using h.offset (idex p) (idex p.twopc) 0

lemma Hides.swap {δ : ℕ} {val s0 s1 : Word} {e0 e1 : ℕ → Word} (h : Hides N δ val s0 s1 e0 e1) :
    Hides N δ val s1 s0 e0 e1 := ⟨h.lt,by simpa only [add_comm] using h.share,h.list⟩

lemma shifted_pair (hi : ReadIndex N idex is_rep i) (p : Party) {δ : ℕ}
    (h : Hides N δ 1 (tr p).delta (tr p.twopc).delta (ansList N f (tr p).key)
      (ansList N f (tr p.twopc).key)) {j : ℕ} (hj : j < N.len) :
    recoverList N f tr idex is_rep p j-recoverList N f tr idex is_rep p.twopc j =
      if j = i then 1 else 0 := by
  have hp := readDelta_offset hi p h
  have hinv : p.twopc.twopc = p := by cases p <;> rfl
  have hs := h.swap
  nth_rewrite 2 [← hinv] at hs
  have hq := readDelta_offset hi p.twopc hs
  have heq := BitVec.eq_of_toNat_eq (hp.trans hq.symm)
  rw [recoverList, recoverList, ← heq]
  exact shifted_sub h hi.lt hp hj

variable {T R : Type*} [CommRing R] {φ : T → R} {ψ : Word →+* R} {mul_cb : T → Word → T}
  {add_cb : T → T → T}

/-- A loop that starts from cell 0 adds up the products of `c+1` cells. -/
lemma foldl_linear (hφ : Linear φ ψ mul_cb add_cb) (data : ℕ → T) (ans : ℕ → Word) (c : ℕ) :
    φ ((List.range' 1 c).foldl (fun res j => add_cb res (mul_cb (data j) (ans j)))
      (mul_cb (data 0) (ans 0))) = ∑ j ∈ Finset.range (c+1), φ (data j)*ψ (ans j) := by
  induction c with
  | zero => simp [hφ.mul]
  | succ c ih =>
    rw [List.range'_concat, List.foldl_append, Finset.sum_range_succ, ← ih]
    simp [hφ.add, hφ.mul, Nat.add_comm 1 c]

lemma readFold_eq_sum (hφ : Linear φ ψ mul_cb add_cb) (data : ℕ → T) (ans : ℕ → Word) :
    φ (readFold N data mul_cb add_cb ans) =
      ∑ j ∈ Finset.range N.len, φ (data j)*ψ (ans j) := by
  have hpos := N.pos
  rw [readFold, foldl_linear hφ, Nat.sub_add_cancel hpos]

lemma read_pair (hφ : Linear φ ψ mul_cb add_cb) (hi : ReadIndex N idex is_rep i) (p : Party) {δ : ℕ}
    (h : Hides N δ 1 (tr p).delta (tr p.twopc).delta (ansList N f (tr p).key)
      (ansList N f (tr p.twopc).key)) {data : Party → ℕ → T}
    (hd : ∀ j < N.len, φ (data p j) = φ (data p.twopc j)) :
    φ (read N f tr data idex is_rep mul_cb add_cb p)
      -φ (read N f tr data idex is_rep mul_cb add_cb p.twopc) = φ (data p i) := by
  have hsum : ∀ q, φ (read N f tr data idex is_rep mul_cb add_cb q) =
      ∑ j ∈ Finset.range N.len, φ (data q j)*ψ (recoverList N f tr idex is_rep q j) :=
    fun q => readFold_eq_sum hφ _ _
  rw [hsum, hsum, ← Finset.sum_sub_distrib]
  have hterm : ∀ j ∈ Finset.range N.len, φ (data p j)*ψ (recoverList N f tr idex is_rep p j)
      -φ (data p.twopc j)*ψ (recoverList N f tr idex is_rep p.twopc j) =
        if j = i then φ (data p i) else 0 := by
    intro j hj
    have hj' := Finset.mem_range.mp hj
    rw [← hd j hj', ← mul_sub, ← map_sub, shifted_pair hi p h hj']
    split
    · next he => rw [he, map_one, mul_one]
    · rw [map_zero, mul_zero]
  rw [Finset.sum_congr rfl hterm, Finset.sum_ite_eq', if_pos (Finset.mem_range.mpr hi.lt)]

/-- A read with a correct triple leaves the parties with a sharing of the cell. -/
theorem read_open (hφ : Linear φ ψ mul_cb add_cb) (htr : ReadOk N f tr)
    (hi : ReadIndex N idex is_rep i) {data : Party → ℕ → T}
    (hd : ∀ j < N.len, Replicated fun p => φ (data p j)) :
    openRead (fun p => φ (read N f tr data idex is_rep mul_cb add_cb p)) =
      openRep fun p => φ (data p i) := by
  obtain ⟨⟨δ0, h0⟩, δ1, h1⟩ := htr
  have e0 := read_pair hφ hi player0 h0 fun j hj => (hd j hj).1
  have e1 := read_pair hφ hi player2 h1 fun j hj => (hd j hj).2
  simp only [twopc] at e0 e1
  rw [openRead, openRep, ← e0, ← e1]
  abel

lemma linear_word : Linear (R := Word) id (RingHom.id Word) (· * ·) (· + ·) :=
  ⟨fun _ _ => rfl,fun _ _ => rfl⟩

theorem read_word (htr : ReadOk N f tr) (hi : ReadIndex N idex is_rep i)
    {data : Party → ℕ → Word} (hd : ∀ j < N.len, Replicated fun p => data p j) :
    openRead (read N f tr data idex is_rep (· * ·) (· + ·)) = openRep fun p => data p i :=
  read_open linear_word htr hi hd

/-- The lists of each pair differ by one at the index. -/
theorem recoverList_open (htr : ReadOk N f tr) (hi : ReadIndex N idex is_rep i) {j : ℕ}
    (hj : j < N.len) (p : Party) (hp : p.isEven = true) :
    recoverList N f tr idex is_rep p j-recoverList N f tr idex is_rep p.twopc j =
      if j = i then 1 else 0 := by
  obtain ⟨⟨δ0, h0⟩, δ1, h1⟩ := htr
  cases p with
  | player0 => exact shifted_pair hi player0 h0 hj
  | player2 => exact shifted_pair hi player2 h1 hj
  | player1 => cases hp
  | player3 => cases hp

end read

/-! ## A write adds to the cell -/

/-- A prepared tuple is correct for writes. -/
structure WriteOk (N : DataLen) (f : Fss) (tr : Party → WriteTuple) : Prop where
  first : tr player0 = tr player1
  second : tr player2 = tr player3
  word : ∃ δ, Hides N δ ((tr player0).v+(tr player2).v) (tr player0).delta0 (tr player2).delta0
    (ansList N f (tr player0).k_w) (ansList N f (tr player2).k_w)
  unit : ∃ δ, Hides N δ 1 (tr player0).delta1 (tr player2).delta1
    (ansList N f (tr player0).k_d) (ansList N f (tr player2).k_d)

/-- The index shares of a write name cell `i`. -/
def WriteIndex (N : DataLen) (idex : Party → Word) (is_rep : Bool) (i : ℕ) : Prop :=
  if is_rep then
    Names N (idex player0+idex player2) i ∧ Names N (idex player1+idex player3) i
  else Names N (open4 idex) i

/-- The shares of the new value, replicated or over all four parties, open to `t`. -/
def Target (target : Party → Word) (add_target : Bool) (t : Word) : Prop :=
  if add_target then open4 target = t else Replicated target ∧ openRep target = t

section write
variable {N : DataLen} {f : Fss} {tr : Party → WriteTuple} {idex target org : Party → Word}
  {is_rep add_target : Bool} {i : ℕ} {t : Word}

lemma WriteIndex.lt (h : WriteIndex N idex is_rep i) : i < N.len := by
  cases is_rep
  · exact Names.lt h
  · exact Names.lt h.1

/-- Opened over all four slots, an offset is the difference of the pair and the two other index shares. -/
lemma writeDelta_open (N : DataLen) (tr : Party → WriteTuple) (idex target org : Party → Word) (p : Party) :
    writeDelta N tr idex target org false (write1 N tr idex target org) p =
      (sub (idex p) (tr p).delta0 N.word+sub (idex p.diag) (tr p.diag).delta0 N.word+
          (open4 idex-idex p-idex p.diag),
        sub (idex p) (tr p).delta1 N.word+sub (idex p.diag) (tr p.diag).delta1 N.word+
          (open4 idex-idex p-idex p.diag)) := by
  cases p <;> simp [writeDelta, write1, fourpcRecv, fourpcRecvBy, Party.all, isEven, diag, open4] <;>
    constructor <;> abel

lemma writeDelta_offset (hi : WriteIndex N idex is_rep i) (p : Party) {δ0 δ1 : ℕ} {v0 v1 : Word}
    {e0 e1 e2 e3 : ℕ → Word} (h0 : Hides N δ0 v0 (tr p).delta0 (tr p.diag).delta0 e0 e1)
    (h1 : Hides N δ1 v1 (tr p).delta1 (tr p.diag).delta1 e2 e3) :
    let x := writeDelta N tr idex target org is_rep (write1 N tr idex target org) p
    (fixDelta N x.1).toNat = (i+(N.len-δ0))%N.len ∧
      (fixDelta N x.2).toNat = (i+(N.len-δ1))%N.len := by
  cases is_rep
  · have hw : Names N (idex p+idex p.diag+(open4 idex-idex p-idex p.diag)) i := by
      rw [sub_sub, add_sub_cancel]
      exact hi
    simp only [writeDelta_open]
    exact ⟨fixDelta_offset hw h0.lt (h0.offset _ _ _),fixDelta_offset hw h1.lt (h1.offset _ _ _)⟩
  · have hw : Names N (idex p+idex p.diag+0) i := by
      rw [add_zero]
      obtain ⟨h02, h13⟩ := hi
      cases p
      · exact h02
      · exact h13
      · rwa [add_comm] at h02
      · rwa [add_comm] at h13
    have hx : writeDelta N tr idex target org true (write1 N tr idex target org) p =
        (sub (idex p) (tr p).delta0 N.word+sub (idex p.diag) (tr p.diag).delta0 N.word+0,
          sub (idex p) (tr p).delta1 N.word+sub (idex p.diag) (tr p.diag).delta1 N.word+0) := by
      simp [writeDelta, write1, diagRecv]
    simp only [hx]
    exact ⟨fixDelta_offset hw h0.lt (h0.offset _ _ 0),fixDelta_offset hw h1.lt (h1.offset _ _ 0)⟩

/-- What `deltaV` opens to. -/
lemma write_deltaV (htr : WriteOk N f tr) (ht : Target target add_target t) (ho : Replicated org)
    (p : Party) :
    let own := write1 N tr idex target org
    let deltaV := diagRecv own.deltaV own.deltaV p
    (if add_target then deltaV+target p.twopc+target p.latt else deltaV) =
      t-openRep org-((tr player0).v+(tr player2).v) := by
  obtain ⟨ho0, ho2⟩ := ho
  have h01 := htr.first
  have h23 := htr.second
  cases add_target
  · obtain ⟨⟨ht0, ht2⟩, rfl⟩ := ht
    cases p <;> simp [write1, diagRecv, diag, openRep, ← ho0, ← ho2, ← ht0, ← ht2, ← h01, ← h23] <;>
      abel
  · simp only [Target, if_true] at ht
    subst ht
    cases p <;> simp [write1, diagRecv, diag, twopc, latt, openRep, open4, ← ho0, ← ho2, ← h01,
      ← h23] <;> abel

/-- A write with a correct tuple adds `target-org` to the cell and keeps the data replicated. -/
theorem write2_open (htr : WriteOk N f tr) (hi : WriteIndex N idex is_rep i)
    (ht : Target target add_target t) (ho : Replicated org) {data : Party → ℕ → Word} {j : ℕ}
    (hj : j < N.len) (hd : Replicated fun p => data p j) :
    let data' := write2 N f tr data idex target org is_rep add_target (write1 N tr idex target org)
    Replicated (fun p => data' p j) ∧ openRep (fun p => data' p j) =
      openRep (fun p => data p j)+if j = i then t-openRep org else 0 := by
  intro data'
  obtain ⟨δ0, h0⟩ := htr.word
  obtain ⟨δ1, h1⟩ := htr.unit
  have hoff : ∀ p, let x := writeDelta N tr idex target org is_rep (write1 N tr idex target org) p
      (fixDelta N x.1).toNat = (i+(N.len-δ0))%N.len ∧
        (fixDelta N x.2).toNat = (i+(N.len-δ1))%N.len := by
    intro p
    cases p with
    | player0 => exact writeDelta_offset hi player0 h0 h1
    | player1 =>
      rw [htr.first, htr.second] at h0 h1
      exact writeDelta_offset hi player1 h0 h1
    | player2 => exact writeDelta_offset hi player2 h0.swap h1.swap
    | player3 =>
      rw [htr.first, htr.second] at h0 h1
      exact writeDelta_offset hi player3 h0.swap h1.swap
  have hcell : ∀ p, data' p j = writeCell p (data p j)
      (shifted N (ansList N f (tr p).k_w) (fixDelta N (writeDelta N tr idex target org is_rep
        (write1 N tr idex target org) player0).1) j)
      (shifted N (ansList N f (tr p).k_d) (fixDelta N (writeDelta N tr idex target org is_rep
        (write1 N tr idex target org) player0).2) j)
      (t-openRep org-((tr player0).v+(tr player2).v)) := by
    intro p
    have e0 := BitVec.eq_of_toNat_eq ((hoff p).1.trans (hoff player0).1.symm)
    have e1 := BitVec.eq_of_toNat_eq ((hoff p).2.trans (hoff player0).2.symm)
    rw [← write_deltaV htr ht ho p, ← e0, ← e1]
    rfl
  have hsel0 := shifted_sub h0 hi.lt (hoff player0).1 hj
  have hsel1 := shifted_sub h1 hi.lt (hoff player0).2 hj
  obtain ⟨hd0, hd2⟩ := hd
  generalize t-openRep org = u at hcell ⊢
  refine ⟨⟨?_,?_⟩,?_⟩
  · simp only [hcell, writeCell, isFirst, if_true, hd0, htr.first]
  · simp only [hcell, writeCell, isFirst, Bool.false_eq_true, if_false, hd2, htr.second]
  · simp only [openRep, hcell, writeCell, isFirst, if_true, Bool.false_eq_true, if_false]
    by_cases hji : j = i
    · rw [if_pos hji] at hsel0 hsel1 ⊢
      linear_combination hsel0+(u-((tr player0).v+(tr player2).v))*hsel1
    · rw [if_neg hji] at hsel0 hsel1 ⊢
      linear_combination hsel0+(u-((tr player0).v+(tr player2).v))*hsel1

end write

end OramPro
