import OramPro.FssMpcRun

/-!
# A first key and its successors

The lists that a first `gen` leaves share a point function, as long as there are at most 27 levels.
A later `gen` appends behind them.
-/
namespace OramPro.FssMpc

/-! ## The first key -/

def Fresh (o : Object) : Prop := o.tlevel = [] ∧ o.res_list = []

/-- The shared value, in the eight bytes of an entry. -/
def sharedBeta {w : ℕ} (g : GenInput w) : BitVec 64 := (g.beta false^^^g.beta true).setWidth 64

/-- The first `2^deep` entries of both lists share `b` at `x` and 0 elsewhere. -/
def SharesPoint (deep x : ℕ) (b : BitVec 64) (o : Bool → Object) : Prop :=
  ∀ y < 2^deep,
    (o false).res_list.getD y 0^^^(o true).res_list.getD y 0 = if y = x then b else 0

/-- What a first `gen` with `deep` levels is for. -/
def FirstGenCorrect (deep : ℕ) : Prop :=
  ∀ (w : ℕ) (prg : ℕ → Block → Block) (s0 : Bool → Block) (g : GenInput w) (x : ℕ)
    (o : Bool → Object), Shares deep g x → (∀ p, Fresh (o p)) →
    ∃ o', gen prg deep s0 g o = some o' ∧ (∀ p, (o' p).res_list.length = 2^deep) ∧
      SharesPoint deep x (sharedBeta g) o' ∧
      ∀ p (y : BitVec w), y.toNat < 2^deep →
        evl prg deep y (o' p) (s0 p) (g.t_int p) = (o' p).res_list.getD y.toNat 0

section first
variable {prg : ℕ → Block → Block} {deep : ℕ} {s0 : Bool → Block} {w : ℕ} {g : GenInput w} {x : ℕ}

lemma betas_xor : (betas g false^^^betas g true).setWidth 64 = sharedBeta g := by
  refine BitVec.eq_of_getLsbD_eq fun i hi => ?_
  simp only [betas, sharedBeta, BitVec.getLsbD_setWidth, BitVec.getLsbD_xor]
  have h128 : i < 128 := by omega
  simp [h128]

lemma output_xor (h : Shares deep g x) (hdeep : 0 < deep) {y : ℕ} (hy : y < 2^deep) :
    output prg deep s0 g false y^^^output prg deep s0 g true y = if y = x then sharedBeta g else 0 := by
  rw [output, output, ← BitVec.setWidth_xor, leaf_xor prg s0 h hdeep hy]
  split
  · exact betas_xor
  · rfl

lemma getD_output {p : Bool} {y : ℕ} (hy : y < 2^deep) (l : List (BitVec 64)) :
    ((List.range (2^deep)).map (output prg deep s0 g p)++l).getD y 0 = output prg deep s0 g p y := by
  rw [List.getD_append _ _ _ _ (by simpa using hy)]
  simp [hy]

lemma sharesPoint_output (h : Shares deep g x) (hdeep : 0 < deep) {o : Bool → Object}
    (ho : ∀ p, ∃ l, (o p).res_list = (List.range (2^deep)).map (output prg deep s0 g p)++l) :
    SharesPoint deep x (sharedBeta g) o := by
  intro y hy
  obtain ⟨l, hl⟩ := ho false
  obtain ⟨l', hl'⟩ := ho true
  rw [hl, hl', getD_output hy, getD_output hy]
  exact output_xor h hdeep hy

lemma first_gen_correct (hpos : 0 < deep) (hdeep : deep ≤ 27) : FirstGenCorrect deep := by
  intro w prg s0 g x o h ho
  obtain ⟨o', hgen, hcw, hgamma, hres⟩ := gen_fresh prg s0 g (fun p => (ho p).1) hpos hdeep
  have hlist : ∀ p, (o' p).res_list = (List.range (2^deep)).map (output prg deep s0 g p) := by
    intro p
    rw [hres p, (ho p).2, List.nil_append]
  refine ⟨o',hgen,fun p => ?_,?_,fun p y hy => ?_⟩
  · rw [hlist, List.length_map, List.length_range]
  · exact sharesPoint_output h hpos fun p => ⟨[],(hlist p).trans (List.append_nil _).symm⟩
  · rw [evl_eq p y hpos (hcw p) (hgamma p), hlist, ← getD_output hy [], List.append_nil]

end first

/-! ## A tree of zeros with 28 levels

With a constant generator every seed is zero until the last level. Its second leaf is written over
the seed of the third. -/

section zeros
variable (deep : ℕ)

def zeroPrg : ℕ → Block → Block := fun _ _ => 0

/-- Share 1 of the point and 2 of the value at the first party. -/
def pointOne : GenInput 32 where
  alpha p := if p then 0 else 1
  beta p := if p then 0 else 2
  t_int p := !p
  total_s _ _ := 0
  r _ _ := 0
  r_gamma _ := 0

def zeroCw (i : ℕ) : Cw := mpc_block1 (fun _ _ => 0) (alphabit deep pointOne i) (fun _ => 0)

/-- The control bits of a level. -/
def zeroBit (p : Bool) : ℕ → ℕ → Bool
  | 0, _ => pointOne.t_int p
  | i+1, q => zeroBit p i (q/2) && (zeroCw deep i).tau (q/2%2 == 1)

structure Zeros (p : Bool) (i : ℕ) (st : Expand) : Prop where
  mem : st.mem = fun _ => 0
  tlevel : st.tlevel = (List.range (2^(i+1))).map (zeroBit deep p i)
  iter : st.iter = 2^(i+1)-2
  z : st.z = fun _ => 0
  res : st.res_list = []

variable {deep} {p : Bool} {i : ℕ}

lemma zeroCw_sigma : (zeroCw deep i).sigma = 0 := by
  rw [zeroCw, mpc_block1_sigma]
  rfl

lemma zeroCw_tau (b : Bool) : (zeroCw deep i).tau b = (alphabit deep pointOne i false ^^ !b) := by
  have h0 : alphabit deep pointOne i true = false := by simp [alphabit, pointOne]
  have hz : lsb ((0 : Block)^^^0) = false := by decide
  rw [zeroCw, mpc_block1_tau, h0, hz, Bool.false_xor, Bool.xor_false]

/-- After the expansion of the first `k` nodes, which began at `x`. -/
structure ZeroNodes (deep : ℕ) (p : Bool) (i : ℕ) (x : Expand) (k : ℕ) (y : Expand) : Prop where
  mem : y.mem = fun _ => 0
  z : y.z = fun _ => 0
  res : y.res_list = []
  iter : y.iter = x.iter+k
  tlevel : y.tlevel = (List.range' k (2^(i+1)-k)).map (zeroBit deep p i)++
    (List.range (2*k)).map (zeroBit deep p (i+1))

lemma zeroBit_kid (k : ℕ) (b : Bool) : zeroBit deep p (i+1) (2*k+b.toNat) =
    (zeroBit deep p i k && (zeroCw deep i).tau (k%2 == 1)) := by
  have hdiv : (2*k+b.toNat)/2 = k := by
    have := Bool.toNat_lt b
    omega
  rw [zeroBit, hdiv]

lemma ZeroNodes.step {x y : Expand} {k : ℕ} (h : ZeroNodes deep p i x k y) (hk : k < 2^(i+1)) :
    ZeroNodes deep p i x (k+1) (expandStep zeroPrg (zeroCw deep i) y k) := by
  have hq := h.tlevel
  have hiter := h.iter
  obtain ⟨n, hn⟩ : ∃ n, 2^(i+1)-k = n+1 := ⟨2^(i+1)-k-1,by omega⟩
  have hn' : 2^(i+1)-(k+1) = n := by omega
  have h0 : zeroBit deep p (i+1) (2*k) = _ := zeroBit_kid k false
  have h1 : zeroBit deep p (i+1) (2*k+1) = _ := zeroBit_kid k true
  have hclear : ∀ a b : ℕ, Function.update (Function.update (fun _ => (0 : Block)) a 0) b 0 =
      fun _ => 0 := by simp
  rw [hn, List.range'_succ, List.map_cons, List.cons_append] at hq
  have hstep : expandStep zeroPrg (zeroCw deep i) y k =
      ⟨fun _ => 0,((List.range' (k+1) n).map (zeroBit deep p i)++
          (List.range (2*k)).map (zeroBit deep p (i+1)))++
          [zeroBit deep p (i+1) (2*k),zeroBit deep p (i+1) (2*k+1)],y.iter+1,fun _ => 0,[]⟩ := by
    rw [h0, h1, expandStep, h.mem, h.z, h.res, hq]
    have hseed : ∀ s b, prfSeed zeroPrg s b = 0 := fun _ _ => rfl
    have hlsb : lsb 0 = false := by decide
    simp only [hseed, hclear, List.headD_cons, List.tail_cons, hlsb, Bool.false_xor, ite_self]
    rfl
  rw [hstep]
  refine ⟨rfl,rfl,rfl,?_,?_⟩
  · change y.iter+1 = _
    omega
  · rw [hn', show 2*(k+1) = 2*k+1+1 by omega, List.range_succ, List.range_succ, List.map_append,
      List.map_append, List.append_assoc (List.map _ (List.range (2*k))), ← List.append_assoc]
    rfl

lemma zero_expand {x : Expand} (h : Zeros deep p i x) : ZeroNodes deep p i x (2^(i+1))
    ((List.range (2^(i+1))).foldl (expandStep zeroPrg (zeroCw deep i)) x) := by
  refine CountLoop.foldl_range ⟨h.mem,h.z,h.res,rfl,?_⟩ fun _ hk _ hy => hy.step hk
  rw [Nat.sub_zero, ← List.range_eq_range', mul_zero, List.range_zero, List.map_nil, List.append_nil]
  exact h.tlevel

def AllZeros (deep i : ℕ) (st : GenState) : Prop := ∀ p, Zeros deep p i (st.party p)

lemma Zeros.clear {x : Expand} (h : Zeros deep p i x) : Zeros deep p i { x with z := fun _ => 0 } :=
  ⟨h.mem,h.tlevel,h.iter,rfl,h.res⟩

lemma zero_level {st : GenState} (h : AllZeros deep i st) (hi : i+1 < deep) :
    AllZeros deep (i+1) (genLevel zeroPrg deep pointOne st i) := by
  have hne : i ≠ deep-1 := by omega
  have hcw : mpc_block1 (fun p => (st.party p).z) (alphabit deep pointOne i) (pointOne.r i) =
      zeroCw deep i := by
    have hz : (fun p => (st.party p).z) = fun _ _ => 0 := funext fun p => (h p).z
    rw [hz]
    rfl
  intro p
  obtain ⟨hmem, hz, hres, hiter, hq⟩ := zero_expand (h p).clear
  have hpow : 2^(i+1+1) = 2*2^(i+1) := by rw [pow_succ]; ring
  have h2 := two_le_pow i
  rw [genLevel, if_neg hne, hcw]
  refine ⟨hmem,?_,?_,hz,hres⟩
  · refine hq.trans ?_
    rw [Nat.sub_self, List.range'_zero, List.map_nil, List.nil_append, hpow]
  · refine hiter.trans ?_
    have := (h p).iter
    simp only [this]
    omega

lemma zero_start {o : Bool → Object} (ho : ∀ p, Fresh (o p)) :
    AllZeros deep 0 (genStart zeroPrg (fun _ => 0) pointOne o) := by
  intro p
  have hclear : ∀ a b : ℕ, Function.update (Function.update (fun _ => (0 : Block)) a 0) b 0 =
      fun _ => 0 := by simp
  refine ⟨hclear 0 1,?_,rfl,rfl,(ho p).2⟩
  · simp only [genStart, (ho p).1, List.nil_append]
    rfl

lemma zero_fold {o : Bool → Object} (ho : ∀ p, Fresh (o p)) {k : ℕ} (hk : k < deep) :
    AllZeros deep k ((List.range k).foldl (genLevel zeroPrg deep pointOne)
      (genStart zeroPrg (fun _ => 0) pointOne o)) :=
  CountLoop.foldl_range (zero_start ho) fun _ hn _ h => zero_level h (by omega)

/-! ### The last level -/

lemma lastStep_fold_res (cw : Cw) (gamma : Block) (l : List ℕ) (x : Expand) :
    ∃ e, (l.foldl (lastStep cw gamma) x).res_list = x.res_list++e := by
  induction l generalizing x with
  | nil => exact ⟨[],(List.append_nil _).symm⟩
  | cons j l ih =>
    obtain ⟨e, he⟩ := ih (lastStep cw gamma x j)
    exact ⟨_,he.trans (List.append_assoc ..)⟩

lemma pointOne_alphabit {i : ℕ} (hi : i < 28) :
    alphabit 28 pointOne i false = decide (i = 27) := by
  have hone : ∀ j : ℕ, (1 : BitVec 32).getLsbD j = decide (j = 0) := by
    intro j
    cases j <;> simp [BitVec.getLsbD, Nat.testBit_succ]
  have hlevel : (28-1-i = 0) = (i = 27) := by
    apply propext
    omega
  rw [alphabit]
  exact (hone _).trans (by simp only [hlevel])

lemma zeroBit_second (p : Bool) (i q : ℕ) (h : p = true) : zeroBit 28 p i q = false := by
  subst h
  induction i generalizing q with
  | zero => rfl
  | succ i ih => rw [zeroBit, ih, Bool.false_and]

lemma zeroBit_first {i q : ℕ} (hi : i ≤ 27) (hq : q < 2) : zeroBit 28 false i q = true := by
  induction i generalizing q with
  | zero => rfl
  | succ i ih =>
    have hq0 : q/2 = 0 := by omega
    have hne : ¬i = 27 := by omega
    rw [zeroBit, hq0, ih (by omega) (by omega), zeroCw_tau, pointOne_alphabit (by omega),
      decide_eq_false hne]
    rfl

lemma zeroBit_third (p : Bool) : zeroBit 28 p 27 2 = false := by
  cases p
  · rw [zeroBit, zeroCw_tau, pointOne_alphabit (by omega)]
    simp
  · exact zeroBit_second true 27 2 rfl

lemma lsb_zero : lsb 0 = false := by decide

lemma local_block2_untouched {s gamma : Block} {sigma : Block} {t tao : Bool} (hs : lsb s = false)
    (ht : (t && tao) = false) (hsigma : corrected s t sigma = s) :
    local_block2 s t sigma gamma tao = (s,false) := by
  rw [local_block2, hs, ht, hsigma]
  rfl

lemma local_block2_gamma {gamma : Block} (t : Bool) :
    local_block2 0 t 0 gamma true = (if t then gamma else 0,t) := by
  rw [local_block2, lsb_zero]
  cases t
  · rfl
  · simp [corrected]

lemma zeroCw_tau_last (b : Bool) : (zeroCw 28 27).tau b = b := by
  rw [zeroCw_tau, pointOne_alphabit (by omega)]
  cases b <;> rfl

/-- The first leaf is zero at both parties. -/
lemma lastStep_first (gamma : Block) (t u : Bool) (rest : List Bool) :
    ∃ l, lastStep (zeroCw 28 27) gamma ⟨fun _ => 0,t::u::false::rest,2^28-2,fun _ => 0,[]⟩ 0 =
      ⟨fun _ => 0,u::false::l,2^28-1,fun _ => 0,[0]⟩ := by
  have hout := @local_block2_untouched 0 gamma 0 t false lsb_zero (Bool.and_false t)
    (by cases t <;> rfl)
  have hmem : ∀ a : ℕ, Function.update (fun _ => (0 : Block)) a 0 = fun _ => 0 := by simp
  simp only [lastStep, List.headD_cons, List.tail_cons, zeroCw_sigma, zeroCw_tau_last]
  exact ⟨_,by rw [show (0%2 == 1) = false from rfl, hout, hmem]; rfl⟩

/-- The second leaf is put into slot 0. -/
lemma lastStep_second (gamma : Block) (p : Bool) (l : List Bool) :
    ∃ l' v, lastStep (zeroCw 28 27) gamma ⟨fun _ => 0,(!p)::false::l,2^28-1,fun _ => 0,[0]⟩ 1 =
      ⟨Function.update (fun _ => 0) 0 (if p then 0 else gamma),false::l',2^28,fun _ => 0,[0,v]⟩ := by
  have hslot : slot ((2^28-1)*2+2) = 0 := by norm_num [slot, arraySlots]
  have hside : (if (!p) = true then gamma else 0) = if p then 0 else gamma := by cases p <;> rfl
  simp only [lastStep, List.headD_cons, List.tail_cons, zeroCw_sigma, zeroCw_tau_last]
  rw [show (1%2 == 1) = true from rfl, local_block2_gamma, hside, hslot]
  exact ⟨_,_,rfl⟩

/-- The third turn reads slot 0. -/
lemma lastStep_third (gamma : Block) {seed : Block} (hseed : lsb seed = false) (l : List Bool) (v : BitVec 64) :
    (lastStep (zeroCw 28 27) gamma
      ⟨Function.update (fun _ => 0) 0 seed,false::l,2^28,fun _ => 0,[0,v]⟩ 2).res_list =
      [0,v,seed.setWidth 64] := by
  have hslot : slot (2^28) = 0 := by norm_num [slot, arraySlots]
  have hout := @local_block2_untouched seed gamma 0 false false hseed rfl rfl
  simp only [lastStep, List.headD_cons, List.tail_cons, zeroCw_sigma, zeroCw_tau_last, hslot,
    Function.update_self]
  rw [show (2%2 == 1) = false from rfl, hout]
  rfl

/-- The third entry of a party, when the second leaf has landed on its seed. -/
lemma zero_third {x : Expand} (h : Zeros 28 p 27 x) {gamma : Block} (hgamma : lsb gamma = false)
    {n : ℕ} (hn : 3 ≤ n) :
    ((List.range n).foldl (lastStep (zeroCw 28 27) gamma) x).res_list.getD 2 0 =
      (if p then 0 else gamma).setWidth 64 := by
  obtain ⟨m, rfl⟩ := Nat.exists_eq_add_of_le hn
  have hsplit : List.range (3+m) = 0::1::2::List.range' 3 m := by
    rw [List.range_eq_range', ← List.range'_append_1]
    rfl
  have hbits : ∃ t rest, x.tlevel = t::(!p)::false::rest := by
    have hsecond : zeroBit 28 p 27 1 = !p := by
      cases p
      · exact zeroBit_first le_rfl (by omega)
      · exact zeroBit_second true 27 1 rfl
    rw [h.tlevel, show 2^(27+1) = 3+(2^28-3) by norm_num, List.range_eq_range', ← List.range'_append_1,
      ← zeroBit_third p, ← hsecond]
    exact ⟨_,_,rfl⟩
  obtain ⟨t, rest, hbits⟩ := hbits
  have hx : x = ⟨fun _ => 0,t::(!p)::false::rest,2^28-2,fun _ => 0,[]⟩ := by
    have hiter : x.iter = 2^28-2 := h.iter
    rw [← h.mem, ← hbits, ← hiter, ← h.z, ← h.res]
  have hlsb : lsb (if p then 0 else gamma) = false := by
    cases p
    · exact hgamma
    · exact lsb_zero
  obtain ⟨l, h0⟩ := lastStep_first gamma t (!p) rest
  obtain ⟨l', v, h1⟩ := lastStep_second gamma p l
  have h2 := lastStep_third gamma hlsb l' v
  rw [hsplit, hx, List.foldl_cons, h0, List.foldl_cons, h1, List.foldl_cons]
  obtain ⟨e, he⟩ := lastStep_fold_res (zeroCw 28 27) gamma (List.range' 3 m) (lastStep (zeroCw 28 27) gamma
    ⟨Function.update (fun _ => 0) 0 (if p then 0 else gamma),false::l',2^28,fun _ => 0,[0,v]⟩ 2)
  rw [he, h2]
  rfl

lemma shares_pointOne : Shares 28 pointOne 1 := ⟨rfl,by norm_num,rfl⟩

/-- After the first generation the third entry is 2, not 0. -/
lemma zeros_wrong {o : Bool → Object} (ho : ∀ p, Fresh (o p)) :
    ∃ o', gen zeroPrg 28 (fun _ => 0) pointOne o = some o' ∧
      ¬SharesPoint 28 1 (sharedBeta pointOne) o' := by
  have hat := zero_fold ho (show 27 < 28 by omega)
  have hfold : (List.range 28).foldl (genLevel zeroPrg 28 pointOne) (genStart zeroPrg (fun _ => 0) pointOne o) =
      genLevel zeroPrg 28 pointOne ((List.range 27).foldl (genLevel zeroPrg 28 pointOne)
        (genStart zeroPrg (fun _ => 0) pointOne o)) 27 := by
    rw [show List.range 28 = List.range 27++[27] from List.range_succ, List.foldl_append]
    rfl
  generalize (List.range 27).foldl (genLevel zeroPrg 28 pointOne) _ = st at *
  have hz : (fun p => (st.party p).z) = fun _ _ => 0 := funext fun p => (hat p).z
  refine ⟨_,if_pos (by norm_num),fun hpoint => ?_⟩
  have hgamma : lsb (mpc_gamma (fun _ _ => 0) (alphabit 28 pointOne 27) (betas pointOne)
      (zeroCw 28 27).sigma pointOne.r_gamma) = false := by
    rw [mpc_gamma_eq, zeroCw_sigma]
    decide
  obtain ⟨n, hsize, hn⟩ : ∃ n, 2^(27+1) = n ∧ 3 ≤ n := ⟨_,rfl,by norm_num⟩
  have hcw : mpc_block1 (fun _ _ => 0) (alphabit 28 pointOne 27) (pointOne.r 27) = zeroCw 28 27 := rfl
  have hat2 := hpoint 2 (by norm_num)
  rw [hfold, genLevel, if_pos rfl, hz, hsize, hcw] at hat2
  have hthird := fun p => zero_third (hat p).clear hgamma hn
  have hopen := (congrArg₂ (·^^^·) (hthird false) (hthird true)).symm.trans hat2
  rw [mpc_gamma_eq, zeroCw_sigma] at hopen
  revert hopen
  decide

end zeros

lemma zeros_not_correct : ¬FirstGenCorrect 28 := by
  intro h
  have hfresh : ∀ p : Bool, Fresh ((fun _ => newObject (fun _ => default) 0) p) := fun _ => ⟨rfl,rfl⟩
  obtain ⟨o', hgen, hwrong⟩ := zeros_wrong hfresh
  obtain ⟨o'', hgen', -, hpoint, -⟩ := h 32 zeroPrg (fun _ => 0) pointOne 1 _ shares_pointOne hfresh
  rw [hgen] at hgen'
  cases hgen'
  exact hwrong hpoint

/-- A first generation shares the point function, and `evl` agrees with the list, exactly up to 27
levels: with 28 the last level is overwritten while it is read, with more the memory has no size. -/
theorem first_gen_correct_iff {deep : ℕ} (hpos : 0 < deep) : FirstGenCorrect deep ↔ deep ≤ 27 := by
  constructor
  · intro h
    by_contra hdeep
    obtain rfl | hlarge : deep = 28 ∨ 29 ≤ deep := by omega
    · exact zeros_not_correct h
    · have hfresh : ∀ p : Bool, Fresh ((fun _ => newObject (fun _ => default) 0) p) :=
        fun _ => ⟨rfl,rfl⟩
      obtain ⟨o', hgen, -⟩ := h 32 zeroPrg (fun _ => 0) pointOne 1 _
        ⟨rfl,Nat.one_lt_two_pow hpos.ne',rfl⟩ hfresh
      rw [gen, if_neg (by omega)] at hgen
      cases hgen
  · exact first_gen_correct hpos

theorem first_gen_correct_two : 0 < 2 ∧ FirstGenCorrect 2 :=
  ⟨by norm_num,(first_gen_correct_iff (by norm_num)).mpr (by norm_num)⟩

theorem first_gen_wrong : ¬FirstGenCorrect 28 := zeros_not_correct

/-! ## Later keys -/

section reuse
variable (prg : ℕ → Block → Block) (deep : ℕ) (s0 : Bool → Block) {w : ℕ}

/-- One `gen` per prepared write on the same objects. -/
def genAll (keys : List (GenInput w)) (o : Bool → Object) : Option (Bool → Object) :=
  keys.foldlM (fun o g => gen prg deep s0 g o) o

def point (g : GenInput w) : ℕ := (g.alpha false^^^g.alpha true).toNat

/-- After every `gen` the list shares the point function of that key. -/
def ReuseCorrect (keys : List (GenInput w)) (o : Bool → Object) : Prop :=
  ∀ before g after, keys = before++g::after →
    ∃ o', genAll prg deep s0 (before++[g]) o = some o' ∧ SharesPoint deep (point g) (sharedBeta g) o'

def SameKey (g g' : GenInput w) : Prop :=
  sharedBeta g' = sharedBeta g ∧ (point g' = point g ∨ sharedBeta g = 0)

variable {prg deep s0} {g : GenInput w} {keys : List (GenInput w)} {o : Bool → Object}

lemma expandStep_fold_res (cw : Cw) (l : List ℕ) (x : Expand) :
    (l.foldl (expandStep prg cw) x).res_list = x.res_list := by
  induction l generalizing x with
  | nil => rfl
  | cons j l ih => exact ih _

lemma genLevel_res (st : GenState) (i : ℕ) (p : Bool) :
    ∃ e, ((genLevel prg deep g st i).party p).res_list = (st.party p).res_list++e := by
  rw [genLevel]
  split
  · exact lastStep_fold_res ..
  · exact ⟨[],(expandStep_fold_res ..).trans (List.append_nil _).symm⟩

lemma levels_res (l : List ℕ) (st : GenState) (p : Bool) :
    ∃ e, ((l.foldl (genLevel prg deep g) st).party p).res_list = (st.party p).res_list++e := by
  induction l generalizing st with
  | nil => exact ⟨[],(List.append_nil _).symm⟩
  | cons i l ih =>
    obtain ⟨e, he⟩ := ih (genLevel prg deep g st i)
    obtain ⟨e', he'⟩ := genLevel_res (g := g) st i p
    exact ⟨e'++e,by rw [List.foldl_cons, he, he', List.append_assoc]⟩

/-- `gen` never clears the list. -/
lemma gen_appends (prg : ℕ → Block → Block) (s0 : Bool → Block) (g : GenInput w) (o : Bool → Object)
    (hdeep : deep ≤ 27) : ∃ o', gen prg deep s0 g o = some o' ∧
      ∀ p, ∃ e, (o' p).res_list = (o p).res_list++e :=
  ⟨_,if_pos (by omega),fun p => levels_res (List.range deep) (genStart prg s0 g o) p⟩

lemma genAll_appends (keys : List (GenInput w)) (o : Bool → Object) (hdeep : deep ≤ 27) :
    ∃ o', genAll prg deep s0 keys o = some o' ∧ ∀ p, ∃ e, (o' p).res_list = (o p).res_list++e := by
  induction keys generalizing o with
  | nil => exact ⟨o,rfl,fun p => ⟨[],(List.append_nil _).symm⟩⟩
  | cons g keys ih =>
    obtain ⟨o', hgen, hres⟩ := gen_appends prg s0 g o hdeep
    obtain ⟨o'', hall, hres'⟩ := ih o'
    refine ⟨o'',?_,fun p => ?_⟩
    · rw [genAll, List.foldlM_cons, hgen]
      exact hall
    · obtain ⟨e, he⟩ := hres p
      obtain ⟨e', he'⟩ := hres' p
      exact ⟨e++e',by rw [he', he, List.append_assoc]⟩

/-- Whatever keys follow, the first list stays in front. -/
lemma genAll_first (hpos : 0 < deep) (hdeep : deep ≤ 27) (hg : Shares deep g (point g))
    (ho : ∀ p, Fresh (o p)) (keys : List (GenInput w)) :
    ∃ o', genAll prg deep s0 (g::keys) o = some o' ∧
      SharesPoint deep (point g) (sharedBeta g) o' := by
  obtain ⟨o', hgen, -, -, hres⟩ := gen_fresh prg s0 g (fun p => (ho p).1) hpos hdeep
  obtain ⟨o'', hall, hres'⟩ := genAll_appends keys o' hdeep
  refine ⟨o'',?_,@sharesPoint_output prg deep s0 _ g _ hg hpos o'' fun p => ?_⟩
  · rw [genAll, List.foldlM_cons, hgen]
    exact hall
  · obtain ⟨e, he⟩ := hres' p
    exact ⟨e,by rw [he, hres p, (ho p).2, List.nil_append]⟩

lemma sharesPoint_iff {x x' : ℕ} {b b' : BitVec 64} (h : SharesPoint deep x b o) (hx : x < 2^deep)
    (hx' : x' < 2^deep) : SharesPoint deep x' b' o ↔ b' = b ∧ (x' = x ∨ b = 0) := by
  constructor
  · intro h'
    have hat := (h' x' hx').symm.trans (h x' hx')
    have hat2 := (h' x hx).symm.trans (h x hx)
    rw [if_pos rfl] at hat hat2
    by_cases hxx : x' = x
    · rw [if_pos hxx] at hat
      exact ⟨hat,.inl hxx⟩
    · rw [if_neg hxx] at hat
      rw [if_neg fun he => hxx he.symm] at hat2
      exact ⟨hat.trans hat2,.inr hat2.symm⟩
  · rintro ⟨rfl, rfl | rfl⟩
    · exact h
    · intro y hy
      rw [h y hy, ite_self, ite_self]

/-- Up to 27 levels the second and later lists are right exactly when every key shares the point
function of the first. -/
lemma reuse_iff (hpos : 0 < deep) (hdeep : deep ≤ 27)
    (hkeys : ∀ k ∈ g::keys, Shares deep k (point k)) (ho : ∀ p, Fresh (o p)) :
    ReuseCorrect prg deep s0 (g::keys) o ↔ ∀ k ∈ keys, SameKey g k := by
  have hg := hkeys g (.head _)
  constructor
  · intro h k hk
    obtain ⟨before, after, rfl⟩ := List.append_of_mem hk
    obtain ⟨o', hall, hpoint⟩ := h (g::before) k after rfl
    obtain ⟨o'', hall', hfirst⟩ := genAll_first hpos hdeep hg ho (before++[k])
    have he : some o' = some o'' := hall.symm.trans hall'
    cases he
    exact (sharesPoint_iff hfirst hg.lt (hkeys k (.tail _ hk)).lt).mp hpoint
  · intro h before k after hsplit
    cases before with
    | nil =>
      cases hsplit
      exact genAll_first hpos hdeep hg ho []
    | cons g' before =>
      rw [List.cons_append] at hsplit
      injection hsplit with hhead htail
      subst hhead htail
      have hk : k ∈ before++k::after := List.mem_append_right _ (.head _)
      obtain ⟨o', hall, hfirst⟩ := genAll_first hpos hdeep hg ho (before++[k])
      exact ⟨o',hall,(sharesPoint_iff hfirst hg.lt (hkeys k (.tail _ hk)).lt).mpr (h k hk)⟩

end reuse

/-- An object can be reused exactly for the point function of its first key; with 29 or more levels
no key is generated. -/
theorem reuse_correct_iff {w deep : ℕ} (prg : ℕ → Block → Block) (s0 : Bool → Block) (g : GenInput w)
    (keys : List (GenInput w)) (o : Bool → Object) (hpos : 0 < deep)
    (hkeys : ∀ k ∈ g::keys, Shares deep k (point k)) (ho : ∀ p, Fresh (o p)) :
    (deep ≤ 27 → (ReuseCorrect prg deep s0 (g::keys) o ↔ ∀ k ∈ keys, SameKey g k)) ∧
      (29 ≤ deep → ¬ReuseCorrect prg deep s0 (g::keys) o) := by
  refine ⟨fun hdeep => reuse_iff hpos hdeep hkeys ho,fun hdeep h => ?_⟩
  obtain ⟨o', hall, -⟩ := h [] g keys rfl
  rw [List.nil_append, genAll, List.foldlM_cons, gen, if_neg (by omega)] at hall
  cases hall

/-- The value `b` at the point `x` of a tree with one level. -/
def oneLevel (x b : BitVec 32) : GenInput 32 :=
  { pointOne with alpha := fun p => if p then 0 else x, beta := fun p => if p then 0 else b }

lemma shares_oneLevel {x : BitVec 32} (b : BitVec 32) (hx : x.toNat < 2) :
    Shares 1 (oneLevel x b) (point (oneLevel x b)) := by
  refine ⟨rfl,?_,rfl⟩
  have hpoint : point (oneLevel x b) = x.toNat := by
    change (x^^^0#32).toNat = x.toNat
    rw [BitVec.xor_zero]
  rwa [hpoint]

theorem reuse_correct_zero :
    (∀ k ∈ [oneLevel 0 1,oneLevel 0 1], Shares 1 k (point k)) ∧
      ReuseCorrect zeroPrg 1 (fun _ => 0) [oneLevel 0 1,oneLevel 0 1]
        (fun _ => newObject (fun _ => default) 0) := by
  have hkeys : ∀ k ∈ [oneLevel 0 1,oneLevel 0 1], Shares 1 k (point k) := by
    intro k hk
    obtain rfl : k = oneLevel 0 1 := by simpa using hk
    exact shares_oneLevel 1 (by decide)
  have h := (reuse_correct_iff zeroPrg (fun _ => 0) (oneLevel 0 1) [oneLevel 0 1]
    (fun _ => newObject (fun _ => default) 0) (by norm_num) hkeys fun _ => ⟨rfl,rfl⟩).1 (by norm_num)
  refine ⟨hkeys,h.mpr fun k hk => ?_⟩
  obtain rfl : k = oneLevel 0 1 := by simpa using hk
  exact ⟨rfl,.inl rfl⟩

/-- A second key for the point 1 finds the list of the first, for the point 0. -/
theorem second_key_wrong :
    ¬ReuseCorrect zeroPrg 1 (fun _ => 0) [oneLevel 0 1,oneLevel 1 1]
      (fun _ => newObject (fun _ => default) 0) := by
  intro h
  have hkeys : ∀ k ∈ [oneLevel 0 1,oneLevel 1 1], Shares 1 k (point k) := by
    intro k hk
    obtain rfl | rfl : k = oneLevel 0 1 ∨ k = oneLevel 1 1 := by simpa using hk
    · exact shares_oneLevel 1 (by decide)
    · exact shares_oneLevel 1 (by decide)
  have hsame := (reuse_iff (by norm_num) (by norm_num) hkeys fun _ => ⟨rfl,rfl⟩).mp h (oneLevel 1 1)
    (.head _)
  obtain ⟨-, hpoint | hzero⟩ := hsame
  · revert hpoint
    decide
  · revert hzero
    decide

end OramPro.FssMpc
