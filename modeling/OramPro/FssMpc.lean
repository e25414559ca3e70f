import OramPro.FssEq
import OramPro.XorSum

/-!
# Point-function keys generated by two parties

`FSS_MPC`. The parties expand their trees level by level; at every level they open a correction
word, computed from the XOR of all left and all right children with the shared bit of the point.
The first party of `tarro` is `false`. Oblivious transfer is ideal.
-/
namespace OramPro.FssMpc

/-! ## Shared selection -/

section blocks
variable (z0 z1 : Bool → Block) (select : Bool → Bool) (r : Bool → Block)

/-- `shared_select` of sixteen bytes at party `p`: it receives `z_r` of the other party when its own
bit is set and `r` otherwise. -/
def shared_select (p : Bool) : Block :=
  let z := fun p => z0 p^^^z1 p
  let z_r := fun p => z p^^^r p
  let res := (if select p then z_r (!p) else r (!p))^^^r p
  let res := if select p then res^^^z p else res
  res^^^z0 p

end blocks

/-- The correction word of a level, as both parties know it after `add_reveal`. -/
structure Cw where
  sigma : Block
  tau : Bool → Bool
  deriving Inhabited

def lsb (s : Block) : Bool := s.getLsbD 0

/-- `mpc_block1`; the first party flips its selection bit and its share of `tao0`. -/
def mpc_block1 (z : Bool → Bool → Block) (alpha : Bool → Bool) (r : Bool → Block) : Cw :=
  let zetta := shared_select (fun p => z p false) (fun p => z p true) (fun p => alpha p ^^ !p) r
  let tao0 := fun p => lsb (z p false) ^^ alpha p ^^ !p
  let tao1 := fun p => lsb (z p true) ^^ alpha p
  ⟨zetta false^^^zetta true,
    fun b => if b then tao1 false ^^ tao1 true else tao0 false ^^ tao0 true⟩

/-- The second correction word that `mpc_block2` opens for the last level. -/
def mpc_gamma (z : Bool → Bool → Block) (alpha : Bool → Bool) (beta : Bool → Block) (zetta : Block)
    (r : Bool → Block) : Block :=
  let sel := shared_select (fun p => z p false) (fun p => z p true) alpha r
  let gamma := fun p => if p then sel p^^^beta p else sel p^^^(zetta^^^beta p)
  gamma false^^^gamma true

/-! ## The local blocks -/

section local_
variable (prg : ℕ → Block → Block)

def corrected (s : Block) (t : Bool) (sigma : Block) : Block := if t then s^^^sigma else s

/-- `local_block2`, the last level: `s_out` and `t_out`. -/
def local_block2 (s : Block) (t : Bool) (sigma gamma : Block) (tao : Bool) : Block × Bool :=
  let t_out := lsb s ^^ (t && tao)
  (if t_out then corrected s t sigma^^^gamma else corrected s t sigma,t_out)

/-! ## Objects -/

/-- The memory and the queue while a tree is expanded, with the running sums of the children. -/
structure Expand where
  mem : ℕ → Block
  tlevel : List Bool
  iter : ℕ
  z : Bool → Block
  res_list : List (BitVec 64)

/-- The place of `total_s[iter*16]`; the offset is a `uint32_t`. -/
def slot (iter : ℕ) : ℕ := iter%arraySlots

/-- `local_block1` at node `iter`. The control bit is read off the seed after the children are
written. -/
def expandStep (cw : Cw) (st : Expand) (j : ℕ) : Expand :=
  let tt := st.tlevel.headD false
  let s_plus := corrected (st.mem (slot st.iter)) tt cw.sigma
  let mem := Function.update (Function.update st.mem (slot (st.iter*2+2)) (prfSeed prg s_plus false))
    (slot (st.iter*2+3)) (prfSeed prg s_plus true)
  let tt_out := lsb (mem (slot st.iter)) ^^ (tt && cw.tau (j%2 == 1))
  { mem := mem
    tlevel := st.tlevel.tail++[tt_out,tt_out]
    iter := st.iter+1
    z := fun b => st.z b^^^if b then mem (slot (st.iter*2+3)) else mem (slot (st.iter*2+2))
    res_list := st.res_list }

/-- `local_block2` at node `iter`, with the output in `res_list`. -/
def lastStep (cw : Cw) (gamma : Block) (st : Expand) (j : ℕ) : Expand :=
  let tt := st.tlevel.headD false
  let out := local_block2 (st.mem (slot st.iter)) tt cw.sigma gamma (cw.tau (j%2 == 1))
  { mem := Function.update st.mem (slot (st.iter*2+2)) out.1
    tlevel := st.tlevel.tail++[out.2,out.2]
    iter := st.iter+1
    z := st.z
    res_list := st.res_list++[out.1.setWidth 64] }

end local_

/-- What `gen` leaves in the object: the correction words, the queue and the list. -/
structure Object where
  cw : ℕ → Cw
  gammas : Block
  tlevel : List Bool
  res_list : List (BitVec 64)

/-- The arguments of one `gen` call at both parties: the shares, the control bits, the contents of
the fresh memory, and the randomness of the selections. -/
structure GenInput (w : ℕ) where
  alpha : Bool → BitVec w
  beta : Bool → BitVec w
  t_int : Bool → Bool
  total_s : Bool → ℕ → Block
  r : ℕ → Bool → Block
  r_gamma : Bool → Block

section gen
variable (prg : ℕ → Block → Block) (deep : ℕ) (s0 : Bool → Block) {w : ℕ} (g : GenInput w)

/-- The shares of the bit of `alpha` for a level. -/
def alphabit (i : ℕ) (p : Bool) : Bool := (g.alpha p).getLsbD (deep-1-i)

def betas (p : Bool) : Block := (g.beta p).setWidth 128

structure GenState where
  cw : ℕ → Cw
  gammas : Block
  party : Bool → Expand

def genLevel (st : GenState) (i : ℕ) : GenState :=
  let z := fun p => (st.party p).z
  let cw := mpc_block1 z (alphabit deep g i) (g.r i)
  let clear := fun p => { st.party p with z := fun _ => 0 }
  if i = deep-1 then
    let gammas := mpc_gamma z (alphabit deep g i) (betas g) cw.sigma g.r_gamma
    ⟨Function.update st.cw i cw,gammas,fun p =>
      (List.range (2^(i+1))).foldl (lastStep cw gammas) (clear p)⟩
  else
    ⟨Function.update st.cw i cw,st.gammas,fun p =>
      (List.range (2^(i+1))).foldl (expandStep prg cw) (clear p)⟩

/-- The state before the loop: the children of the root seed are in the first two slots. -/
def genStart (o : Bool → Object) : GenState where
  cw := (o false).cw
  gammas := (o false).gammas
  party p :=
    { mem := Function.update (Function.update (g.total_s p) 0 (prfSeed prg (s0 p) false)) 1
        (prfSeed prg (s0 p) true)
      tlevel := (o p).tlevel++[g.t_int p,g.t_int p]
      iter := 0
      z := prfSeed prg (s0 p)
      res_list := (o p).res_list }

/-- `gen` of both parties. The size `1<<(deep+2)` is an `int`: beyond `2^30` the allocation fails. -/
def gen (o : Bool → Object) : Option (Bool → Object) :=
  if deep+2 ≤ 30 then
    let st := (List.range deep).foldl (genLevel prg deep g) (genStart prg s0 g o)
    some fun p => ⟨st.cw,st.gammas,(st.party p).tlevel,(st.party p).res_list⟩
  else none

end gen

/-- The object after its constructor, with uninitialised correction words. -/
def newObject (cw : ℕ → Cw) (gammas : Block) : Object := ⟨cw,gammas,[],[]⟩

/-! ## Evaluation at one point -/

section evl
variable (prg : ℕ → Block → Block) (deep : ℕ) {w : ℕ} (x : BitVec w) (o : Object)

structure EvlState where
  s : Block
  tt : Bool
  ret : BitVec 64

/-- One round of `evl`. The last round prints; the bit that it reads for a further level is not
used. -/
def evlStep (st : EvlState) (i : ℕ) : EvlState :=
  let bit := x.getLsbD (deep-1-i)
  if i = deep-1 then
    let out := local_block2 st.s st.tt (o.cw i).sigma o.gammas ((o.cw i).tau bit)
    ⟨out.1,out.2,out.1.setWidth 64⟩
  else
    ⟨prfSeed prg (corrected st.s st.tt (o.cw i).sigma) (x.getLsbD (deep-2-i)),
      lsb st.s ^^ (st.tt && (o.cw i).tau bit),st.ret⟩

def evl (s0 : Block) (t_int : Bool) : BitVec 64 :=
  ((List.range deep).foldl (evlStep prg deep x o)
    ⟨prfSeed prg s0 (x.getLsbD (deep-1)),t_int,0⟩).ret

end evl

/-! ## The trees -/

section tree
variable (prg : ℕ → Block → Block) (deep : ℕ) (s0 : Bool → Block) {w : ℕ} (g : GenInput w)

/-- A node, its seed before the correction and its control bit, for one of its children. -/
def child (cw : Cw) (n : Block × Bool) (q : ℕ) (b : Bool) : Block × Bool :=
  (prfSeed prg (corrected n.1 n.2 cw.sigma) b,lsb n.1 ^^ (n.2 && cw.tau (q%2 == 1)))

def levelSum (d : ℕ) (nodes : Bool → ℕ → Block × Bool) (p b : Bool) : Block :=
  xorAll (2^d) fun q => (nodes p (2*q+b.toNat)).1

/-- The correction word that belongs to the nodes of level `d`. -/
def levelCw (d : ℕ) (nodes : Bool → ℕ → Block × Bool) : Cw :=
  mpc_block1 (levelSum d nodes) (alphabit deep g d) (g.r d)

/-- Node `q` of level `d` at either party. -/
def tree : ℕ → Bool → ℕ → Block × Bool
  | 0, p, q => (prfSeed prg (s0 p) (q%2 == 1),g.t_int p)
  | d+1, p, q => child prg (levelCw deep g d (tree d)) (tree d p (q/2)) (q/2) (q%2 == 1)

def treeCw (d : ℕ) : Cw := levelCw deep g d (tree prg deep s0 g d)

def treeGamma : Block :=
  mpc_gamma (levelSum (deep-1) (tree prg deep s0 g (deep-1))) (alphabit deep g (deep-1)) (betas g)
    (treeCw prg deep s0 g (deep-1)).sigma g.r_gamma

def leaf (p : Bool) (x : ℕ) : Block × Bool :=
  local_block2 (tree prg deep s0 g (deep-1) p x).1 (tree prg deep s0 g (deep-1) p x).2
    (treeCw prg deep s0 g (deep-1)).sigma (treeGamma prg deep s0 g)
    ((treeCw prg deep s0 g (deep-1)).tau (x%2 == 1))

end tree

/-! ## Opened values -/

section opened
variable {z : Bool → Bool → Block} {alpha : Bool → Bool} {r : Bool → Block}

/-- The selected word, whatever the random words are. -/
lemma shared_select_xor (z0 z1 : Bool → Block) (select : Bool → Bool) (r : Bool → Block) :
    shared_select z0 z1 select r false^^^shared_select z0 z1 select r true =
      if select false ^^ select true then z1 false^^^z1 true else z0 false^^^z0 true := by
  refine BitVec.eq_of_getLsbD_eq fun i _ => ?_
  simp only [shared_select, Bool.not_false, Bool.not_true]
  cases select false <;> cases select true <;>
    simp only [BitVec.getLsbD_xor, Bool.xor_false, Bool.xor_true, Bool.not_false, Bool.not_true,
      Bool.false_eq_true, if_false, if_true] <;>
    cases (z0 false).getLsbD i <;> cases (z0 true).getLsbD i <;> cases (z1 false).getLsbD i <;>
    cases (z1 true).getLsbD i <;> cases (r false).getLsbD i <;> cases (r true).getLsbD i <;> rfl

lemma mpc_block1_sigma : (mpc_block1 z alpha r).sigma =
    z false (!(alpha false ^^ alpha true))^^^z true (!(alpha false ^^ alpha true)) := by
  rw [mpc_block1, shared_select_xor]
  cases alpha false <;> cases alpha true <;> rfl

lemma mpc_block1_tau (b : Bool) : (mpc_block1 z alpha r).tau b =
    (lsb (z false b^^^z true b) ^^ alpha false ^^ alpha true ^^ !b) := by
  simp only [mpc_block1, lsb, BitVec.getLsbD_xor]
  cases b <;> cases alpha false <;> cases alpha true <;> simp

lemma mpc_gamma_eq (beta : Bool → Block) (zetta : Block) : mpc_gamma z alpha beta zetta r =
    z false (alpha false ^^ alpha true)^^^z true (alpha false ^^ alpha true)^^^zetta^^^
      (beta false^^^beta true) := by
  have hsel := shared_select_xor (fun p => z p false) (fun p => z p true) alpha r
  have hsplit : mpc_gamma z alpha beta zetta r =
      (shared_select (fun p => z p false) (fun p => z p true) alpha r false^^^
        shared_select (fun p => z p false) (fun p => z p true) alpha r true)^^^zetta^^^
      (beta false^^^beta true) := by
    simp only [mpc_gamma, if_true, Bool.false_eq_true, if_false]
    refine BitVec.eq_of_getLsbD_eq fun i _ => ?_
    simp only [BitVec.getLsbD_xor]
    generalize BitVec.getLsbD (shared_select _ _ alpha r false) i = u
    generalize BitVec.getLsbD (shared_select _ _ alpha r true) i = v
    cases u <;> cases v <;> cases zetta.getLsbD i <;> cases (beta false).getLsbD i <;>
      cases (beta true).getLsbD i <;> rfl
  rw [hsplit, hsel]
  cases alpha false <;> cases alpha true <;> rfl

end opened

/-! ## Off and on the path -/

section path
variable {prg : ℕ → Block → Block} {deep : ℕ} {s0 : Bool → Block} {w : ℕ} {g : GenInput w} {x d : ℕ}

/-- The shared point is `x`, and the first control bits differ. -/
structure Shares (deep : ℕ) (g : GenInput w) (x : ℕ) : Prop where
  alpha : (g.alpha false^^^g.alpha true).toNat = x
  lt : x < 2^deep
  t_int : g.t_int false = !g.t_int true

/-- At the children of the path node of a level the control bits differ, everything else is equal
at both parties. -/
def OnPath (prg : ℕ → Block → Block) (deep : ℕ) (s0 : Bool → Block) (g : GenInput w) (x d : ℕ) : Prop :=
  ∀ q < 2^(d+1),
    if q/2 = x/2^(deep-d) then
      (tree prg deep s0 g d false q).2 = !(tree prg deep s0 g d true q).2
    else tree prg deep s0 g d false q = tree prg deep s0 g d true q

lemma alphabit_xor (h : Shares deep g x) (i : ℕ) :
    (alphabit deep g i false ^^ alphabit deep g i true) = (x/2^(deep-1-i)%2 == 1) := by
  rw [alphabit, alphabit, ← BitVec.getLsbD_xor, ← h.alpha, BitVec.getLsbD,
    Nat.testBit_eq_decide_div_mod_eq]
  rfl

lemma parent_lt (h : Shares deep g x) (hd : d ≤ deep) : x/2^(deep-d) < 2^d := by
  rw [Nat.div_lt_iff_lt_mul (Nat.two_pow_pos _), ← pow_add, Nat.add_sub_cancel' hd]
  exact h.lt

lemma parent_succ (hd : d < deep) :
    x/2^(deep-d) = x/2^(deep-1-d)/2 := by
  rw [Nat.div_div_eq_div_mul, ← pow_succ]
  congr 2
  omega

/-- The opened sum of a level is the difference at one child of the path node. -/
lemma levelSum_xor (h : Shares deep g x) (hd : d ≤ deep) (hp : OnPath prg deep s0 g x d) (b : Bool) :
    let q := 2*(x/2^(deep-d))+b.toNat
    levelSum d (tree prg deep s0 g d) false b^^^levelSum d (tree prg deep s0 g d) true b =
      (tree prg deep s0 g d false q).1^^^(tree prg deep s0 g d true q).1 := by
  intro q
  have hb := Bool.toNat_lt b
  rw [levelSum, levelSum, ← xorAll_xor,
    ← xorAll_single (parent_lt h hd) ((tree prg deep s0 g d false q).1^^^(tree prg deep s0 g d true q).1)]
  refine xorAll_congr fun j hj => ?_
  split
  · next hj' => rw [hj']
  · next hne =>
    have hoff := hp (2*j+b.toNat) (by rw [pow_succ]; omega)
    rw [if_neg (by omega)] at hoff
    rw [hoff, BitVec.xor_self]
    rfl

lemma corrected_eq {s t sigma : Block} {u v : Bool} (huv : u = !v) (h : s^^^t = sigma) :
    corrected s u sigma = corrected t v sigma := by
  subst h huv
  cases v
  · simp only [corrected, Bool.not_false, if_true, Bool.false_eq_true, if_false]
    rw [← BitVec.xor_assoc, BitVec.xor_self, BitVec.zero_xor]
  · simp only [corrected, Bool.not_true, Bool.false_eq_true, if_false, if_true]
    rw [BitVec.xor_comm s t, ← BitVec.xor_assoc, BitVec.xor_self, BitVec.zero_xor]

lemma treeCw_sigma (h : Shares deep g x) (hd : d < deep) (hp : OnPath prg deep s0 g x d) :
    let q := 2*(x/2^(deep-d))+(!(x/2^(deep-1-d)%2 == 1)).toNat
    (treeCw prg deep s0 g d).sigma =
      (tree prg deep s0 g d false q).1^^^(tree prg deep s0 g d true q).1 := by
  intro q
  rw [treeCw, levelCw, mpc_block1_sigma, alphabit_xor h]
  exact levelSum_xor h hd.le hp _

lemma treeCw_tau (h : Shares deep g x) (hd : d < deep) (hp : OnPath prg deep s0 g x d) (b : Bool) :
    let q := 2*(x/2^(deep-d))+b.toNat
    (treeCw prg deep s0 g d).tau b =
      (lsb (tree prg deep s0 g d false q).1 ^^ lsb (tree prg deep s0 g d true q).1 ^^
        (x/2^(deep-1-d)%2 == 1) ^^ !b) := by
  intro q
  rw [treeCw, levelCw, mpc_block1_tau, levelSum_xor h hd.le hp, Bool.xor_assoc (lsb _),
    alphabit_xor h, lsb, BitVec.getLsbD_xor]
  rfl

lemma path_split (hd : d < deep) {q : ℕ} (hq : q/2 = x/2^(deep-d)) :
    q = 2*(x/2^(deep-d))+(q%2 == 1).toNat ∧
      (q ≠ x/2^(deep-1-d) → (q%2 == 1) = !(x/2^(deep-1-d)%2 == 1)) := by
  have hparent := parent_succ (x := x) hd
  generalize x/2^(deep-1-d) = y at *
  generalize x/2^(deep-d) = z at *
  rcases Nat.mod_two_eq_zero_or_one q with h0 | h0 <;> rcases Nat.mod_two_eq_zero_or_one y with h1 | h1
  all_goals
    simp only [h0, h1]
    refine ⟨?_,fun hne => ?_⟩
    · simp
      omega
    · first
        | rfl
        | omega

lemma t_out_bits (l l' t a b : Bool) :
    (l ^^ (!t && (l ^^ l' ^^ a ^^ !b))) = ((l' ^^ (t && (l ^^ l' ^^ a ^^ !b))) ^^ (a ^^ !b)) := by
  revert l l' t a b
  decide

/-- The next control bits differ at the path node only, and every other node is corrected to the
same seed. -/
lemma next_equal (h : Shares deep g x) (hd : d < deep) (hp : OnPath prg deep s0 g x d) {q : ℕ}
    (hq : q < 2^(d+1)) :
    let n := tree prg deep s0 g d false q
    let n' := tree prg deep s0 g d true q
    let cw := treeCw prg deep s0 g d
    (lsb n.1 ^^ (n.2 && cw.tau (q%2 == 1))) =
        ((lsb n'.1 ^^ (n'.2 && cw.tau (q%2 == 1))) ^^ decide (q = x/2^(deep-1-d))) ∧
      (q ≠ x/2^(deep-1-d) → corrected n.1 n.2 cw.sigma = corrected n'.1 n'.2 cw.sigma) := by
  intro n n' cw
  have hnode := hp q hq
  have hparent := parent_succ (x := x) hd
  by_cases hpp : q/2 = x/2^(deep-d)
  · rw [if_pos hpp] at hnode
    obtain ⟨hsplit, hside⟩ := path_split hd hpp
    have htau := treeCw_tau h hd hp (q%2 == 1)
    rw [← hsplit] at htau
    constructor
    · have hdec : decide (q = x/2^(deep-1-d)) = ((x/2^(deep-1-d)%2 == 1) ^^ !(q%2 == 1)) := by
        by_cases hne : q = x/2^(deep-1-d)
        · rw [decide_eq_true hne, ← hne]
          cases q%2 == 1 <;> rfl
        · rw [decide_eq_false hne, hside hne]
          cases x/2^(deep-1-d)%2 == 1 <;> rfl
      have hn : n.2 = !n'.2 := hnode
      rw [hdec, hn, show cw.tau (q%2 == 1) = _ from htau]
      exact t_out_bits _ _ _ _ _
    · intro hne
      refine corrected_eq hnode ?_
      have hsigma := treeCw_sigma h hd hp
      rw [← hside hne, ← hsplit] at hsigma
      exact hsigma.symm
  · rw [if_neg hpp] at hnode
    have hne : q ≠ x/2^(deep-1-d) := fun hq' => hpp (by rw [hparent, hq'])
    have hn : n = n' := hnode
    rw [decide_eq_false hne, hn, Bool.xor_false]
    exact ⟨rfl,fun _ => rfl⟩

lemma onPath (prg : ℕ → Block → Block) (s0 : Bool → Block) (h : Shares deep g x) (hd : d < deep) :
    OnPath prg deep s0 g x d := by
  induction d with
  | zero =>
    intro q hq
    have h0 : q/2 = x/2^(deep-0) := by
      rw [Nat.sub_zero, Nat.div_eq_of_lt h.lt]
      omega
    rw [if_pos h0]
    exact h.t_int
  | succ d ih =>
    intro q hq
    have hq2 : q/2 < 2^(d+1) := by
      rw [pow_succ] at hq
      omega
    obtain ⟨hbit, hseed⟩ := next_equal h (by omega) (ih (by omega)) hq2
    have hlevel : deep-(d+1) = deep-1-d := by omega
    rw [hlevel]
    split
    · next hq' =>
      rw [decide_eq_true hq', Bool.xor_true] at hbit
      exact hbit
    · next hq' =>
      rw [decide_eq_false hq', Bool.xor_false] at hbit
      exact Prod.ext (congrArg (prfSeed prg · (q%2 == 1)) (hseed hq')) hbit

/-- At the path node the corrected seeds differ by both children of the path. -/
lemma corrected_xor {s t sigma : Block} {u v : Bool} (huv : u = !v) :
    corrected s u sigma^^^corrected t v sigma = s^^^t^^^sigma := by
  subst huv
  cases v
  · simp only [corrected, Bool.not_false, if_true, Bool.false_eq_true, if_false]
    rw [BitVec.xor_assoc, BitVec.xor_comm sigma, ← BitVec.xor_assoc]
  · simp only [corrected, Bool.not_true, Bool.false_eq_true, if_false, if_true, BitVec.xor_assoc]

lemma treeGamma_eq (h : Shares deep g x) (hdeep : 0 < deep)
    (hp : OnPath prg deep s0 g x (deep-1)) :
    treeGamma prg deep s0 g =
      (tree prg deep s0 g (deep-1) false x).1^^^(tree prg deep s0 g (deep-1) true x).1^^^
        (treeCw prg deep s0 g (deep-1)).sigma^^^(betas g false^^^betas g true) := by
  have hx : x/2^(deep-1-(deep-1)) = x := by simp
  have hplace : 2*(x/2^(deep-(deep-1)))+(x%2 == 1).toNat = x := by
    have hparent := @parent_succ deep x (deep-1) (by omega)
    rw [hx] at hparent
    rcases Nat.mod_two_eq_zero_or_one x with h0 | h0 <;> simp [h0] <;> omega
  have hsum := levelSum_xor h (by omega) hp (x%2 == 1)
  rw [hplace] at hsum
  rw [treeGamma, mpc_gamma_eq, alphabit_xor h, hx, hsum]

lemma leaf_xor (prg : ℕ → Block → Block) (s0 : Bool → Block) (h : Shares deep g x) (hdeep : 0 < deep)
    {y : ℕ} (hy : y < 2^deep) :
    (leaf prg deep s0 g false y).1^^^(leaf prg deep s0 g true y).1 =
      if y = x then betas g false^^^betas g true else 0 := by
  have hlast : deep-1+1 = deep := by omega
  have hp := onPath (d := deep-1) prg s0 h (by omega)
  obtain ⟨hbit, hseed⟩ := next_equal h (by omega) hp (q := y) (by rwa [hlast])
  have hx : x/2^(deep-1-(deep-1)) = x := by simp
  rw [hx] at hbit hseed
  have hleaf : ∀ p, (leaf prg deep s0 g p y).1 =
      corrected (corrected (tree prg deep s0 g (deep-1) p y).1 (tree prg deep s0 g (deep-1) p y).2
        (treeCw prg deep s0 g (deep-1)).sigma) (lsb (tree prg deep s0 g (deep-1) p y).1 ^^
          ((tree prg deep s0 g (deep-1) p y).2 && (treeCw prg deep s0 g (deep-1)).tau (y%2 == 1)))
        (treeGamma prg deep s0 g) := fun p => rfl
  rw [hleaf, hleaf]
  by_cases hyx : y = x
  · have hnode := hp y (by rwa [hlast])
    rw [if_pos (by rw [hyx, parent_succ (by omega), hx])] at hnode
    rw [decide_eq_true hyx, Bool.xor_true] at hbit
    rw [if_pos hyx, corrected_xor hbit, corrected_xor hnode, treeGamma_eq h hdeep hp, hyx,
      ← BitVec.xor_assoc, BitVec.xor_self, BitVec.zero_xor]
  · rw [decide_eq_false hyx, Bool.xor_false] at hbit
    rw [if_neg hyx, hseed hyx, hbit, BitVec.xor_self]
    rfl

end path

end OramPro.FssMpc
