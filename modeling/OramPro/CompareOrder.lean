import OramPro.CompareEq
import OramPro.CompareOverflow
import OramPro.Operation

/-!
# Sums, differences and orders from the key queues

`Add_sub` runs `overflow` beside a conversion of the sum, in one call or in four rounds. `Cmp_a_e_ae`
turns the borrow of a subtraction into the order, and the machine takes the equality flag off for
the strict order.
-/
namespace OramPro

open Party

/-! ## Add_sub -/

/-- The `overflow` and `conv` members of an `Add_sub` object. -/
structure AddSub where
  overflow : CompareState
  conv : Convert

def addSubOffline {f : Fss} (items : List (MsbItem f)) (zero zero' : ℕ → ZeroDraw) (len : ℕ) : AddSub :=
  ⟨scmpOff items zero len false,.zeroshare zero' len⟩

section addSub
variable (f : Fss) (d : AddSub) (type_of : ℕ) (data_a data_b : Party → ℕ → Word) (len : ℕ)

def addSubRes (p : Party) (i : ℕ) : Word :=
  if type_of = 1 then data_a p i+data_b p i else data_a p i-data_b p i

/-- `total`: the arrays `res` and `flag`. -/
def addSubTotal : (Party → ℕ → Word) × (Party → ℕ → Word) :=
  ((d.conv.share (addSubRes type_of data_a data_b) len).1,
    (overflowCall f d.overflow data_a data_b len 33 (cbOf type_of) false).1)

/-- `round1` to `roundend` -/
def addSubRounds : (Party → ℕ → Word) × (Party → ℕ → Word) :=
  ((d.conv.share2 (d.conv.share1 (addSubRes type_of data_a data_b) len) len).1,
    overflowRounds f d.overflow data_a data_b len 33 (cbOf type_of))

end addSub

/-- For each index `Add_sub` is the operation of the machine. -/
theorem addSubTotal_eq_op {f : Fss} {d : AddSub} {r a sum : GateDraw} {zero zero' : ℕ → ZeroDraw}
    {len i : ℕ} (h : GatesAt f d.overflow.q r a sum len i)
    (hoverflow : d.overflow.conv = .zeroshare zero len) (hconv : d.conv = .zeroshare zero' len)
    (h16 : len < 2^16) (hi : i < len) (type_of : ℕ) (R A : Party → ℕ → Word) :
    let total := addSubTotal f d type_of R A len
    let op := if type_of = 1 then addOp else subOp
    ((fun p => total.1 p i,fun p => total.2 p i) : (Party → Word) × (Party → Word)) =
      op ⟨zero' i,r,a,sum,zero i⟩ (fun p => R p i) fun p => A p i := by
  intro total op
  have hres : (fun p => total.1 p i) = toReplicated (zero' i) fun p => addSubRes type_of R A p i := by
    funext p
    simp only [total, addSubTotal, hconv]
    exact Convert.share_zeroshare zero' h16 hi p
  have hflag : (fun p => total.2 p i) =
      overflow ⟨r,a,sum,zero i⟩ (cbOf type_of) (fun p => R p i) fun p => A p i :=
    overflowCall_eq_overflow h zero hoverflow h16 hi type_of
  rw [hres, hflag]
  by_cases ht : type_of = 1
  · simp only [op, addSubRes, cbOf, if_pos ht]
    rfl
  · simp only [op, addSubRes, cbOf, if_neg ht]
    rfl

/-! ## Cmp_a_e_ae -/

/-- Type 2, from `round1` to `roundend`. -/
def cmpAe (f : Fss) (s : CompareState) (data_a data_b : Party → ℕ → Word) (len : ℕ) (p : Party)
    (i : ℕ) : Word := notFlag (fun r => overflowRounds f s data_a data_b len 33 overflowSub r i) p

/-- Type 1, with whatever the array held before. -/
def cmpE (eks : ℕ → EqDraw) (data_a data_b flag : Party → ℕ → Word) (p : Party) (i : ℕ) : Word :=
  equalRounds (eks i) (fun r => data_a r i) (fun r => data_b r i) (fun r => flag r i) p

/-- The random values of one element of `eq_off`. -/
structure EqRand where
  r_cmpe : Word
  rop : ℕ
  root : RootDraw
  level : ℕ → LevelDraw
  d0 : Word
  d1 : Word
  d2 : Word

def EqRand.off (f : Fss) (x : EqRand) : EqDraw :=
  eqOff f x.r_cmpe x.rop x.root x.level x.d0 x.d1 x.d2

/-- The keys have a point, and the value of `player1` there does not wrap around. -/
def EqRand.Fine (f : Fss) (x : EqRand) : Prop :=
  Invertible (x.off f).f (x.r_cmpe.zeroExtend 64) x.root x.level ∧
    evaluateEq (x.off f).f (x.off f).k0 (x.r_cmpe.zeroExtend 64) ≠ 0

/-! ## What they return -/

/-- Replicated flags that open to `b`. -/
def Opens (flags : Party → Word) (b : Word) : Prop := Replicated flags ∧ openRep flags = b

/-- All flags and results of one set of operands, after the offline phases. -/
structure OrderFlags {f : Fss} (items : List (MsbItem f)) (zero zero' : ℕ → ZeroDraw) (fe : Fss)
    (eks : ℕ → EqRand) (R A flag : Party → ℕ → Word) (len : ℕ) : Prop where
  overflow : ∀ type_of, ∀ i < len,
    let b := carryOf type_of (open4 fun p => R p i) (open4 fun p => A p i)
    let s := scmpOff items zero len false
    Opens (fun p => (overflowCall f s R A len 33 (cbOf type_of) false).1 p i) b ∧
      Opens (fun p => overflowRounds f s R A len 33 (cbOf type_of) p i) b
  addSub : ∀ type_of, ∀ i < len,
    let x := open4 fun p => R p i
    let y := open4 fun p => A p i
    let d := addSubOffline items zero zero' len
    let total := addSubTotal f d type_of R A len
    let rounds := addSubRounds f d type_of R A len
    let r := if type_of = 1 then x+y else x-y
    Opens (fun p => total.1 p i) r ∧ Opens (fun p => rounds.1 p i) r ∧
      Opens (fun p => total.2 p i) (carryOf type_of x y) ∧
      Opens (fun p => rounds.2 p i) (carryOf type_of x y)
  cmpae : ∀ i < len, Opens (fun p => cmpAe f (scmpOff items zero len false) R A len p i)
    (if (open4 fun p => A p i).toNat ≤ (open4 fun p => R p i).toNat then 1 else 0)
  cmpa : ∀ i < len, Opens (fun p => cmpAe f (scmpOff items zero len false) R A len p i
      -cmpE (fun j => (eks j).off fe) R A flag p i)
    (if (open4 fun p => A p i).toNat < (open4 fun p => R p i).toNat then 1 else 0)

section results
variable {f : Fss} (items : List (MsbItem f)) (zero zero' : ℕ → ZeroDraw) (R A : Party → ℕ → Word)
  {len i : ℕ} (type_of : ℕ)

lemma addSubRes_open :
    open4 (fun p => addSubRes type_of R A p i) = if type_of = 1 then
      (open4 fun p => R p i)+(open4 fun p => A p i) else (open4 fun p => R p i)-open4 fun p => A p i := by
  by_cases h : type_of = 1
  · simp only [addSubRes, if_pos h]
    exact open4_add _ _
  · simp only [addSubRes, if_neg h]
    exact open4_sub _ _

lemma convert_opens (h16 : len < 2^16) (hi : i < len) (data : Party → ℕ → Word) :
    Opens (fun p => ((Convert.zeroshare zero len).share data len).1 p i) (open4 fun p => data p i) := by
  have h : (fun p => ((Convert.zeroshare zero len).share data len).1 p i) =
      toReplicated (zero i) fun p => data p i := funext fun p => Convert.share_zeroshare zero h16 hi p
  rw [h]
  exact ⟨toReplicated_rep _ _,toReplicated_open _ _⟩

variable (h33 : f.numBits = 33) (hlen : items.length = 3*len) (h16 : len < 2^16) (hi : i < len)
include h33 hlen h16 hi

lemma overflow_opens :
    let b := carryOf type_of (open4 fun p => R p i) (open4 fun p => A p i)
    let s := scmpOff items zero len false
    Opens (fun p => (overflowCall f s R A len 33 (cbOf type_of) false).1 p i) b ∧
      Opens (fun p => overflowRounds f s R A len 33 (cbOf type_of) p i) b := by
  intro b s
  rw [overflowRounds_eq]
  exact ⟨overflowCall_flags items zero R A type_of h33 hlen hi false h16,
    overflowCall_flags items zero R A type_of h33 hlen hi false h16⟩

lemma cmpAe_borrow :
    Opens (fun p => overflowRounds f (scmpOff items zero len false) R A len 33 overflowSub p i)
      (if (open4 fun p => R p i).toNat < (open4 fun p => A p i).toNat then 1 else 0) :=
  (overflow_opens items zero R A 2 h33 hlen h16 hi).2

end results

lemma cmpE_eq (eks : ℕ → EqDraw) (R A flag : Party → ℕ → Word) (i : ℕ) :
    (fun p => cmpE eks R A flag p i) = equal (eks i) (fun r => R r i) fun r => A r i :=
  equalRounds_eq _ _ _ _

/-- The strict order of one pair of operands. -/
lemma cmpa_iff {f fe : Fss} (h33 : f.numBits = 33) (hp : fe.prime.Prime) (hlarge : 2^32 < fe.prime)
    {len i : ℕ} (h16 : len < 2^16) (hi : i < len) {items : List (MsbItem f)}
    (hlen : items.length = 3*len) (zero : ℕ → ZeroDraw) (eks : ℕ → EqRand)
    (R A flag : Party → ℕ → Word) :
    openRep (fun p => cmpAe f (scmpOff items zero len false) R A len p i
        -cmpE (fun j => (eks j).off fe) R A flag p i) =
      (if (open4 fun p => A p i).toNat < (open4 fun p => R p i).toNat then 1 else 0) ↔
    ((open4 fun p => R p i) = (open4 fun p => A p i) → (eks i).Fine fe) := by
  have hborrow := cmpAe_borrow items zero R A h33 hlen h16 hi
  refine (notFlag_order hborrow.1 hborrow.2 fun p =>
    cmpE (fun j => (eks j).off fe) R A flag p i).2.trans ?_
  rw [cmpE_eq]
  exact eqOff_right hp hlarge (eks i).rop (eks i).d0 (eks i).d1 (eks i).d2 _ _

/-! ## Equality keys that wrap around -/

/-- Seeds for which the value of `player1` at the mask 0 is 0. -/
def wrapRand : EqRand := ⟨0,0,⟨1,0,0,0,0⟩,fun _ => ⟨1,0,0,0,0⟩,1,2,3⟩

lemma wrapRand_not_fine : ¬wrapRand.Fine ⟨tailPrg,32,2^32+15⟩ := by
  rintro ⟨-, hne⟩
  refine hne ?_
  have hz : BitVec.zeroExtend 64 wrapRand.r_cmpe = 0 := by decide
  have hbits : pathBits 32 (0 : BitVec 64) = fun _ => false := funext (pathBits_zero 32)
  have hpath := nodeAt_path tailPrg (fun _ => false) wrapRand.root wrapRand.level 31 false
  have htree : (wrapRand.off ⟨tailPrg,32,2^32+15⟩).k0.toTreeKey =
      treeKey tailPrg (fun _ => false) wrapRand.root wrapRand.level false := by
    rw [← hbits, ← hz]
    rfl
  have hf : (wrapRand.off ⟨tailPrg,32,2^32+15⟩).f = ⟨tailPrg,32,2^32+15⟩ := rfl
  have hseed : import34 tailPrg 1 = 0 := by decide
  have hend : path tailPrg (fun _ => false) wrapRand.root wrapRand.level 31 = ⟨1,0,false,true⟩ :=
    tail_path_of 1 0 31
  rw [hend] at hpath
  rw [hz, hf, evaluateEq_eq, htree]
  simp only [hbits, Nat.reduceSub, hpath, Bool.false_eq_true, if_false, hseed, Nat.zero_mul,
    Nat.zero_mod]

/-- The prime that `mpz_nextprime` finds above `2^32`. -/
lemma prime_next : Nat.Prime (2^32+15) := by
  have hp : 2^32+15 = 4294967311 := by norm_num
  rw [hp]
  refine lucas_primality _ 3 (by norm_num; reduce_mod_char) fun q hq hdvd => ?_
  have hfac : 4294967311-1 = 2*3*3*5*131*364289 := by norm_num
  have hcase : q = 2 ∨ q = 3 ∨ q = 5 ∨ q = 131 ∨ q = 364289 := by
    rw [hfac] at hdvd
    simp only [hq.dvd_mul, Nat.prime_dvd_prime_iff_eq hq (by norm_num : Nat.Prime 2),
      Nat.prime_dvd_prime_iff_eq hq (by norm_num : Nat.Prime 3),
      Nat.prime_dvd_prime_iff_eq hq (by norm_num : Nat.Prime 5),
      Nat.prime_dvd_prime_iff_eq hq (by norm_num : Nat.Prime 131),
      Nat.prime_dvd_prime_iff_eq hq (by norm_num : Nat.Prime 364289)] at hdvd
    omega
  rcases hcase with rfl | rfl | rfl | rfl | rfl <;> norm_num <;> reduce_mod_char <;> decide

/-- Both operands are 20. The value of `player1` is 0 and that of `player3` is the largest residue,
so that the strict order is not 0. -/
theorem cmpa_equal_wrong :
    let fe : Fss := ⟨tailPrg,32,2^32+15⟩
    let zero : ℕ → ZeroDraw := fun _ => ⟨0,0,0⟩
    openRep (fun p => cmpAe reduceFss (scmpOff reduceItems zero 1 false) (fun _ _ => 5) (fun _ _ => 5) 1 p 0
        -cmpE (fun _ => wrapRand.off fe) (fun _ _ => 5) (fun _ _ => 5) (fun _ _ => 0) p 0) ≠ 0 ∧
      ¬OrderFlags reduceItems zero zero fe (fun _ => wrapRand) (fun _ _ => 5) (fun _ _ => 5)
        (fun _ _ => 0) 1 := by
  intro fe zero
  have hitems : reduceItems.length = 3*1 := rfl
  have hprime : fe.prime.Prime := prime_next
  have hiff := cmpa_iff rfl hprime (by norm_num [fe]) (by norm_num) Nat.zero_lt_one hitems zero
    (fun _ => wrapRand) (fun _ _ => 5) (fun _ _ => 5) fun _ _ => 0
  rw [if_neg (lt_irrefl _)] at hiff
  have hne := fun h => wrapRand_not_fine (hiff.mp h rfl)
  refine ⟨hne,fun h => hne ?_⟩
  have hopen := (h.cmpa 0 Nat.zero_lt_one).2
  rwa [if_neg (lt_irrefl _)] at hopen

/-- Carry, borrow, sum, difference and order are always right. The strict order is right except for
equal operands whose equality keys have no point or wrap around there. -/
theorem orderFlags_iff {f fe : Fss} (h33 : f.numBits = 33) (hp : fe.prime.Prime)
    (hlarge : 2^32 < fe.prime) {len : ℕ} (h16 : len < 2^16) (items : List (MsbItem f))
    (hlen : items.length = 3*len) (zero zero' : ℕ → ZeroDraw) (eks : ℕ → EqRand)
    (R A flag : Party → ℕ → Word) : OrderFlags items zero zero' fe eks R A flag len ↔
      ∀ i < len, (open4 fun p => R p i) = (open4 fun p => A p i) → (eks i).Fine fe := by
  constructor
  · exact fun h i hi => (cmpa_iff h33 hp hlarge h16 hi hlen zero eks R A flag).mp (h.cmpa i hi).2
  · intro h
    have hborrow := fun i (hi : i < len) => cmpAe_borrow items zero R A h33 hlen h16 hi
    refine ⟨fun t i hi => overflow_opens items zero R A t h33 hlen h16 hi,fun t i hi => ?_,
      fun i hi => ?_,fun i hi => ?_⟩
    · obtain ⟨htotal, hrounds⟩ := overflow_opens items zero R A t h33 hlen h16 hi
      have hres := convert_opens zero' h16 hi (addSubRes t R A)
      rw [addSubRes_open] at hres
      exact ⟨hres,hres,htotal,hrounds⟩
    · exact ⟨(notFlag_spec (hborrow i hi).1).1,
        (notFlag_order (hborrow i hi).1 (hborrow i hi).2 fun _ => 0).1⟩
    · refine ⟨sub_rep (notFlag_spec (hborrow i hi).1).1 ?_,
        (cmpa_iff h33 hp hlarge h16 hi hlen zero eks R A flag).mpr (h i hi)⟩
      rw [cmpE_eq]
      exact ⟨rfl,rfl⟩

/-- Different operands: all flags are right, whatever the equality keys are. -/
theorem orderFlags_seven :
    OrderFlags reduceItems (fun _ => ⟨0,0,0⟩) (fun _ => ⟨0,0,0⟩) ⟨tailPrg,32,2^32+15⟩
      (fun _ => wrapRand) (fun _ _ => 7) (fun _ _ => 5) (fun _ _ => 0) 1 :=
  (orderFlags_iff rfl prime_next (by norm_num) (by norm_num) _ rfl _ _ _ _ _ _).mpr
    fun _ _ h => absurd h (by decide)

end OramPro
