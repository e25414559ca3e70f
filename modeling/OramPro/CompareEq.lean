import OramPro.Compare
import OramPro.FssEqPrime

/-!
# Equality over the prime field

The two keys of `eq_off` evaluate to residues modulo the prime, and `equal` uses them as words. At
the mask the residues differ by one, so the words do too unless the first residue is 0 and the
second is the largest one.
-/
namespace OramPro

open Party

/-- One element of `eq_off`, with the random values of its keys and the shares of its mask. -/
def eqOff (f : Fss) (r_cmpe : Word) (rop : ℕ) (r : RootDraw) (lv : ℕ → LevelDraw)
    (d0 d1 d2 : Word) : EqDraw :=
  let cmpkey_32 : Fss := { f with numBits := 32 }
  let k := generateTreeEq cmpkey_32 (r_cmpe.zeroExtend 64) 1 rop r lv
  ⟨cmpkey_32,k.1,k.2,r_cmpe,d0,d1,d2⟩

section split
variable (d : EqDraw)

/-- `equal_1`: with `is_rep` the odd parties send their mask share alone. -/
def equal1 (R A : Party → Word) (is_rep : Bool) (p : Party) : Word :=
  if is_rep && !p.isEven then eqMask d p else R p-A p+eqMask d p

/-- `equal_2`: without `is_reduce` the even parties leave `flags` as it is. -/
def equal2 (delta flags : Party → Word) (is_reduce : Bool) (p : Party) : Word :=
  let tmp := fourpcReveal delta p
  match p with
  | player1 => evalEqKey d d.k0 tmp
  | player3 => -evalEqKey d d.k1 tmp
  | player0 => if is_reduce then evalEqKey d d.k0 tmp else flags player0
  | player2 => if is_reduce then -evalEqKey d d.k1 tmp else flags player2

/-- `equal_3`: the even parties receive what the odd parties sent at the end of `equal_2`. -/
def equal3 (flags : Party → Word) : Party → Word
  | player0 => flags player1
  | player1 => flags player1
  | player2 => flags player3
  | player3 => flags player3

/-- The three rounds with their default arguments. -/
def equalRounds (R A flags : Party → Word) : Party → Word :=
  equal3 (equal2 d (equal1 d R A false) flags false)

end split

lemma equalRounds_eq (d : EqDraw) (R A flags : Party → Word) :
    equalRounds d R A flags = equal d R A := by
  funext p
  cases p <;> rfl

lemma equal_opened (d : EqDraw) (R A : Party → Word) (p : Party) :
    fourpcReveal (equal1 d R A false) p = open4 R-open4 A+d.r_cmpe := by
  rw [fourpcReveal_eq]
  simp only [open4, equal1, Bool.false_and, Bool.false_eq_true, if_false, eqMask]
  ring

/-- What the parties hold after `equal` in terms of the opened value. -/
lemma equal_flags (d : EqDraw) (R A : Party → Word) : Replicated (equal d R A) ∧
    openRep (equal d R A) = evalEqKey d d.k0 (open4 R-open4 A+d.r_cmpe)
      -evalEqKey d d.k1 (open4 R-open4 A+d.r_cmpe) := by
  have hx : ∀ p, fourpcReveal (fun q => R q-A q+eqMask d q) p = open4 R-open4 A+d.r_cmpe :=
    equal_opened d R A
  refine ⟨⟨rfl,rfl⟩,?_⟩
  simp only [openRep, equal, hx, ← sub_eq_add_neg]

lemma word_toNat_one : (1 : Word).toNat = 1 := rfl

/-- Two residues that differ by one modulo `p` differ by one as words, unless they wrap around. -/
lemma residue_sub {p u v : ℕ} (hp : ¬2^32 ∣ p) (hu : u < p) (hv : v < p)
    (h : (u : ℤ)-v ≡ 1 [ZMOD p]) : BitVec.ofNat 32 u-BitVec.ofNat 32 v = 1 ↔ u ≠ 0 := by
  obtain ⟨c, hc⟩ := h.dvd
  have hpos : (0 : ℤ) < p := by omega
  -- the difference lies between -p and p, so it is 1 or 1-p
  have hc0 : -1 < c := by
    by_contra hneg
    have : (p : ℤ)*c ≤ p*(-1) := mul_le_mul_of_nonneg_left (by omega) hpos.le
    omega
  have hc2 : c < 2 := by
    by_contra hbig
    have : (p : ℤ)*2 ≤ p*c := mul_le_mul_of_nonneg_left (by omega) hpos.le
    omega
  have hdvd : ¬p%2^32 = 0 := fun h0 => hp (Nat.dvd_of_mod_eq_zero h0)
  obtain rfl | rfl : c = 0 ∨ c = 1 := by omega
  · rw [mul_zero] at hc
    obtain rfl : u = v+1 := by omega
    refine iff_of_true ?_ (by omega)
    rw [BitVec.ofNat_add, add_sub_cancel_left]
    rfl
  · rw [mul_one] at hc
    have hu0 : u = 0 := by omega
    have hv1 : v+1 = p := by omega
    refine iff_of_false (fun heq => ?_) (fun hne => hne hu0)
    have := congrArg BitVec.toNat heq
    rw [hu0, BitVec.toNat_sub, BitVec.toNat_ofNat, BitVec.toNat_ofNat, word_toNat_one] at this
    omega

lemma evaluateEq_lt {f : Fss} (hp : 0 < f.prime) (k : ServerKeyEq) (x : BitVec 64) :
    evaluateEq f k x < f.prime := Nat.mod_lt _ hp

lemma zeroExtend_low (x : Word) : (x.zeroExtend 64).toNat%2^32 = x.toNat := by
  rw [BitVec.zeroExtend, BitVec.toNat_setWidth]
  omega

section eqOff
variable {f : Fss} {r_cmpe : Word} {r : RootDraw} {lv : ℕ → LevelDraw}

/-- The two words at an opened value `x`. -/
lemma eqKeys_words (hn : f.numBits = 32) (hp : 1 < f.prime) (hmod : ¬2^32 ∣ f.prime)
    (h : Invertible f (r_cmpe.zeroExtend 64) r lv) (rop : ℕ) (x : Word) :
    let k := generateTreeEq f (r_cmpe.zeroExtend 64) 1 rop r lv
    BitVec.ofNat 32 (evaluateEq f k.1 (x.zeroExtend 64))
        -BitVec.ofNat 32 (evaluateEq f k.2 (x.zeroExtend 64)) = (if x = r_cmpe then 1 else 0) ↔
      ¬(x = r_cmpe ∧ evaluateEq f k.1 (x.zeroExtend 64) = 0) := by
  intro k
  by_cases he : x = r_cmpe
  · have hon : (evaluateEq f k.1 (x.zeroExtend 64) : ℤ)-evaluateEq f k.2 (x.zeroExtend 64) ≡
        (1 : BitVec 64).toNat [ZMOD f.prime] := evaluateEq_on (by omega) hp h (by rw [he])
    have hwrap := residue_sub hmod (evaluateEq_lt (by omega) _ _) (evaluateEq_lt (by omega) _ _) hon
    rw [if_pos he]
    exact hwrap.trans ⟨fun hne hz => hne hz.2,fun hn hz => hn ⟨he,hz⟩⟩
  · have hlow : (x.zeroExtend 64).toNat%2^f.numBits ≠ (r_cmpe.zeroExtend 64).toNat%2^f.numBits := by
      rw [hn, zeroExtend_low, zeroExtend_low]
      exact fun hx => he (BitVec.eq_of_toNat_eq hx)
    rw [if_neg he, evaluateEq_off (by omega) hlow, sub_self]
    exact iff_of_true rfl fun hz => he hz.1

lemma eqOff_exact (hp : 1 < f.prime) (hmod : ¬2^32 ∣ f.prime)
    (h : Invertible { f with numBits := 32 } (r_cmpe.zeroExtend 64) r lv) (rop : ℕ)
    (d0 d1 d2 : Word) (R A : Party → Word) :
    let d := eqOff f r_cmpe rop r lv d0 d1 d2
    openRep (equal d R A) = (if open4 R = open4 A then 1 else 0) ↔
      ¬(open4 R = open4 A ∧
        evaluateEq d.f d.k0 ((fourpcReveal (equal1 d R A false) player1).zeroExtend 64) = 0) := by
  intro d
  have hmask : open4 R-open4 A+d.r_cmpe = r_cmpe ↔ open4 R = open4 A := by
    show open4 R-open4 A+r_cmpe = r_cmpe ↔ _
    rw [add_eq_right, sub_eq_zero]
  have hwords := eqKeys_words (f := { f with numBits := 32 }) rfl hp hmod h rop
    (open4 R-open4 A+d.r_cmpe)
  rw [(equal_flags d R A).2, equal_opened]
  simp only [hmask] at hwords
  exact hwords

/-- Over a prime the keys have no point at all when the difference cannot be inverted. -/
lemma evaluateEq_degenerate (hn : 0 < f.numBits) (hp : f.prime.Prime) {a b : BitVec 64}
    (h : ¬Invertible f a r lv) (rop : ℕ) (x : BitVec 64) :
    evaluateEq f (generateTreeEq f a b rop r lv).1 x =
      evaluateEq f (generateTreeEq f a b rop r lv).2 x := by
  by_cases he : x.toNat%2^f.numBits = a.toNat%2^f.numBits
  · obtain ⟨h0, h1⟩ := @evaluateEq_path f a b rop r lv hn x he
    have hgcd : Int.gcd (leafDiff f a r lv) f.prime = f.prime :=
      (hp.eq_one_or_self_of_dvd _ (Int.natCast_dvd_natCast.mp (Int.gcd_dvd_right ..))).resolve_left h
    have hdvd : (f.prime : ℤ) ∣ leafDiff f a r lv := by
      rw [← hgcd]
      exact Int.gcd_dvd_left ..
    rw [h0, h1]
    have hmod := Int.natCast_modEq_iff.mp ((Int.modEq_iff_dvd.mpr hdvd).symm)
    exact hmod.mul_right _
  · exact evaluateEq_off hn he

/-- Over a prime the flag is right unless the operands are equal, and then exactly with keys that
have a point and do not wrap around. -/
lemma eqOff_right (hp : f.prime.Prime) (hlarge : 2^32 < f.prime) (rop : ℕ) (d0 d1 d2 : Word)
    (R A : Party → Word) :
    let d := eqOff f r_cmpe rop r lv d0 d1 d2
    openRep (equal d R A) = (if open4 R = open4 A then 1 else 0) ↔
      (open4 R = open4 A → Invertible d.f (r_cmpe.zeroExtend 64) r lv ∧
        evaluateEq d.f d.k0 (r_cmpe.zeroExtend 64) ≠ 0) := by
  intro d
  by_cases hinv : Invertible d.f (r_cmpe.zeroExtend 64) r lv
  · have hmod : ¬2^32 ∣ f.prime := fun hdvd => by
      have h2 := (Nat.prime_dvd_prime_iff_eq Nat.prime_two hp).mp
        ((dvd_pow_self 2 (by norm_num : 32 ≠ 0)).trans hdvd)
      omega
    have hx : open4 R = open4 A → fourpcReveal (equal1 d R A false) player1 = r_cmpe := by
      intro he
      rw [equal_opened, he, sub_self, zero_add]
      rfl
    refine (eqOff_exact (by omega) hmod hinv rop d0 d1 d2 R A).trans ⟨fun h he => ?_,?_⟩
    · refine ⟨hinv,fun hz => h ⟨he,?_⟩⟩
      rw [hx he]
      exact hz
    · rintro h ⟨he, hz⟩
      rw [hx he] at hz
      exact (h he).2 hz
  · have hzero : openRep (equal d R A) = 0 := by
      rw [(equal_flags d R A).2, evalEqKey, evalEqKey]
      exact sub_eq_zero.mpr (congrArg (BitVec.ofNat 32)
        (evaluateEq_degenerate (f := d.f) (by norm_num [d, eqOff]) hp hinv rop _))
    rw [hzero]
    by_cases he : open4 R = open4 A
    · rw [if_pos he]
      exact iff_of_false (by decide) fun h => hinv (h he).1
    · rw [if_neg he]
      exact iff_of_true rfl fun h => absurd h he

end eqOff

/-- The keys of `generateTreeEq` agree off `a` and differ by `b` at `a`. With them `equal` and its
three rounds decide equality, except that equal operands give a wrong flag when the value of
`player1` is 0. -/
theorem equal_exact (prg : ℕ → Block → Block) {p : ℕ} (hp : 2^32 < p) :
    (∀ n a b rop r lv, 1 ≤ n → Invertible ⟨prg,n,p⟩ a r lv →
      let f : Fss := ⟨prg,n,p⟩
      let k := generateTreeEq f a b rop r lv
      ∀ x : BitVec 64, (x.toNat%2^n ≠ a.toNat%2^n → evaluateEq f k.1 x = evaluateEq f k.2 x) ∧
        (x.toNat%2^n = a.toNat%2^n →
          (evaluateEq f k.1 x : ℤ)-evaluateEq f k.2 x ≡ b.toNat [ZMOD p])) ∧
    (¬2^32 ∣ p → ∀ r_cmpe rop r lv d0 d1 d2,
      Invertible ⟨prg,32,p⟩ (BitVec.zeroExtend 64 r_cmpe) r lv →
      let d := eqOff ⟨prg,32,p⟩ r_cmpe rop r lv d0 d1 d2
      ∀ R A flags : Party → Word, equalRounds d R A flags = equal d R A ∧
        Replicated (equal d R A) ∧
        (openRep (equal d R A) = (if open4 R = open4 A then 1 else 0) ↔
          ¬(open4 R = open4 A ∧ evaluateEq d.f d.k0
            ((fourpcReveal (equal1 d R A false) player1).zeroExtend 64) = 0))) := by
  constructor
  · intro n a b rop r lv hn hinv f k x
    exact ⟨evaluateEq_off (f := f) hn,evaluateEq_on (f := f) hn (by show 1 < p; omega) hinv⟩
  · intro hmod r_cmpe rop r lv d0 d1 d2 hinv d R A flags
    exact ⟨equalRounds_eq d R A flags,⟨rfl,rfl⟩,
      eqOff_exact (f := ⟨prg,32,p⟩) (by show 1 < p; omega) hmod hinv rop d0 d1 d2 R A⟩

/-- With these draws the value of `player1` at the mask 0 is 1. -/
lemma tail_value : evaluateEq ⟨tailPrg,32,2^32+15⟩ (tailKey 32 (2^32+15) 0 1) 0 = 1 := by
  have hbits : pathBits 32 (0 : BitVec 64) = fun _ => false := funext (pathBits_zero 32)
  have hpath := nodeAt_path tailPrg (fun _ => false) tailRoot tailLevel 31 false
  rw [evaluateEq_eq, tailKey_w _ _ _ _ (by norm_num), hbits, tailKey_tree]
  simp only [Nat.reduceSub, hpath, tail_path, Bool.false_eq_true, if_false]
  decide

lemma tail_invertible : Invertible ⟨tailPrg,32,2^32+15⟩ 0 tailRoot tailLevel := by
  have hbits : pathBits 32 (0 : BitVec 64) = fun _ => false := funext (pathBits_zero 32)
  simp only [Invertible, leafDiff, hbits, tail_path]
  decide

/-- Equal and different operands with these draws. -/
theorem equal_exact_tail :
    let f : Fss := ⟨tailPrg,32,2^32+15⟩
    let d := eqOff f 0 0 tailRoot tailLevel 1 2 3
    evaluateEq f d.k0 7 = evaluateEq f d.k1 7 ∧
      openRep (equal d (fun _ => 5) fun _ => 5) = 1 ∧
      openRep (equal d (fun _ => 5) fun _ => 6) = 0 := by
  intro f d
  obtain ⟨hkeys, hequal⟩ := equal_exact tailPrg (p := 2^32+15) (by norm_num)
  have hflags := hequal (by decide) 0 0 tailRoot tailLevel 1 2 3 tail_invertible
  refine ⟨(hkeys 32 0 1 0 tailRoot tailLevel (by norm_num) tail_invertible 7).1 (by decide),?_,?_⟩
  · refine (hflags (fun _ => 5) (fun _ => 5) fun _ => 0).2.2.mpr fun hz => ?_
    have hr : d.r_cmpe.zeroExtend 64 = 0 := by decide
    have hk : d.k0 = tailKey 32 (2^32+15) 0 1 := by
      simp only [d, eqOff, tailKey, BitVec.zeroExtend]
      rfl
    rw [equal_opened, sub_self, zero_add, hr, hk] at hz
    exact absurd (tail_value.symm.trans hz.2) one_ne_zero
  · exact (hflags (fun _ => 5) (fun _ => 6) fun _ => 0).2.2.mpr fun hz => absurd hz.1 (by decide)

end OramPro
