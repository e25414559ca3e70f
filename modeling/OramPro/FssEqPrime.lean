import OramPro.FssEq

/-!
# Point-function keys over a prime field

`generateTreeEq` scales the 34 bytes that the PRF yields at the last node, so that the two values
at `a` differ by `b` modulo the prime. The pointwise evaluator reads the same bytes; the full-domain
evaluator stops one PRF call earlier and reads the sixteen bytes of the node's seed.
-/
namespace OramPro

/-- `mpz_import` of the 34 bytes that `prf` yields for a seed. -/
def import34 (prg : ℕ → Block → Block) (s : Block) : ℕ :=
  (import16 (prfSeed prg s false)*2^128+import16 (prfSeed prg s true))*2^16
    +((prfBit prg s false).toNat*256+(prfBit prg s true).toNat)

/-- `mpz_invert`, with `rop` for what it leaves where there is no inverse. -/
def mpzInvert (rop : ℕ) (a : ℤ) (p : ℕ) : ℕ :=
  if Int.gcd a p = 1 then (Int.gcdA a p%p).toNat else rop

/-- The difference of the two numbers at the last node of the path. -/
def leafDiff (f : Fss) (a_i : BitVec 64) (r : RootDraw) (lv : ℕ → LevelDraw) : ℤ :=
  let st := path f.prg (pathBits f.numBits a_i) r lv (f.numBits-1)
  (import34 f.prg st.key0 : ℤ)-import34 f.prg st.key1

def generateTreeEq (f : Fss) (a_i b_i : BitVec 64) (rop : ℕ) (r : RootDraw)
    (lv : ℕ → LevelDraw) : ServerKeyEq × ServerKeyEq :=
  let bits := pathBits f.numBits a_i
  let diff := leafDiff f a_i r lv
  let w := if diff ≠ 0 then mpzInvert rop diff f.prime*b_i.toNat%f.prime else 0
  (⟨treeKey f.prg bits r lv false,w⟩,⟨treeKey f.prg bits r lv true,w⟩)

/-- The difference of the two numbers is invertible modulo the prime. -/
def Invertible (f : Fss) (a_i : BitVec 64) (r : RootDraw) (lv : ℕ → LevelDraw) : Prop :=
  Int.gcd (leafDiff f a_i r lv) f.prime = 1

lemma evaluateEq_eq (f : Fss) (k : ServerKeyEq) (x : BitVec 64) :
    evaluateEq f k x = import34 f.prg (nodeAt f.prg k.toTreeKey (f.numBits-1)
      (prefixOf (pathBits f.numBits x) (f.numBits-1))).1*k.w%f.prime := by
  rw [← walk_eq_nodeAt]
  rfl

lemma mpzInvert_mul (rop : ℕ) {a : ℤ} {p : ℕ} (hp : 0 < p) (h : Int.gcd a p = 1) :
    (mpzInvert rop a p : ℤ)*a ≡ 1 [ZMOD p] := by
  have hbez := Int.gcd_eq_gcd_ab a p
  have hnn : 0 ≤ Int.gcdA a p%p := Int.emod_nonneg _ (by omega)
  rw [mpzInvert, if_pos h, Int.toNat_of_nonneg hnn]
  have h1 : Int.gcdA a p%p*a ≡ Int.gcdA a p*a [ZMOD p] := (Int.mod_modEq _ _).mul_right a
  refine h1.trans ?_
  rw [h, Nat.cast_one] at hbez
  rw [Int.modEq_iff_dvd]
  exact ⟨Int.gcdB a p,by linear_combination hbez⟩

/-! ## The low bits name the leaf -/

lemma prefixOf_div {bits : ℕ → Bool} {d c : ℕ} : prefixOf bits (d+c)/2^c = prefixOf bits d := by
  induction c with
  | zero => simp
  | succ c ih => rw [← add_assoc, pow_succ', ← Nat.div_div_eq_div_mul, prefixOf_succ_div, ih]

lemma prefixOf_eq_iff {n : ℕ} (hn : 0 < n) (a x : BitVec 64) :
    prefixOf (pathBits n x) (n-1) = prefixOf (pathBits n a) (n-1) ↔
      x.toNat%2^n = a.toNat%2^n := by
  by_cases h64 : n ≤ 64
  · rw [prefixOf_leaf hn h64, prefixOf_leaf hn h64]
  · -- all 64 bits are on the path, and the positions after them repeat the last one
    have hbits : ∀ z : BitVec 64, pathBits n z = pathBits 64 z := fun z => by
      funext i
      rw [pathBits, pathBits, show 64-n = 64-64 by omega]
    have hlow : ∀ z : BitVec 64, z.toNat%2^n = z.toNat := fun z =>
      Nat.mod_eq_of_lt (z.isLt.trans_le (Nat.pow_le_pow_right (by norm_num) (by omega)))
    have h63 : ∀ z : BitVec 64, prefixOf (pathBits 64 z) 63 = z.toNat := fun z => by
      rw [show 63 = 64-1 by rfl, prefixOf_leaf (by norm_num) le_rfl, Nat.mod_eq_of_lt z.isLt]
    rw [hbits, hbits, hlow, hlow]
    constructor
    · intro h
      have hdiv := congrArg (· / 2^(n-64)) h
      simp only [show n-1 = 63+(n-64) by omega, prefixOf_div, h63] at hdiv
      exact hdiv
    · intro h
      rw [BitVec.eq_of_toNat_eq h]

/-! ## The two values differ at one point -/

section keys
variable {f : Fss} {a b : BitVec 64} {rop : ℕ} {r : RootDraw} {lv : ℕ → LevelDraw}

lemma evaluateEq_off (hn : 0 < f.numBits) {x : BitVec 64}
    (hne : x.toNat%2^f.numBits ≠ a.toNat%2^f.numBits) :
    evaluateEq f (generateTreeEq f a b rop r lv).1 x =
      evaluateEq f (generateTreeEq f a b rop r lv).2 x := by
  have hp : prefixOf (pathBits f.numBits x) (f.numBits-1) ≠
      prefixOf (pathBits f.numBits a) (f.numBits-1) := fun h => hne ((prefixOf_eq_iff hn a x).mp h)
  rw [evaluateEq_eq, evaluateEq_eq]
  simp only [generateTreeEq]
  rw [nodeAt_off_path f.prg _ r lv (prefixOf_lt _) hp]

/-- At its point both keys have the number of the last node of the path. -/
lemma evaluateEq_path (hn : 0 < f.numBits) {x : BitVec 64}
    (he : x.toNat%2^f.numBits = a.toNat%2^f.numBits) :
    let st := path f.prg (pathBits f.numBits a) r lv (f.numBits-1)
    let w := (generateTreeEq f a b rop r lv).1.w
    evaluateEq f (generateTreeEq f a b rop r lv).1 x = import34 f.prg st.key0*w%f.prime ∧
      evaluateEq f (generateTreeEq f a b rop r lv).2 x = import34 f.prg st.key1*w%f.prime := by
  have hp := (prefixOf_eq_iff hn a x).mpr he
  have e0 : (generateTreeEq f a b rop r lv).1.toTreeKey =
      treeKey f.prg (pathBits f.numBits a) r lv false := rfl
  have e1 : (generateTreeEq f a b rop r lv).2.toTreeKey =
      treeKey f.prg (pathBits f.numBits a) r lv true := rfl
  rw [evaluateEq_eq, evaluateEq_eq, hp, e0, e1, nodeAt_path, nodeAt_path]
  exact ⟨rfl,rfl⟩

lemma evaluateEq_on (hn : 0 < f.numBits) (hprime : 1 < f.prime) (h : Invertible f a r lv)
    {x : BitVec 64} (he : x.toNat%2^f.numBits = a.toNat%2^f.numBits) :
    (evaluateEq f (generateTreeEq f a b rop r lv).1 x : ℤ)
      -evaluateEq f (generateTreeEq f a b rop r lv).2 x ≡ b.toNat [ZMOD f.prime] := by
  obtain ⟨h0, h1⟩ := @evaluateEq_path f a b rop r lv hn x he
  have hd : leafDiff f a r lv ≠ 0 := by
    intro h0
    rw [Invertible, h0, Int.gcd_zero_left, Int.natAbs_natCast] at h
    omega
  have hw : (generateTreeEq f a b rop r lv).1.w =
      mpzInvert rop (leafDiff f a r lv) f.prime*b.toNat%f.prime := if_pos hd
  rw [h0, h1, hw]
  have hinv := mpzInvert_mul rop (by omega) h
  have hdiff : leafDiff f a r lv =
      (import34 f.prg (path f.prg (pathBits f.numBits a) r lv (f.numBits-1)).key0 : ℤ)
        -import34 f.prg (path f.prg (pathBits f.numBits a) r lv (f.numBits-1)).key1 := rfl
  generalize mpzInvert rop (leafDiff f a r lv) f.prime = i at hinv ⊢
  generalize import34 f.prg (path f.prg (pathBits f.numBits a) r lv (f.numBits-1)).key0 = s0 at hdiff ⊢
  generalize import34 f.prg (path f.prg (pathBits f.numBits a) r lv (f.numBits-1)).key1 = s1 at hdiff ⊢
  have hred : ∀ s : ℕ, ((s*(i*b.toNat%f.prime)%f.prime : ℕ) : ℤ) ≡ s*(i*b.toNat) [ZMOD f.prime] := by
    intro s
    push_cast
    exact (Int.mod_modEq _ _).trans ((Int.mod_modEq _ _).mul_left _)
  refine ((hred s0).sub (hred s1)).trans ?_
  have hring : (s0 : ℤ)*(i*b.toNat)-s1*(i*b.toNat) = i*leafDiff f a r lv*b.toNat := by
    rw [hdiff]
    ring
  rw [hring]
  simpa using hinv.mul_right (b.toNat : ℤ)

end keys

/-! ## The full-domain evaluator stops one level early -/

/-- The full-domain list has the pointwise values. -/
def FullAgrees (f : Fss) (k : ServerKeyEq) (lens : ℕ) : Prop :=
  ∀ x < lens, (evaluateEqMpz f k lens)[x]? = some (evaluateEq f k (BitVec.ofNat 64 x))

section full
variable {f : Fss} {k : ServerKeyEq} {lens : ℕ}

lemma evaluateEqMpz_ring (hn : 2 ≤ f.numBits) (h32 : f.numBits ≤ 32) (hpos : 0 < lens)
    (hl : lens ≤ 2^f.numBits) : evaluateEqMpz f k lens =
      (List.range lens).map fun x => import16 (ringLeaf f k Prod.fst x)*k.w%f.prime :=
  evaluateEqScan_ring hn h32 hpos hl

lemma evaluateEq_leaf (hn : 0 < f.numBits) (h64 : f.numBits ≤ 64) {x : ℕ} (hx : x < 2^f.numBits) :
    evaluateEq f k (BitVec.ofNat 64 x) =
      import34 f.prg (nodeAt f.prg k.toTreeKey (f.numBits-1) x).1*k.w%f.prime := by
  have h : x < 2^64 := hx.trans_le (Nat.pow_le_pow_right (by norm_num) h64)
  rw [evaluateEq_eq, prefixOf_leaf hn h64, BitVec.toNat_ofNat, Nat.mod_eq_of_lt h,
    Nat.mod_eq_of_lt hx]

/-- For one key, the lists agree where the seed of the leaf and its expansion have the same
multiple of `w`. -/
lemma fullAgrees_key (hn : 2 ≤ f.numBits) (h32 : f.numBits ≤ 32) (hl : lens ≤ 2^f.numBits) :
    FullAgrees f k lens ↔ ∀ x < lens, import16 (ringLeaf f k Prod.fst x)*k.w ≡
      import34 f.prg (nodeAt f.prg k.toTreeKey (f.numBits-1) x).1*k.w [MOD f.prime] := by
  refine forall₂_congr fun x hx => ?_
  rw [evaluateEqMpz_ring hn h32 (by omega) hl, evaluateEq_leaf (by omega) (by omega) (by omega)]
  simp [hx, Nat.ModEq]

lemma not_fullAgrees_deep (h33 : 33 ≤ f.numBits) (hpos : 0 < lens) : ¬FullAgrees f k lens := by
  intro h
  have h0 := h 0 hpos
  rw [evaluateEqMpz, evaluateEqScan_deep h33] at h0
  simp at h0

end full

/-- A compression that is zero except for the control byte of the right child of seed 0. -/
def tailPrg (i : ℕ) (k : Block) : Block := if i = 2 ∧ k = 0 then 256 else 0

def tailRoot : RootDraw := ⟨0,1,0,0,0⟩

def tailLevel (_ : ℕ) : LevelDraw := ⟨0,1,0,0,0⟩

@[simp] lemma tail_prfSeed (s : Block) (b : Bool) : prfSeed tailPrg s b = 0 := by
  cases b <;> simp [prfSeed, tailPrg]

lemma tail_prfBit_left (s : Block) : prfBit tailPrg s false = false := by
  by_cases h : s = 0
  · rw [h]; decide
  · have hz : tailPrg 2 s = 0 := if_neg fun hs => h hs.2
    simp [prfBit, prfByte, hz, byteAt]

/-- On the path of 0 the draws put the two seeds back at every level. -/
lemma tail_path_of (u v : Block) (d : ℕ) :
    path tailPrg (fun _ => false) ⟨u,v,0,0,0⟩ (fun _ => ⟨u,v,0,0,0⟩) d = ⟨u,v,false,true⟩ := by
  induction d with
  | zero => simp [path, rootPath]
  | succ d ih =>
    rw [path, ih]
    simp [nextPath, child, levelCw, tail_prfBit_left]

lemma tail_path (d : ℕ) :
    path tailPrg (fun _ => false) tailRoot tailLevel d = ⟨0,1,false,true⟩ := tail_path_of 0 1 d

section tail
variable (n p rop : ℕ) (b : BitVec 64)

def tailKey : ServerKeyEq := (generateTreeEq ⟨tailPrg,n,p⟩ 0 b rop tailRoot tailLevel).1

lemma tailKey_tree :
    (tailKey n p rop b).toTreeKey = treeKey tailPrg (fun _ => false) tailRoot tailLevel false := by
  have hbits : pathBits n (0 : BitVec 64) = fun _ => false := funext (pathBits_zero n)
  simp only [tailKey, generateTreeEq, hbits]

lemma tailKey_w (hp : 0 < p) : (tailKey n p rop b).w = b.toNat%p := by
  have hbits : pathBits n (0 : BitVec 64) = fun _ => false := funext (pathBits_zero n)
  have hdiff : leafDiff ⟨tailPrg,n,p⟩ 0 tailRoot tailLevel = 1 := by
    simp only [leafDiff, hbits, tail_path]
    decide
  have hinv : mpzInvert rop 1 p*b.toNat ≡ b.toNat [MOD p] := by
    have h := mpzInvert_mul rop hp (a := 1) (by simp)
    have h' : mpzInvert rop 1 p ≡ 1 [MOD p] := by
      apply Int.natCast_modEq_iff.mp
      simpa using h
    simpa using h'.mul_right b.toNat
  simp only [tailKey, generateTreeEq, hdiff, ne_eq, one_ne_zero, not_false_eq_true, if_true]
  exact hinv

/-- A left child of a node without control bit has seed 0 and no control bit. -/
lemma tail_child (d : ℕ) (s : Block) :
    child tailPrg (fun t => (tailKey n p rop b).cw t d) (s,false) false = (0,false) := by
  have hcw : (fun t => (tailKey n p rop b).cw t d) =
      levelCw tailPrg false (tailLevel d) ⟨0,1,false,true⟩ := by
    funext t
    simp only [tailKey_tree, treeKey, pathCw, tail_path]
  rw [hcw]
  simp [child, levelCw, tailLevel, pick, tail_prfBit_left]

lemma tail_bit {i : ℕ} (hi : 1 ≤ i) :
    (ringNode tailPrg (tailKey n p rop b).toTreeKey (2^i-2)).2 = false := by
  induction i, hi using Nat.le_induction with
  | base =>
    rw [ringNode, dif_pos (by norm_num), tailKey_tree]
    simp [treeKey, tailRoot, pick]
  | succ i hi ih =>
    obtain ⟨d, rfl⟩ : ∃ d, i = d+1 := ⟨i-1,by omega⟩
    have h2 : 2 ≤ 2^(d+1) := by simpa using Nat.pow_le_pow_right (n := 2) (by norm_num) hi
    have hk := (ringNode_kids tailPrg (tailKey n p rop b).toTreeKey (p := 0) (d := d) (by omega)).1
    simp only [Nat.add_zero, HeapRing.readAt, ih, tail_child] at hk
    rw [show 2^(d+1+1)-2 = 2*(2^(d+1)-2)+2 by rw [pow_succ 2 (d+1)]; omega, hk]

/-- The first leaf: the full-domain evaluator stores 0, the pointwise value is `b`. -/
lemma tail_agrees {lens : ℕ} (hn : 2 ≤ n) (h32 : n ≤ 32) (hp : 0 < p) (hpos : 0 < lens)
    (hl : lens ≤ 2^n) (h : FullAgrees ⟨tailPrg,n,p⟩ (tailKey n p rop b) lens) : p ∣ b.toNat := by
  have h0 := (fullAgrees_key (f := ⟨tailPrg,n,p⟩) hn h32 hl).mp h 0 hpos
  have hleaf : ringLeaf ⟨tailPrg,n,p⟩ (tailKey n p rop b) Prod.fst 0 = 0 := by
    have hbit := tail_bit n p rop b (i := n-1) (by omega)
    simp only [ringLeaf, HeapRing.readAt, Nat.zero_div, Nat.add_zero, hbit]
    exact congrArg Prod.fst (tail_child n p rop b _ _)
  have hpath := nodeAt_path tailPrg (fun _ => false) tailRoot tailLevel (n-1) false
  have hzero : ∀ d, prefixOf (fun _ => false) d = 0 := by
    intro d
    induction d with
    | zero => rfl
    | succ d ih => simp [prefixOf, ih]
  rw [hzero, tail_path] at hpath
  simp only [hleaf, tailKey_tree, hpath, tailKey_w n p rop b hp, Bool.false_eq_true, if_false] at h0
  have e16 : import16 0 = 0 := by decide
  have e34 : import34 tailPrg 0 = 1 := by decide
  rw [e16, e34, Nat.zero_mul, Nat.one_mul, Nat.ModEq, Nat.zero_mod, Nat.mod_mod] at h0
  exact Nat.dvd_of_mod_eq_zero h0.symm

end tail

lemma generateTreeEq_w_zero {f : Fss} {a b : BitVec 64} {rop : ℕ} {r : RootDraw} {lv : ℕ → LevelDraw}
    (h : f.prime ∣ b.toNat) : (generateTreeEq f a b rop r lv).1.w = 0 ∧
      (generateTreeEq f a b rop r lv).2.w = 0 := by
  have hmod := Nat.mod_eq_zero_of_dvd (h.mul_left (mpzInvert rop (leafDiff f a r lv) f.prime))
  simp only [generateTreeEq, hmod, ite_self, and_self]

/-- Two levels and the value 1: the full-domain list starts with 0, the pointwise value is 1. -/
theorem fullDomain_two_wrong :
    ¬FullAgrees ⟨tailPrg,2,2^32+15⟩ (generateTreeEq ⟨tailPrg,2,2^32+15⟩ 0 1 0 tailRoot tailLevel).1 4 := by
  intro h
  have hdvd := tail_agrees 2 (2^32+15) 0 1 le_rfl (by norm_num) (by norm_num) (by norm_num)
    (by norm_num) h
  revert hdvd
  decide

/-- For one key the lists agree exactly where the two numbers have the same multiple of `w`. All
keys for a value `b` agree exactly when `b` vanishes modulo the prime. -/
theorem fullDomain_agrees_iff {n p lens : ℕ} (hn : 2 ≤ n) (hp : 0 < p) (hl : lens ≤ 2^n) :
    (∀ prg (k : ServerKeyEq), FullAgrees ⟨prg,n,p⟩ k lens ↔ lens = 0 ∨ n ≤ 32 ∧ ∀ x < lens,
      import16 (ringLeaf ⟨prg,n,p⟩ k Prod.fst x)*k.w ≡
        import34 prg (nodeAt prg k.toTreeKey (n-1) x).1*k.w [MOD p]) ∧
    ∀ b : BitVec 64, (∀ prg a rop r lv,
      let k := generateTreeEq ⟨prg,n,p⟩ a b rop r lv
      FullAgrees ⟨prg,n,p⟩ k.1 lens ∧ FullAgrees ⟨prg,n,p⟩ k.2 lens) ↔
        lens = 0 ∨ n ≤ 32 ∧ p ∣ b.toNat := by
  have hkey : ∀ prg (k : ServerKeyEq), FullAgrees ⟨prg,n,p⟩ k lens ↔ lens = 0 ∨ n ≤ 32 ∧
      ∀ x < lens, import16 (ringLeaf ⟨prg,n,p⟩ k Prod.fst x)*k.w ≡
        import34 prg (nodeAt prg k.toTreeKey (n-1) x).1*k.w [MOD p] := by
    intro prg k
    rcases Nat.eq_zero_or_pos lens with rfl | hpos
    · exact iff_of_true (fun x hx => absurd hx (Nat.not_lt_zero x)) (.inl rfl)
    · by_cases h32 : n ≤ 32
      · rw [fullAgrees_key (f := ⟨prg,n,p⟩) hn h32 hl]
        exact ⟨fun h => .inr ⟨h32,h⟩,fun h => (h.resolve_left hpos.ne').2⟩
      · exact iff_of_false (not_fullAgrees_deep (f := ⟨prg,n,p⟩) (by simp only; omega) hpos)
          fun h => h32 (h.resolve_left hpos.ne').1
  refine ⟨hkey,fun b => ⟨fun h => ?_,fun h prg a rop r lv => ?_⟩⟩
  · rcases Nat.eq_zero_or_pos lens with hz | hpos
    · exact .inl hz
    · have h32 : n ≤ 32 := by
        have h0 := (hkey _ _).mp (h tailPrg 0 0 tailRoot tailLevel).1
        exact (h0.resolve_left hpos.ne').1
      exact .inr ⟨h32,tail_agrees n p 0 b hn h32 hp hpos hl (h tailPrg 0 0 tailRoot tailLevel).1⟩
  · have hzero : ∀ k : ServerKeyEq, (lens = 0 ∨ n ≤ 32 ∧ k.w = 0) → FullAgrees ⟨prg,n,p⟩ k lens := by
      intro k hk
      refine (hkey prg k).mpr (hk.imp_right fun hw => ⟨hw.1,fun x _ => ?_⟩)
      rw [hw.2, Nat.mul_zero, Nat.mul_zero]
    constructor
    · exact hzero _ (h.imp_right fun hb => ⟨hb.1,(generateTreeEq_w_zero (f := ⟨prg,n,p⟩) hb.2).1⟩)
    · exact hzero _ (h.imp_right fun hb => ⟨hb.1,(generateTreeEq_w_zero (f := ⟨prg,n,p⟩) hb.2).2⟩)

/-- With the value 0 all keys of three levels agree, with the value 1 some do not. -/
theorem fullDomain_agrees_three :
    (∀ prg a rop r lv,
      let k := generateTreeEq ⟨prg,3,2^32+15⟩ a 0 rop r lv
      FullAgrees ⟨prg,3,2^32+15⟩ k.1 8 ∧ FullAgrees ⟨prg,3,2^32+15⟩ k.2 8) ∧
    ¬∀ prg a rop r lv,
      let k := generateTreeEq ⟨prg,3,2^32+15⟩ a 1 rop r lv
      FullAgrees ⟨prg,3,2^32+15⟩ k.1 8 ∧ FullAgrees ⟨prg,3,2^32+15⟩ k.2 8 := by
  obtain ⟨-, h⟩ := fullDomain_agrees_iff (n := 3) (p := 2^32+15) (by norm_num)
    (by norm_num) (by norm_num : 8 ≤ 2^3)
  refine ⟨(h 0).mpr (.inr ⟨by norm_num,by simp⟩),fun h1 => ?_⟩
  have hdvd := ((h 1).mp h1).resolve_left (by norm_num)
  revert hdvd
  decide

end OramPro
