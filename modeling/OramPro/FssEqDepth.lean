import OramPro.FssEq

/-!
# How deep a point-function tree may be

Up to 29 levels fit in the slots that the 32-bit offsets of the evaluator address. From 30 levels
on, the parent of the first leaf is overwritten before the last level reads it. The key pair below
shows this: only the seed on the path at depth `n-2` differs from what the generator yields for
every other node, and it is lost.
-/
namespace OramPro

open HeapRing

/-- A compression that singles out the block 1, with zero control bytes. -/
def spotPrg (i : ℕ) (k : Block) : Block := if i < 2 ∧ k = 1 then 2 else 0

def spotRoot : RootDraw := ⟨0,0,0,0,0⟩

/-- The draws put the block 1 on the second party's path at depth `n-2`. -/
def spotLevel (n d : ℕ) : LevelDraw := ⟨0,if d+3 = n then 1 else 0,0,0,0⟩

def spotAccess (n : ℕ) : Fss := ⟨spotPrg,n,0⟩

def spotKey (n : ℕ) (party : Bool) : TreeKey :=
  treeKey spotPrg (fun _ => false) spotRoot (spotLevel n) party

@[simp] lemma spot_prfSeed (s : Block) (b : Bool) :
    prfSeed spotPrg s b = if s = 1 then 2 else 0 := by
  cases b <;> simp [prfSeed, spotPrg]

@[simp] lemma spot_prfBit (s : Block) (b : Bool) : prfBit spotPrg s b = false := by
  cases b <;> simp [prfBit, prfByte, spotPrg, byteAt]

/-- The seed of the second party on the path. -/
def spotSeed (n d : ℕ) : Block := if d+2 = n then 1 else if d+1 = n then 2 else 0

lemma spot_path {n : ℕ} (hn : 3 ≤ n) (d : ℕ) :
    path spotPrg (fun _ => false) spotRoot (spotLevel n) d = ⟨0,spotSeed n d,false,true⟩ := by
  induction d with
  | zero =>
    have h1 : ¬0+2 = n := by omega
    have h2 : ¬0+1 = n := by omega
    simp only [path, rootPath, spotRoot, spotSeed, if_neg h1, if_neg h2]
    rfl
  | succ d ih =>
    have hcs : (if spotSeed n d = 1 then 2 else 0 : Block) ^^^ (if d+3 = n then 1 else 0) =
        spotSeed n (d+1) := by
      unfold spotSeed
      by_cases h2 : d+2 = n
      · rw [if_pos h2, if_pos rfl, if_neg (by omega), if_neg (by omega), if_pos (by omega)]
        rfl
      · rw [if_neg h2, if_neg (by split <;> decide), if_neg (show ¬d+1+1 = n by omega)]
        split <;> simp
    rw [path, ih]
    simpa [nextPath, child, levelCw, spotLevel] using hcs

section node
variable {n : ℕ}

lemma spotKey_cw (hn : 3 ≤ n) (party : Bool) (d : ℕ) : (fun t => (spotKey n party).cw t d) =
    levelCw spotPrg false (spotLevel n d) ⟨0,spotSeed n d,false,true⟩ := by
  funext t
  simp only [spotKey, treeKey, pathCw, spot_path hn]

/-- Below a node with control bit 0 both children have the plain output as their seed. -/
lemma spot_child_off (hn : 3 ≤ n) (party : Bool) (d : ℕ) (s : Block) (b : Bool) :
    child spotPrg (fun t => (spotKey n party).cw t d) (s,false) b =
      (if s = 1 then 2 else 0,false) := by
  rw [spotKey_cw hn]
  cases b <;> simp [child, levelCw, spotLevel, pick]

lemma spot_child_left (hn : 3 ≤ n) (party : Bool) (d : ℕ) (s : Block) :
    child spotPrg (fun t => (spotKey n party).cw t d) (s,true) false =
      ((if s = 1 then 2 else 0) ^^^ if d+3 = n then 1 else 0,true) := by
  rw [spotKey_cw hn]
  simp [child, levelCw, spotLevel, pick]

lemma spot_child_right (hn : 3 ≤ n) (party : Bool) {d : ℕ} (hd : d+3 ≤ n) (s : Block) :
    child spotPrg (fun t => (spotKey n party).cw t d) (s,true) true =
      (if s = 1 then 2 else 0,false) := by
  have h1 : spotSeed n d ≠ 1 := by
    unfold spotSeed
    rw [if_neg (by omega), if_neg (by omega)]
    decide
  rw [spotKey_cw hn]
  simpa [child, levelCw, spotLevel, pick] using h1

def spotNode (n : ℕ) (party : Bool) (m : ℕ) : Block × Bool := ringNode spotPrg (spotKey n party) m

lemma spotNode_root (party : Bool) {m : ℕ} (hm : m < 2) :
    spotNode n party m = (0,party && m == 0) := by
  rw [spotNode, ringNode, dif_pos hm]
  obtain rfl | rfl : m = 0 ∨ m = 1 := by omega
  · cases party <;> simp [spotKey, treeKey, spotRoot, pick]
  · cases party <;> simp [spotKey, treeKey, spotRoot, pick]

/-- A node below the roots, as a child of what is read for its parent. -/
lemma spotNode_kid (party : Bool) {d p : ℕ} (hp : p < 2^(d+1)) (b : Bool) :
    spotNode n party (2*(2^(d+1)-2+p)+2+b.toNat) =
      child spotPrg (fun t => (spotKey n party).cw t d)
        ((spotNode n party (source arraySlots (2*(2^(d+1)-2+p)+2) (2^(d+1)-2+p))).1,
          (spotNode n party (2^(d+1)-2+p)).2) b := by
  obtain ⟨h0, h1⟩ := ringNode_kids spotPrg (spotKey n party) hp
  cases b
  · exact h0
  · exact h1

lemma exists_kid {m : ℕ} (hm : 2 ≤ m) :
    ∃ d p b, p < 2^(d+1) ∧ m = 2*(2^(d+1)-2+p)+2+(b : Bool).toNat := by
  obtain ⟨d, p, hp, hq⟩ := exists_level (m/2-1)
  refine ⟨d,p,m%2 == 1,hp,?_⟩
  rw [← hq]
  rcases Nat.mod_two_eq_zero_or_one m with h | h
  · simp [h]; omega
  · simp [h]; omega

/-- Only the second party has set control bits, at the first node of each level. -/
lemma spotNode_bit (hn : 3 ≤ n) (party : Bool) (m : ℕ) (h : (spotNode n party m).2 = true) :
    party = true ∧ ∃ i, m+2 = 2^i := by
  induction m using Nat.strong_induction_on with
  | _ m ih =>
    by_cases hm : m < 2
    · rw [spotNode_root party hm, Bool.and_eq_true, beq_iff_eq] at h
      exact ⟨h.1,1,by omega⟩
    · obtain ⟨d, p, b, hp, rfl⟩ := exists_kid (Nat.le_of_not_lt hm)
      rw [spotNode_kid party hp] at h
      cases hb : (spotNode n party (2^(d+1)-2+p)).2 with
      | false => rw [hb, spot_child_off hn] at h; cases h
      | true =>
        obtain ⟨hparty, i, hi⟩ := ih (2^(d+1)-2+p) (by omega) hb
        cases b with
        | false =>
          refine ⟨hparty,i+1,?_⟩
          rw [pow_succ 2 i, ← hi]
          simp only [Bool.toNat_false]
          omega
        | true =>
          rw [hb, spotKey_cw hn] at h
          simp [child, levelCw, spotLevel, pick] at h

lemma spotNode_path (hn : 3 ≤ n) {i : ℕ} (hi : 1 ≤ i) : (spotNode n true (2^i-2)).2 = true := by
  induction i, hi using Nat.le_induction with
  | base => rw [spotNode_root true (by norm_num)]; rfl
  | succ i hi ih =>
    obtain ⟨d, rfl⟩ : ∃ d, i = d+1 := ⟨i-1,by omega⟩
    have h2 : 2 ≤ 2^(d+1) := by simpa using Nat.pow_le_pow_right (n := 2) (by norm_num) hi
    have hk := spotNode_kid (n := n) true (p := 0) (d := d) (by omega) false
    simp only [Nat.add_zero, ih, spot_child_left hn, Bool.toNat_false] at hk
    rw [show 2^(d+1+1)-2 = 2*(2^(d+1)-2)+2 by rw [pow_succ 2 (d+1)]; omega, hk]

/-- Up to depth `n-2` the block 1 stands only on the path, at that depth. -/
lemma spotNode_seed (hn : 3 ≤ n) (party : Bool) {m : ℕ} (hm : m < 2^n-2)
    (h : (spotNode n party m).1 = 1) : m+2 = 2^(n-1) := by
  have hplain : ∀ s : Block, (if s = 1 then 2 else 0 : Block) ≠ 1 := by
    intro s
    split <;> decide
  by_cases h2 : m < 2
  · rw [spotNode_root party h2] at h
    exact absurd (show (0 : Block) = 1 from h) (by decide)
  · obtain ⟨d, p, b, hp, rfl⟩ := exists_kid (Nat.le_of_not_lt h2)
    have hd : d+2 < n := by
      refine (Nat.pow_lt_pow_iff_right (a := 2) (by norm_num)).mp ?_
      rw [pow_succ 2 (d+1)]
      omega
    rw [spotNode_kid party hp] at h
    cases hb : (spotNode n party (2^(d+1)-2+p)).2 with
    | false =>
      rw [hb, spot_child_off hn] at h
      exact absurd h (hplain _)
    | true =>
      obtain ⟨-, i, hi⟩ := spotNode_bit hn party _ hb
      rw [hb] at h
      cases b with
      | true =>
        rw [spot_child_right hn party (by omega)] at h
        exact absurd h (hplain _)
      | false =>
        rw [spot_child_left hn] at h
        by_cases hlast : d+3 = n
        · have h2 : 2 ≤ 2^(d+1) := by
            simpa using Nat.pow_le_pow_right (n := 2) (by norm_num) (Nat.succ_pos d)
          have hlo : d+1 ≤ i := (Nat.pow_le_pow_iff_right (a := 2) (by norm_num)).mp (by omega)
          have hhi : i < d+2 := by
            refine (Nat.pow_lt_pow_iff_right (a := 2) (by norm_num)).mp ?_
            rw [pow_succ 2 (d+1)]
            omega
          obtain rfl : i = d+1 := by omega
          rw [← hlast, show d+3-1 = d+1+1 by omega, pow_succ 2 (d+1)]
          simp
          omega
        · rw [if_neg hlast] at h
          exact absurd (by simpa using h) (hplain _)

/-- The seeds of the first party are all zero. -/
lemma spotNode_first (hn : 3 ≤ n) (m : ℕ) : spotNode n false m = (0,false) := by
  have hbit : ∀ m, (spotNode n false m).2 = false := by
    intro m
    by_contra h
    have := (spotNode_bit hn false m (by simpa using h)).1
    cases this
  induction m using Nat.strong_induction_on with
  | _ m ih =>
    by_cases hm : m < 2
    · rw [spotNode_root false hm]; rfl
    · obtain ⟨d, p, b, hp, rfl⟩ := exists_kid (Nat.le_of_not_lt hm)
      have hsrc : source arraySlots (2*(2^(d+1)-2+p)+2) (2^(d+1)-2+p) < 2*(2^(d+1)-2+p)+2 :=
        source_lt (by omega)
      rw [spotNode_kid false hp, hbit, ih _ (hsrc.trans_le (Nat.le_add_right _ _)),
        spot_child_off hn]
      rfl

/-- The slot that the last level reads for the first leaf's parent holds the seed 0. -/
lemma spotNode_overwritten (h30 : 30 ≤ n) :
    (spotNode n true (source arraySlots (2^n-2) (2^(n-1)-2))).1 = 0 := by
  obtain ⟨c, rfl⟩ : ∃ c, n = c+30 := ⟨n-30,by omega⟩
  have hR := arraySlots_eq
  have hpos := Nat.two_pow_pos c
  have e27 : 2^(c+27) = 2^27*2^c := by rw [pow_add]; ring
  have e28 : 2^(c+28) = 2*2^(c+27) := by rw [pow_succ]; ring
  have e29 : 2^(c+30-1) = 4*2^(c+27) := by rw [show c+30-1 = c+27+2 by omega, pow_add]; ring
  have e30 : 2^(c+30) = 8*2^(c+27) := by rw [show c+30 = c+27+3 by omega, pow_add]; ring
  have hsrc : source arraySlots (2^(c+30)-2) (2^(c+30-1)-2) = 2^(c+30)-2-2^28 := by
    rw [source, hR, e29, e30, e27]
    omega
  obtain ⟨p, hp, hm⟩ : ∃ p, p < 2^(c+27+1) ∧ 2^(c+30)-2-2^28 = 2*(2^(c+27+1)-2+p)+2 := by
    refine ⟨2^(c+28)-2^27,?_,?_⟩
    · rw [show c+27+1 = c+28 by omega]; omega
    · rw [show c+27+1 = c+28 by omega]; omega
  have hkid := spotNode_kid (n := c+30) true hp false
  simp only [Bool.toNat_false, Nat.add_zero] at hkid
  rw [hsrc, hm, hkid]
  have hq : 2^(c+27+1)-2+p+2 = 4*2^(c+27)-2^27 := by omega
  generalize 2^(c+27+1)-2+p = q at hq hm
  have hbit : (spotNode (c+30) true q).2 = false := by
    by_contra h
    obtain ⟨-, i, hi⟩ := spotNode_bit (n := c+30) (by omega) true q (by simpa using h)
    have hlo : c+28 < i := (Nat.pow_lt_pow_iff_right (a := 2) (by norm_num)).mp (by omega)
    have hhi : i < c+29 := by
      refine (Nat.pow_lt_pow_iff_right (a := 2) (by norm_num)).mp ?_
      rw [show c+29 = c+30-1 by omega]
      omega
    omega
  -- the parent's slot holds a seed other than the block 1, since that block lies in another slot
  have hseed : (spotNode (c+30) true (source arraySlots (2*q+2) q)).1 ≠ 1 := by
    intro h
    have hlt : source arraySlots (2*q+2) q < 2*q+2 := source_lt (by omega)
    have hs := spotNode_seed (n := c+30) (by omega) true (by omega) h
    have hmod : source arraySlots (2*q+2) q%arraySlots = q%arraySlots := source_mod
    generalize source arraySlots (2*q+2) q = r at hs hmod
    rw [hR] at hmod
    omega
  rw [hbit, spot_child_off (by omega), if_neg hseed]

/-- What the evaluator reads for the parent of the first leaf, expanded to that leaf. -/
lemma spot_leaf (h30 : 30 ≤ n) (party : Bool) :
    child spotPrg (fun t => (spotKey n party).cw t (n-2))
      (readAt arraySlots (spotNode n party) (2^n-2) (2^(n-1)-2)) false = (0,party) := by
  rw [readAt]
  cases party with
  | false => rw [spotNode_first (by omega), spotNode_first (by omega), spot_child_off (by omega)]; rfl
  | true =>
    rw [spotNode_overwritten h30, spotNode_path (by omega) (by omega), spot_child_left (by omega),
      if_neg (by omega : ¬n-2+3 = n)]
    rfl

end node

/-! ## Correct expansion -/

/-- The two lists differ by `b` at `a` and agree elsewhere. -/
def Expands (f : Fss) (a : BitVec 64) (b : BitVec 32) (r : RootDraw) (lv : ℕ → LevelDraw)
    (lens : ℕ) : Prop :=
  let k := generateTreeEq32 f a b r lv
  ∀ x < lens, (evaluateEq32 f k.1 lens).getD x 0-(evaluateEq32 f k.2 lens).getD x 0 =
    if x = a.toNat%2^f.numBits then b else 0

lemma spot_seedsDiffer {n : ℕ} (h30 : 30 ≤ n) : SeedsDiffer (spotAccess n) 0 spotRoot (spotLevel n) := by
  have hbits : pathBits n (0 : BitVec 64) = fun _ => false := funext (pathBits_zero n)
  simp only [SeedsDiffer, spotAccess, hbits, spot_path (show 3 ≤ n by omega)]
  rw [spotSeed, if_neg (by omega), if_pos (by omega)]
  decide

lemma spot_value {n lens : ℕ} (h30 : 30 ≤ n) (h32 : n ≤ 32) (hpos : 0 < lens) (hl : lens ≤ 2^n) :
    let k := generateTreeEq32 (spotAccess n) 0 1 spotRoot (spotLevel n)
    (evaluateEq32 (spotAccess n) k.1 lens).getD 0 0
      -(evaluateEq32 (spotAccess n) k.2 lens).getD 0 0 = 1+2^25 := by
  intro k
  have hbits : pathBits n (0 : BitVec 64) = fun _ => false := funext (pathBits_zero n)
  have hpath : path spotPrg (pathBits n 0) spotRoot (spotLevel n) (n-1) = ⟨0,2,false,true⟩ := by
    rw [hbits, spot_path (by omega), spotSeed, if_neg (by omega), if_pos (by omega)]
  have hlist : ∀ k : ServerKeyEq, (evaluateEq32 (spotAccess n) k lens).getD 0 0 =
      ringLeaf (spotAccess n) k (leaf32 (BitVec.ofNat 32 k.w)) 0 := by
    intro k
    rw [evaluateEq32, evaluateEqScan_ring (by simp only [spotAccess]; omega) h32 hpos hl]
    simp [hpos]
  have h0 : k.1.toTreeKey = spotKey n false := by
    simp only [k, generateTreeEq32, spotAccess, hbits, spotKey]
  have h1 : k.2.toTreeKey = spotKey n true := by
    simp only [k, generateTreeEq32, spotAccess, hbits, spotKey]
  have hw : BitVec.ofNat 32 k.2.w = -(1+2^25) := by
    simp only [k, generateTreeEq32, spotAccess, hpath]
    decide
  have hleaf : ∀ kk : ServerKeyEq, ∀ party, kk.toTreeKey = spotKey n party →
      ringLeaf (spotAccess n) kk (leaf32 (BitVec.ofNat 32 kk.w)) 0 =
        leaf32 (BitVec.ofNat 32 kk.w) (0,party) := by
    intro kk party hkk
    rw [ringLeaf, hkk]
    exact congrArg _ (spot_leaf h30 party)
  rw [hlist, hlist, hleaf _ _ h0, hleaf _ _ h1, hw]
  simp only [leaf32, Bool.false_eq_true, if_false, if_true]
  decide

/-- With 30 levels the first entry opens to `1+2^25` instead of 1. -/
theorem expands_thirty_wrong : SeedsDiffer (spotAccess 30) 0 spotRoot (spotLevel 30) ∧
    ¬Expands (spotAccess 30) 0 1 spotRoot (spotLevel 30) 1 := by
  refine ⟨spot_seedsDiffer le_rfl,fun h => ?_⟩
  have h0 := h 0 (by norm_num)
  rw [spot_value le_rfl (by norm_num) (by norm_num) (by norm_num)] at h0
  revert h0
  decide

/-- All key pairs expand as they should if and only if the tree has at most 29 levels. -/
theorem generateTreeEq32_expands_iff {n lens : ℕ} (hn : 2 ≤ n) (hpos : 1 ≤ lens)
    (hl : lens ≤ 2^n) :
    (∀ prg prime a b r lv, SeedsDiffer ⟨prg,n,prime⟩ a r lv → Expands ⟨prg,n,prime⟩ a b r lv lens) ↔
      n ≤ 29 := by
  constructor
  · intro h
    by_contra h29
    have h30 : 30 ≤ n := by omega
    have h0 := h spotPrg 0 0 1 spotRoot (spotLevel n) (spot_seedsDiffer h30) 0 hpos
    have hz : 0 = (0 : BitVec 64).toNat%2^n := by simp
    rw [if_pos hz] at h0
    by_cases h32 : n ≤ 32
    · have hv := spot_value h30 h32 hpos hl
      simp only [spotAccess] at hv
      rw [hv] at h0
      revert h0
      decide
    · have hdeep : ∀ k, evaluateEq32 ⟨spotPrg,n,0⟩ k lens = [] := fun k =>
        evaluateEqScan_deep (show 33 ≤ n by omega)
      rw [hdeep, hdeep] at h0
      revert h0
      decide
  · intro h29 prg prime a b r lv hs x hx
    exact evaluateEq32_sub hs hn h29 hl hx

/-- Three levels are fine and thirty are not. -/
theorem generateTreeEq32_expands_three :
    (∀ prg prime a b r lv, SeedsDiffer ⟨prg,3,prime⟩ a r lv → Expands ⟨prg,3,prime⟩ a b r lv 8) ∧
    ¬∀ prg prime a b r lv, SeedsDiffer ⟨prg,30,prime⟩ a r lv →
      Expands ⟨prg,30,prime⟩ a b r lv 1 := by
  refine ⟨(generateTreeEq32_expands_iff (by decide) (by decide) (by decide)).mpr (by decide),
    fun h => ?_⟩
  have := (generateTreeEq32_expands_iff (by decide) (by decide) (by norm_num)).mp h
  omega

end OramPro
