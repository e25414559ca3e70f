import OramPro.FssCommon

/-!
# The two correlated key trees

The generators of point-function and less-than keys build the same pair of binary trees:
at every depth the two parties hold different seeds and opposite control bits on the path
of `a`, and the same seed and control bit at every other prefix. Depth `d` has the prefixes
`p < 2^(d+1)` of length `d+1`.
-/
namespace OramPro

structure CWEq where
  cs : Bool → Block
  ct : Bool → Bool

/-- The seeds, control bits and correction words that a `ServerKeyEq` and a `ServerKeyLt` share. -/
structure TreeKey where
  s : Bool → Block
  t : Bool → Bool
  cw : Bool → ℕ → CWEq

/-- Random bytes drawn for the roots: the seeds at index `a` and `na`, and `temp`. -/
structure RootDraw where
  s0a : Block
  s1a : Block
  sna : Block
  temp0 : Byte
  temp1 : Byte
  deriving DecidableEq

/-- Random bytes drawn for one level of correction words. -/
structure LevelDraw where
  cs0a : Block
  cs1a : Block
  cs0na : Block
  temp0 : Byte
  temp1 : Byte
  deriving DecidableEq

/-- What the generator carries along the path of `a`. -/
structure PathState where
  key0 : Block
  key1 : Block
  tbit0 : Bool
  tbit1 : Bool
  deriving DecidableEq

variable (prg : ℕ → Block → Block)

def rootPath (r : RootDraw) : PathState :=
  ⟨r.s0a,r.s1a,r.temp0.getLsbD 0,!r.temp0.getLsbD 0⟩

/-- The two correction words of a level, `false` for `cw[0]` and `true` for `cw[1]`. -/
def levelCw (a : Bool) (d : LevelDraw) (st : PathState) : Bool → CWEq
  | false => ⟨pick a d.cs0a d.cs0na,pick a (d.temp0.getLsbD 0) (d.temp1.getLsbD 0)⟩
  | true =>
    ⟨pick a d.cs1a (prfSeed prg st.key0 (!a) ^^^ prfSeed prg st.key1 (!a) ^^^ d.cs0na),
      pick a (d.temp0.getLsbD 0 ^^ prfBit prg st.key0 a ^^ prfBit prg st.key1 a ^^ true)
        (d.temp1.getLsbD 0 ^^ prfBit prg st.key0 (!a) ^^ prfBit prg st.key1 (!a))⟩

/-- One party's step from a node to its child in direction `b`. -/
def child (cw : Bool → CWEq) (n : Block × Bool) (b : Bool) : Block × Bool :=
  (prfSeed prg n.1 b ^^^ (cw n.2).cs b,prfBit prg n.1 b ^^ (cw n.2).ct b)

def nextPath (a : Bool) (cw : Bool → CWEq) (st : PathState) : PathState :=
  let n0 := child prg cw (st.key0,st.tbit0) a
  let n1 := child prg cw (st.key1,st.tbit1) a
  ⟨n0.1,n1.1,n0.2,n1.2⟩

/-- The generator's state at depth `d`, for the path given by `bits`. -/
def path (bits : ℕ → Bool) (r : RootDraw) (lv : ℕ → LevelDraw) : ℕ → PathState
  | 0 => rootPath r
  | d+1 =>
    nextPath prg (bits (d+1)) (levelCw prg (bits (d+1)) (lv d) (path bits r lv d))
      (path bits r lv d)

def pathCw (bits : ℕ → Bool) (r : RootDraw) (lv : ℕ → LevelDraw) (d : ℕ) : Bool → CWEq :=
  levelCw prg (bits (d+1)) (lv d) (path prg bits r lv d)

/-- The key of the first (`false`) or the second (`true`) party. -/
def treeKey (bits : ℕ → Bool) (r : RootDraw) (lv : ℕ → LevelDraw) (party : Bool) : TreeKey where
  s := pick (bits 0) (if party then r.s1a else r.s0a) r.sna
  t := pick (bits 0) (party ^^ r.temp0.getLsbD 0) (r.temp1.getLsbD 0)
  cw := fun t d => pathCw prg bits r lv d t

/-- The node of prefix `p` at depth `d`. -/
def nodeAt (k : TreeKey) : ℕ → ℕ → Block × Bool
  | 0, p => (k.s (p%2 == 1),k.t (p%2 == 1))
  | d+1, p => child prg (fun t => k.cw t d) (nodeAt k d (p/2)) (p%2 == 1)

def walk (k : TreeKey) (bits : ℕ → Bool) : ℕ → Block × Bool
  | 0 => (k.s (bits 0),k.t (bits 0))
  | d+1 => child prg (fun t => k.cw t d) (walk k bits d) (bits (d+1))

def prefixOf (bits : ℕ → Bool) : ℕ → ℕ
  | 0 => (bits 0).toNat
  | d+1 => 2*prefixOf bits d+(bits (d+1)).toNat

variable {prg} {bits : ℕ → Bool} {r : RootDraw} {lv : ℕ → LevelDraw}

lemma prefixOf_succ_div (d : ℕ) : prefixOf bits (d+1)/2 = prefixOf bits d := by
  have := Bool.toNat_lt (bits (d+1))
  simp only [prefixOf]
  omega

lemma prefixOf_odd (d : ℕ) : (prefixOf bits d%2 == 1) = bits d := by
  cases d with
  | zero => cases h : bits 0 <;> simp [prefixOf, h]
  | succ d => cases h : bits (d+1) <;> simp [prefixOf, h, Nat.add_mod]

lemma prefixOf_lt (d : ℕ) : prefixOf bits d < 2^(d+1) := by
  induction d with
  | zero => have := Bool.toNat_lt (bits 0); simpa [prefixOf] using this
  | succ d ih =>
    have := Bool.toNat_lt (bits (d+1))
    simp only [prefixOf, pow_succ] at *
    omega

lemma walk_eq_nodeAt (k : TreeKey) (d : ℕ) :
    walk prg k bits d = nodeAt prg k d (prefixOf bits d) := by
  induction d with
  | zero => rw [walk, nodeAt, prefixOf_odd]
  | succ d ih => rw [walk, nodeAt, prefixOf_succ_div, prefixOf_odd, ih]

lemma eq_prefixOf_of_div {d p : ℕ} (hp : p/2 = prefixOf bits d) :
    p = prefixOf bits (d+1) ∨ (p ≠ prefixOf bits (d+1) ∧ (p%2 == 1) = !bits (d+1)) := by
  have h : p = 2*prefixOf bits d+p%2 := by omega
  rcases Nat.mod_two_eq_zero_or_one p with h0 | h0 <;> cases hb : bits (d+1) <;>
    simp [prefixOf, h0, hb] <;> omega

lemma levelCw_cs_not (a : Bool) (d : LevelDraw) (st : PathState) :
    (levelCw prg a d st true).cs (!a) =
      prfSeed prg st.key0 (!a) ^^^ prfSeed prg st.key1 (!a) ^^^ (levelCw prg a d st false).cs (!a) := by
  simp [levelCw]

lemma levelCw_ct_not (a : Bool) (d : LevelDraw) (st : PathState) :
    (levelCw prg a d st true).ct (!a) =
      ((levelCw prg a d st false).ct (!a) ^^ prfBit prg st.key0 (!a) ^^ prfBit prg st.key1 (!a)) := by
  simp [levelCw]

lemma levelCw_ct_self (a : Bool) (d : LevelDraw) (st : PathState) :
    (levelCw prg a d st true).ct a =
      !((levelCw prg a d st false).ct a ^^ prfBit prg st.key0 a ^^ prfBit prg st.key1 a) := by
  simp [levelCw]

/-- The control bits of the two parties are opposite all along the path. -/
lemma path_tbit (prg : ℕ → Block → Block) (bits : ℕ → Bool) (r : RootDraw) (lv : ℕ → LevelDraw)
    (d : ℕ) : (path prg bits r lv d).tbit1 = !(path prg bits r lv d).tbit0 := by
  induction d with
  | zero => simp [path, rootPath]
  | succ d ih =>
    simp only [path, nextPath, child, ih]
    generalize path prg bits r lv d = st
    cases st.tbit0 <;>
      simp only [Bool.not_false, Bool.not_true, levelCw_ct_self] <;>
      cases prfBit prg st.key0 (bits (d+1)) <;> cases prfBit prg st.key1 (bits (d+1)) <;> simp

lemma nodeAt_path (prg : ℕ → Block → Block) (bits : ℕ → Bool) (r : RootDraw)
    (lv : ℕ → LevelDraw) (d : ℕ) (party : Bool) :
    nodeAt prg (treeKey prg bits r lv party) d (prefixOf bits d) =
      if party then ((path prg bits r lv d).key1,(path prg bits r lv d).tbit1)
      else ((path prg bits r lv d).key0,(path prg bits r lv d).tbit0) := by
  induction d with
  | zero =>
    rw [nodeAt, prefixOf_odd]
    cases party <;> simp [treeKey, path, rootPath]
  | succ d ih =>
    rw [nodeAt, prefixOf_succ_div, prefixOf_odd, ih]
    cases party <;> rfl

lemma child_off_path (d : ℕ) :
    child prg (pathCw prg bits r lv d) ((path prg bits r lv d).key0,(path prg bits r lv d).tbit0)
        (!bits (d+1)) =
      child prg (pathCw prg bits r lv d)
        ((path prg bits r lv d).key1,(path prg bits r lv d).tbit1) (!bits (d+1)) := by
  simp only [child, pathCw, path_tbit]
  generalize path prg bits r lv d = st
  cases st.tbit0 <;>
    simp only [Bool.not_false, Bool.not_true, levelCw_cs_not, levelCw_ct_not, Prod.mk.injEq] <;>
    constructor
  · grind
  · cases prfBit prg st.key0 (!bits (d+1)) <;> cases prfBit prg st.key1 (!bits (d+1)) <;> simp
  · grind
  · cases prfBit prg st.key0 (!bits (d+1)) <;> cases prfBit prg st.key1 (!bits (d+1)) <;> simp

/-- Off the path the two parties hold the same node. -/
lemma nodeAt_off_path (prg : ℕ → Block → Block) (bits : ℕ → Bool) (r : RootDraw)
    (lv : ℕ → LevelDraw) {d p : ℕ} (hp : p < 2^(d+1)) (hne : p ≠ prefixOf bits d) :
    nodeAt prg (treeKey prg bits r lv false) d p = nodeAt prg (treeKey prg bits r lv true) d p := by
  induction d generalizing p with
  | zero =>
    have hb : (p%2 == 1) = !bits 0 := by
      simp only [prefixOf] at hne
      cases h : bits 0 <;> simp_all <;> omega
    simp [nodeAt, hb, treeKey]
  | succ d ih =>
    have hlt : p/2 < 2^(d+1) := by rw [pow_succ] at hp; omega
    by_cases hpar : p/2 = prefixOf bits d
    · obtain rfl | ⟨-, hbit⟩ := eq_prefixOf_of_div hpar
      · exact absurd rfl hne
      · rw [nodeAt, nodeAt, hpar, hbit, nodeAt_path, nodeAt_path]
        exact child_off_path d
    · rw [nodeAt, nodeAt, ih hlt hpar]
      rfl

end OramPro
