import OramPro.FssEq

/-!
# Less-than keys

The two keys carry a running sum `v` besides the trees. Along the path of `a` the sums agree;
where `x` leaves the path to the left they come to differ by `b`, and they keep that difference.
-/
namespace OramPro

/-- The words `cv[t][i]` of the correction words are kept apart from their `CWEq` part. -/
structure ServerKeyLt extends TreeKey where
  v : Bool → BitVec 64
  cv : Bool → ℕ → Bool → BitVec 64

/-- The two words drawn at the root and at every level, for direction `a` and for `na`. -/
structure WordDraw where
  a : BitVec 64
  na : BitVec 64
  deriving DecidableEq

/-- Words `cv[0]` and `cv[1]` of one level. -/
def levelCv (prg : ℕ → Block → Block) (a : Bool) (b : BitVec 64) (d : WordDraw) (st : PathState) :
    Bool → Bool → BitVec 64 :=
  let v0 := prfWord prg st.key0
  let v1 := prfWord prg st.key1
  pick st.tbit0 (pick a d.a d.na)
    (pick a (d.a+v0 a-v1 a) (d.na+v0 (!a)-v1 (!a)-if a then b else 0))

def generateTreeLt (f : Fss) (a_i b_i : BitVec 64) (r : RootDraw) (lv : ℕ → LevelDraw)
    (rv : WordDraw) (lvv : ℕ → WordDraw) : ServerKeyLt × ServerKeyLt :=
  let bits := pathBits f.numBits a_i
  let cv t d := levelCv f.prg (bits (d+1)) b_i (lvv d) (path f.prg bits r lv d) t
  ({ toTreeKey := treeKey f.prg bits r lv false, v := pick (bits 0) rv.a rv.na, cv := cv },
    { toTreeKey := treeKey f.prg bits r lv true
      v := pick (bits 0) rv.a (rv.na-if bits 0 then b_i else 0), cv := cv })

/-- The sum after `d` levels. -/
def valueLt (prg : ℕ → Block → Block) (k : ServerKeyLt) (bits : ℕ → Bool) : ℕ → BitVec 64
  | 0 => k.v (bits 0)
  | d+1 =>
    let n := walk prg k.toTreeKey bits d
    valueLt prg k bits d+prfWord prg n.1 (bits (d+1))+k.cv n.2 d (bits (d+1))

def evaluateLt (f : Fss) (k : ServerKeyLt) (x : BitVec 64) : BitVec 64 :=
  valueLt f.prg k (pathBits f.numBits x) (f.numBits-1)

variable {f : Fss} {a b : BitVec 64} {r : RootDraw} {lv : ℕ → LevelDraw} {rv : WordDraw}
  {lvv : ℕ → WordDraw}

lemma generateTreeLt_fst : (generateTreeLt f a b r lv rv lvv).1.toTreeKey =
    treeKey f.prg (pathBits f.numBits a) r lv false := rfl

lemma generateTreeLt_snd : (generateTreeLt f a b r lv rv lvv).2.toTreeKey =
    treeKey f.prg (pathBits f.numBits a) r lv true := rfl

/-- On the path, the words of one level cancel for direction `a` and leave `b*a` for `na`. -/
lemma levelCv_path (prg : ℕ → Block → Block) (c : Bool) (d : WordDraw) {st : PathState}
    (ht : st.tbit1 = !st.tbit0) (xb : Bool) :
    prfWord prg st.key0 xb+levelCv prg c b d st st.tbit0 xb
      -(prfWord prg st.key1 xb+levelCv prg c b d st st.tbit1 xb) =
      if xb = false ∧ c = true then b else 0 := by
  rw [ht, levelCv, pick_self, pick_not]
  by_cases hx : xb = c
  · subst hx
    rw [pick_self, pick_self, if_neg (by cases xb <;> simp)]
    ring
  · obtain rfl : xb = !c := by cases xb <;> cases c <;> simp_all
    have hc : (!c) = false ∧ c = true ↔ c = true := by cases c <;> simp
    simp only [pick_not, hc]
    ring

lemma valueLt_step_path {xs : ℕ → Bool} {d : ℕ}
    (hp : prefixOf xs d = prefixOf (pathBits f.numBits a) d)
    (ih : valueLt f.prg (generateTreeLt f a b r lv rv lvv).1 xs d =
      valueLt f.prg (generateTreeLt f a b r lv rv lvv).2 xs d) :
    valueLt f.prg (generateTreeLt f a b r lv rv lvv).1 xs (d+1)
      -valueLt f.prg (generateTreeLt f a b r lv rv lvv).2 xs (d+1) =
      if xs (d+1) = false ∧ pathBits f.numBits a (d+1) = true then b else 0 := by
  have h0 := nodeAt_path f.prg (pathBits f.numBits a) r lv d false
  have h1 := nodeAt_path f.prg (pathBits f.numBits a) r lv d true
  rw [← hp] at h0 h1
  have hstep := levelCv_path (b := b) f.prg (pathBits f.numBits a (d+1)) (lvv d)
    (path_tbit f.prg (pathBits f.numBits a) r lv d) (xs (d+1))
  rw [valueLt, valueLt, ih, walk_eq_nodeAt, walk_eq_nodeAt, generateTreeLt_fst, generateTreeLt_snd,
    h0, h1, ← hstep]
  simp only [generateTreeLt, Bool.false_eq_true, if_false, if_true]
  ring

lemma valueLt_step_off {xs : ℕ → Bool} {d : ℕ}
    (hp : prefixOf xs d ≠ prefixOf (pathBits f.numBits a) d) :
    valueLt f.prg (generateTreeLt f a b r lv rv lvv).1 xs (d+1)
      -valueLt f.prg (generateTreeLt f a b r lv rv lvv).2 xs (d+1) =
      valueLt f.prg (generateTreeLt f a b r lv rv lvv).1 xs d
        -valueLt f.prg (generateTreeLt f a b r lv rv lvv).2 xs d := by
  have hoff := nodeAt_off_path f.prg _ r lv (prefixOf_lt d) hp
  rw [valueLt, valueLt, walk_eq_nodeAt, walk_eq_nodeAt, generateTreeLt_fst, generateTreeLt_snd, hoff]
  simp only [generateTreeLt]
  ring

/-- The two sums differ by `b` exactly when `x` is left of the path. -/
lemma valueLt_sub (xs : ℕ → Bool) (d : ℕ) :
    valueLt f.prg (generateTreeLt f a b r lv rv lvv).1 xs d
      -valueLt f.prg (generateTreeLt f a b r lv rv lvv).2 xs d =
      if prefixOf xs d < prefixOf (pathBits f.numBits a) d then b else 0 := by
  induction d with
  | zero =>
    cases hx : xs 0 <;> cases ha : pathBits f.numBits a 0 <;>
      simp [valueLt, generateTreeLt, prefixOf, pick, hx, ha]
  | succ d ih =>
    by_cases hp : prefixOf xs d = prefixOf (pathBits f.numBits a) d
    · simp only [hp, lt_self_iff_false, if_false, sub_eq_zero] at ih
      rw [valueLt_step_path hp ih, prefixOf, prefixOf, hp]
      cases xs (d+1) <;> cases pathBits f.numBits a (d+1) <;> simp
    · have hx := Bool.toNat_lt (xs (d+1))
      have ha := Bool.toNat_lt (pathBits f.numBits a (d+1))
      rw [valueLt_step_off hp, ih, prefixOf, prefixOf]
      congr 1
      exact propext (by omega)

/-- Less-than keys: the two evaluations differ by `b` when the low bits of `x` are below those
of `a`, and agree otherwise. -/
theorem evaluateLt_sub (h0 : 0 < f.numBits) (hn : f.numBits ≤ 64) (x : BitVec 64) :
    evaluateLt f (generateTreeLt f a b r lv rv lvv).1 x
      -evaluateLt f (generateTreeLt f a b r lv rv lvv).2 x =
      if x.toNat%2^f.numBits < a.toNat%2^f.numBits then b else 0 := by
  rw [evaluateLt, evaluateLt, valueLt_sub, prefixOf_leaf h0 hn, prefixOf_leaf h0 hn]

/-- The same for every width that a key can have, down to a tree that is only its two roots. -/
theorem generateTreeLt_below (prg : ℕ → Block → Block) (prime : ℕ) {n : ℕ} (h1 : 1 ≤ n)
    (h64 : n ≤ 64) (a b x : BitVec 64) (r : RootDraw) (lv : ℕ → LevelDraw) (rv : WordDraw)
    (lvv : ℕ → WordDraw) :
    let f : Fss := ⟨prg,n,prime⟩
    let k := generateTreeLt f a b r lv rv lvv
    evaluateLt f k.1 x-evaluateLt f k.2 x = if x.toNat%2^n < a.toNat%2^n then b else 0 :=
  evaluateLt_sub (f := ⟨prg,n,prime⟩) h1 h64 x

/-- At 64 bits, the word before the point is below it, and the point itself is not. -/
theorem generateTreeLt_below_wide :
    let f : Fss := ⟨fun i s => (s+1)*BitVec.ofNat 128 (2*i+3),64,0⟩
    let k := generateTreeLt f 0x8000000000000005 7 ⟨0xfeed,0xbeef,1,2,1⟩
      (fun i => ⟨BitVec.ofNat 128 i,5,1,0,1⟩) ⟨3,4⟩ fun i => ⟨BitVec.ofNat 64 (9*i),8⟩
    evaluateLt f k.1 0x8000000000000004-evaluateLt f k.2 0x8000000000000004 = 7 ∧
      evaluateLt f k.1 0x8000000000000005-evaluateLt f k.2 0x8000000000000005 = 0 :=
  ⟨generateTreeLt_below _ _ (by decide) (by decide) 0x8000000000000005 7 0x8000000000000004 _ _ _ _,
    generateTreeLt_below _ _ (by decide) (by decide) 0x8000000000000005 7 0x8000000000000005 _ _ _ _⟩

end OramPro
