import OramPro.DtCosts
import OramPro.SotKeys
import OramPro.ThrPcIc

/-!
# Tree evaluation in constant rounds

`ConstDtEval` with `T = uint32_t`, from the owner's tree to the shares of the result: the tree is shared between
players 0 and 1, the features come from `SOT`, the comparisons from interval gates of player 2, and player 2
gives out keys for the leaf that it finds. The lists of these keys and of those of `SOT` are the full-domain ones.
-/
namespace OramPro.ConstDt
open DtCosts MaskReuse Csot

abbrev Party := Csot.Party

/-- A tree in heap order: features and thresholds of the inner nodes, and the values of the leaves. -/
structure Tree where
  k : ℕ → Word
  t : ℕ → Word
  vs : ℕ → Word

/-- The random words of `despoit1`. -/
structure Deposit where
  k : ℕ → Word
  t : ℕ → Word
  vs : ℕ → Word

/-- The upper end of the interval, `(T)1 << (L - 1) - 1`. -/
def q : Word := 1 <<< (32-1-1)

/-- The draws for the keys of a leaf. -/
structure LeafDraw where
  rop : ℕ
  root : RootDraw
  lv : ℕ → LevelDraw

structure Setup where
  /-- the keys that the players share in pairs -/
  prf : Fin 3 → Block → Block
  n : ℕ
  data0 : Party → ℕ → Word
  data1 : Party → ℕ → Word
  /-- `SOT` and its offline phase -/
  ot : SotAlign.Object
  offline : SotAlign.Call
  sotPrf : Fin 3 → Block → Block
  stack : Party → ℕ → ℕ → Word
  /-- `Thr_pc_ic_id` -/
  f : Fss
  gates : ℕ → ThrPcIc.IcDraw
  rou : ℕ → Word
  myfss : Fss
  leaf : LeafDraw
  sid : Word

abbrev Setup.data_lens (s : Setup) : Word := s.ot.data_lens

def Setup.sot (s : Setup) : Sot.Keys := SotKeys.keys s.ot (s.offline.run s.ot SotAlign.init)

section protocol
variable (s : Setup) (tree : Tree) (d : Deposit)

/-- `Ps[i].k` after `despoit1`; player 2 takes 0. -/
def nodeK (p : Party) (i : ℕ) : Word :=
  if p = 0 then d.k i%s.data_lens
  else if p = 1 then (tree.k i-d.k i%s.data_lens+s.data_lens)%s.data_lens
  else 0

/-- `Ps[i].t` after `despoit1`; player 2 takes its mask. -/
def nodeT (p : Party) (i : ℕ) : Word :=
  if p = 0 then d.t i else if p = 1 then tree.t i-d.t i else s.rou i

def leafValue (p : Party) (i : ℕ) : Word := if p = 0 then d.vs i else tree.vs i-d.vs i

def feature (p : Party) (i : ℕ) : Word :=
  Sot.batch s.sotPrf s.data_lens s.data0 s.data1 s.sot (nodeK s tree d) s.stack i p

/-- The call of a player, with the bits of the comparisons. -/
def call (bs : Party → ℕ → Word) : DtCall := ⟨nodeT s tree d,feature s tree d,bs,leafValue tree d,s.sid⟩

/-- The sum of the three differences, as players 0 and 1 have it. -/
def delta_x (i : ℕ) : Word := ∑ p, (deltaX s.prf (call s tree d fun _ _ => 0) p i).word

def gate (i : ℕ) : ThrPcIc.IcKey × ThrPcIc.IcKey := ThrPcIc.twopc_ic_off s.f 0 q 0 (s.rou i) (s.gates i)

/-- `bs[i]` at players 0 and 1, the successor and the predecessor of player 2. -/
def bits (p : Party) (i : ℕ) : Word :=
  if p = 0 then ThrPcIc.twopc_ic s.f 0 q 0 false (gate s i).1 (delta_x s tree d i)
  else ThrPcIc.twopc_ic s.f 0 q 0 true (gate s i).2 (delta_x s tree d i)

/-- The multiplier `r` of a node. -/
def r (i : ℕ) : Word := (multiplier s.prf (call s tree d (bits s tree d)) i).word

/-- `w0s[i]` and `w1s[i]` -/
def leafMask (b : Bool) (i : ℕ) : Word := mask s.prf (w0 0 (leafInput s.sid i b))

def leafKeys (l : ℕ) : ServerKeyEq × ServerKeyEq :=
  generateTreeEq s.myfss (BitVec.ofNat 64 l) 1 s.leaf.rop s.leaf.root s.leaf.lv

/-- The last loop of players 0 and 1. -/
def unmask (k : ServerKeyEq) (sign : BitVec 64) : Word :=
  (List.range (s.n+1)).foldl (fun res i => (res.setWidth 64+(leafMask s false i+leafMask s true i).setWidth 64
    *SotKeys.entry s.myfss k (s.n+1) i*sign).setWidth 32) 0

/-- `online` at the three players. Without a leaf of cost 0 players 0 and 1 wait for ever. -/
def online : Option (Party → Word) :=
  let c := call s tree d (bits s tree d)
  let cost := fun p => c_hat s.prf s.n c p
  let value := fun p i => (v_hat s.prf s.n c p i).word
  (scan s.n (cost 0) (cost 1) (value 0) (value 1)).map fun x p =>
    if p = 0 then unmask s (leafKeys s x.1).1 1
    else if p = 1 then unmask s (leafKeys s x.1).2 (-1)
    else x.2

end protocol

/-- What the protocol relies on: as many transfers as inner nodes, replicated data, features in range, 32 levels
for the gates, and as many for the leaves as their number needs. -/
structure Ready (s : Setup) (tree : Tree) : Prop where
  times : s.offline.times = s.n
  lens : 3 ≤ s.data_lens.toNat
  rep : ∀ j, ∀ i < s.data_lens.toNat, s.data1 (suc j) i = s.data0 (pre j) i
  k_lt : ∀ i < s.n, (tree.k i).toNat < s.data_lens.toNat
  bits : s.f.numBits = 32
  levels : s.myfss.numBits = logn (s.n+1)
  two_le : 2 ≤ s.n
  le : s.n+1 ≤ 2^29

/-! ## The comparisons -/

/-- What the transfer number `i` opens for an index: the words of the client times the gaps of the keys. -/
def Setup.x (s : Setup) (i j : ℕ) : Word :=
  ∑ p, s.data0 (pre p) j*SotKeys.drawGap s.ot (s.offline.draw p i)

/-- Whether the evaluation goes to the left child. -/
def side (s : Setup) (tree : Tree) (i : ℕ) : Bool := tree.t i-s.x i (tree.k i).toNat ≤ q

/-- Within half of the interval the side is the comparison of the feature with the threshold. -/
lemma side_iff {s : Setup} {tree : Tree} {i : ℕ} (ht : (tree.t i).toNat ≤ 2^30)
    (hx : (s.x i (tree.k i).toNat).toNat ≤ 2^30) : side s tree i = true ↔ s.x i (tree.k i).toNat ≤ tree.t i := by
  have hq : q.toNat = 2^30 := by decide
  rw [side, decide_eq_true_iff, BitVec.le_def, BitVec.le_def, hq, BitVec.toNat_sub]
  omega

section opened
variable {s : Setup} {tree : Tree} {d : Deposit} {i : ℕ}

lemma nodeK_lt (hpos : 0 < s.data_lens.toNat) (p : Party) : (nodeK s tree d p i).toNat < s.data_lens.toNat := by
  rw [nodeK]
  split_ifs
  · exact Csot.umod_lt hpos _
  · exact Csot.umod_lt hpos _
  · exact hpos

/-- The shares of a feature's index open to the index. -/
lemma nodeK_index (h16 : s.data_lens.toNat < 2^16) (hk : (tree.k i).toNat < s.data_lens.toNat) :
    Sot.index s.data_lens (fun p => nodeK s tree d p i) = (tree.k i).toNat := by
  have h0 : nodeK s tree d 0 i = d.k i%s.data_lens := rfl
  have h1 : nodeK s tree d 1 i = (tree.k i-d.k i%s.data_lens+s.data_lens)%s.data_lens := rfl
  have h2 : (nodeK s tree d 2 i).toNat = 0 := rfl
  have hd : (d.k i%s.data_lens).toNat < s.data_lens.toNat := Csot.umod_lt (by omega) _
  rw [Sot.index, Fin.sum_univ_three, h0, h1, h2]
  generalize d.k i%s.data_lens = k0 at hd ⊢
  have hword : tree.k i-k0+s.data_lens = tree.k i+s.data_lens-k0 := by ring
  rw [BitVec.toNat_umod, hword, toNat_add_sub h16 (by omega) hd.le, add_zero, Nat.add_mod_mod,
    (by omega : k0.toNat+((tree.k i).toNat+s.data_lens.toNat-k0.toNat) = (tree.k i).toNat+s.data_lens.toNat),
    Nat.add_mod_right, Nat.mod_eq_of_lt hk]

/-- The shares from the transfer open to what its keys pick. -/
lemma feature_open (h : Ready s tree) (hi : i < s.n) :
    ∑ p, feature s tree d p i = s.x i (tree.k i).toNat := by
  have hfit : SotAlign.Fits s.ot SotAlign.init s.offline := SotAlign.fits_of_empty fun _ => rfl
  have hkeys := SotKeys.weighted_run h.lens hfit h.rep
  have hlt : ∀ p, (nodeK s tree d p i).toNat < s.data_lens.toNat := nodeK_lt hkeys.pos
  have htimes : i < s.offline.times := by rwa [h.times]
  refine (hkeys.batch s.sotPrf htimes hlt s.stack).trans ?_
  rw [nodeK_index hkeys.lt (h.k_lt i hi), Setup.x]

/-- The masks cancel: what is compared is the difference, hidden by the gate's mask. -/
lemma delta_x_eq (h : Ready s tree) (hi : i < s.n) :
    delta_x s tree d i = tree.t i-s.x i (tree.k i).toNat+s.rou i := by
  have h0 : nodeT s tree d 0 i = d.t i := rfl
  have h1 : nodeT s tree d 1 i = tree.t i-d.t i := rfl
  have h2 : nodeT s tree d 2 i = s.rou i := rfl
  have h3 : (0 : Fin 3)+2 = 2 := rfl
  have h4 : (1 : Fin 3)+2 = 0 := rfl
  have h5 : (2 : Fin 3)+2 = 1 := rfl
  rw [← feature_open (d := d) h hi, Fin.sum_univ_three, delta_x, Fin.sum_univ_three]
  simp only [deltaX, call, w0, w1, h0, h1, h2, h3, h4, h5]
  ring

/-- The results of the gates are shares of the side. -/
lemma bits_open (h : Ready s tree) (hi : i < s.n) :
    bits s tree d 0 i+bits s tree d 1 i = if side s tree i then 1 else 0 := by
  have hgate := ThrPcIc.gate_sum (q := q) h.bits (s.rou i) (tree.t i-s.x i (tree.k i).toNat) (s.gates i)
  have h0 : bits s tree d 0 i = ThrPcIc.twopc_ic s.f 0 q 0 false (gate s i).1 (delta_x s tree d i) := rfl
  have h1 : bits s tree d 1 i = ThrPcIc.twopc_ic s.f 0 q 0 true (gate s i).2 (delta_x s tree d i) := rfl
  rw [h0, h1, delta_x_eq h hi, gate, hgate, ThrPcIc.bit, side]
  simp only [decide_eq_true_eq]

end opened

/-! ## The leaf -/

def leafGap (s : Setup) (l : ℕ) : Word :=
  SotKeys.gap s.myfss (BitVec.ofNat 64 l) 1 s.leaf.rop s.leaf.root s.leaf.lv

section leaf
variable {s : Setup} {tree : Tree} {d : Deposit}

/-- The cost of a leaf, from the costs of players 0 and 1. -/
lemma costs_open {b : Bits s.n} (h0 : b.bs0 = bits s tree d 0) (h1 : b.bs1 = bits s tree d 1) {l : ℕ}
    (hl : l ≤ s.n) :
    c_hat s.prf s.n (call s tree d (bits s tree d)) 0 l+c_hat s.prf s.n (call s tree d (bits s tree d)) 1 l =
      disagreement b.b (r s tree d) (s.n+l) := by
  rw [← pathShare_sum b (r s tree d) (by omega : s.n+l ≤ 2*s.n), h0, h1, c_hat_eq, c_hat_eq,
    c_hat_leaf _ _ _ hl, c_hat_leaf _ _ _ hl]
  rfl

/-- What player 2 has of a leaf's value. -/
lemma value_open (c : Party → ℕ → Word) {l : ℕ} (hl : l ≤ s.n) :
    (v_hat s.prf s.n (call s tree d c) 0 l).word+(v_hat s.prf s.n (call s tree d c) 1 l).word =
      tree.vs l-(leafMask s false l+leafMask s true l) := by
  have hmod : (l+s.n+1-MaskReuse.rotation)%(s.n+1) = l := by
    rw [MaskReuse.rotation, Nat.sub_zero, add_assoc, Nat.add_mod_right, Nat.mod_eq_of_lt (by omega)]
  have h0 : leafValue tree d 0 l = d.vs l := rfl
  have h1 : leafValue tree d 1 l = tree.vs l-d.vs l := rfl
  have hb0 : decide ((0 : Party) ≠ 0) = false := by decide
  have hb1 : decide ((1 : Party) ≠ 0) = true := by decide
  simp only [v_hat, call, hmod, h0, h1, leafMask, hb0, hb1]
  ring

lemma unmask_eq (k : ServerKeyEq) (sign : BitVec 64) :
    unmask s k sign = ∑ i ∈ Finset.range (s.n+1),
      (leafMask s false i+leafMask s true i)*(SotKeys.entry s.myfss k (s.n+1) i).setWidth 32*sign.setWidth 32 := by
  have hcut : ∀ (a m : Word) (l : BitVec 64), (a.setWidth 64+m.setWidth 64*l*sign).setWidth 32 =
      a+m*l.setWidth 32*sign.setWidth 32 := fun a m l => by
    rw [BitVec.setWidth_add _ _ (by norm_num), BitVec.setWidth_mul _ _ (by norm_num),
      BitVec.setWidth_mul _ _ (by norm_num), BitVec.setWidth_setWidth_of_le _ (by norm_num),
      BitVec.setWidth_setWidth_of_le _ (by norm_num), BitVec.setWidth_eq, BitVec.setWidth_eq]
  simp only [unmask, hcut]
  exact (foldl_add_sum _ _ _).trans (zero_add _)

/-- The levels of the leaf keys suffice for the leaves and fit in the buffer. -/
lemma leaf_levels (h : Ready s tree) :
    2 ≤ s.myfss.numBits ∧ s.myfss.numBits ≤ 29 ∧ s.n+1 ≤ 2^s.myfss.numBits := by
  have hle := h.le
  have htwo := h.two_le
  obtain ⟨hlen, -, hmin⟩ := logn_spec (by omega : s.n+1 ≤ 2^32)
  rw [← h.levels] at hlen hmin
  refine ⟨?_,hmin 29 (by norm_num) hle,hlen⟩
  by_contra hn
  have hpow : 2^s.myfss.numBits ≤ 2^1 := Nat.pow_le_pow_right (by norm_num) (by omega)
  omega

/-- The keys of a leaf pick its masks. -/
lemma unmask_open (h : Ready s tree) {l : ℕ} (hl : l ≤ s.n) :
    unmask s (leafKeys s l).1 1+unmask s (leafKeys s l).2 (-1) =
      (leafMask s false l+leafMask s true l)*leafGap s l := by
  obtain ⟨h2, h29, hlen⟩ := leaf_levels h
  have hpoint : (BitVec.ofNat 64 l).toNat%2^s.myfss.numBits = l := by
    have hle := h.le
    rw [BitVec.toNat_ofNat, Nat.mod_eq_of_lt (by omega : l < 2^64), Nat.mod_eq_of_lt (by omega)]
  have hone : (1 : BitVec 64).setWidth 32 = (1 : Word) := by decide
  have hneg : (-1 : BitVec 64).setWidth 32 = (-1 : Word) := by decide
  have hterm : ∀ i ∈ Finset.range (s.n+1),
      (leafMask s false i+leafMask s true i)*(SotKeys.entry s.myfss (leafKeys s l).1 (s.n+1) i).setWidth 32*1+
      (leafMask s false i+leafMask s true i)*(SotKeys.entry s.myfss (leafKeys s l).2 (s.n+1) i).setWidth 32*(-1) =
      if i = l then (leafMask s false i+leafMask s true i)*leafGap s l else 0 := by
    intro i hi
    have hdiff : (SotKeys.entry s.myfss (leafKeys s l).1 (s.n+1) i).setWidth 32
        -(SotKeys.entry s.myfss (leafKeys s l).2 (s.n+1) i).setWidth 32 =
        if i = (BitVec.ofNat 64 l).toNat%2^s.myfss.numBits then leafGap s l else 0 :=
      SotKeys.entry_sub h2 h29 hlen (Finset.mem_range.mp hi)
    have hfactor : ∀ m a b : Word, m*a*1+m*b*(-1) = m*(a-b) := fun m a b => by ring
    rw [hfactor, hdiff, hpoint, mul_ite, mul_zero]
  rw [unmask_eq, unmask_eq, hone, hneg, ← Finset.sum_add_distrib, Finset.sum_congr rfl hterm, Finset.sum_ite_eq',
    if_pos (Finset.mem_range.mpr (by omega))]

end leaf

/-- Unless the masks of the nodes that the path of another leaf leaves add up to 0, the three results add up to
the value of the leaf that the transferred words reach, but for the masks of the leaf where the gap of its keys is
not 1. Up to `2^30` the sides are the comparisons. -/
theorem online_opens (s : Setup) (tree : Tree) (d : Deposit) (h : Ready s tree) :
    let leaf := descend s.n (side s tree) 0-s.n
    leaf ≤ s.n ∧ ((∀ l ≤ s.n, l ≠ leaf → disagreement (side s tree) (r s tree d) (s.n+l) ≠ 0) →
      ∃ res, online s tree d = some res ∧
        ∑ p, res p = tree.vs leaf+(leafMask s false leaf+leafMask s true leaf)*(leafGap s leaf-1)) ∧
      ∀ i, (tree.t i).toNat ≤ 2^30 → (s.x i (tree.k i).toNat).toNat ≤ 2^30 →
        (side s tree i = true ↔ s.x i (tree.k i).toNat ≤ tree.t i) := by
  intro leaf
  obtain ⟨hge, hle⟩ := descend_leaf s.n (side s tree) 0 (Nat.zero_le _)
  have hl : leaf ≤ s.n := by omega
  refine ⟨hl,fun hother => ?_,fun i ht hx => side_iff ht hx⟩
  let b : Bits s.n := ⟨side s tree,bits s tree d 0,bits s tree d 1,fun i hi => bits_open h hi⟩
  have hcost : ∀ l ≤ s.n, c_hat s.prf s.n (call s tree d (bits s tree d)) 0 l+
      c_hat s.prf s.n (call s tree d (bits s tree d)) 1 l = disagreement (side s tree) (r s tree d) (s.n+l) :=
    fun l hl => costs_open (b := b) rfl rfl hl
  have hzero : disagreement (side s tree) (r s tree d) (s.n+leaf) = 0 := by
    rw [(by omega : s.n+leaf = descend s.n (side s tree) 0)]
    exact disagreement_reached b (r s tree d)
  have hfind : (List.range (s.n+1)).find? (fun i => c_hat s.prf s.n (call s tree d (bits s tree d)) 0 i+
      c_hat s.prf s.n (call s tree d (bits s tree d)) 1 i = 0) = some leaf := by
    refine find_range_unique (Nat.lt_succ_of_le hl) (decide_eq_true ((hcost leaf hl).trans hzero))
      fun i hi hne => ?_
    rw [hcost i (by omega)]
    exact decide_eq_false (hother i (by omega) hne)
  have honline : online s tree d = some fun p =>
      if p = 0 then unmask s (leafKeys s leaf).1 1
      else if p = 1 then unmask s (leafKeys s leaf).2 (-1)
      else tree.vs leaf-(leafMask s false leaf+leafMask s true leaf) := by
    simp only [online, scan, hfind, Option.map_some, value_open _ hl]
  refine ⟨_,honline,?_⟩
  rw [Fin.sum_univ_three]
  calc unmask s (leafKeys s leaf).1 1+unmask s (leafKeys s leaf).2 (-1)+
      (tree.vs leaf-(leafMask s false leaf+leafMask s true leaf))
    _ = (leafMask s false leaf+leafMask s true leaf)*leafGap s leaf+
        (tree.vs leaf-(leafMask s false leaf+leafMask s true leaf)) := by rw [unmask_open h hl]
    _ = tree.vs leaf+(leafMask s false leaf+leafMask s true leaf)*(leafGap s leaf-1) := by ring

/-- Feature 1 against 40 at the root and against 50 at its left child. -/
def twoNodes : Tree := ⟨fun _ => 1,fun i => if i = 0 then 40 else 50,fun i => if i = 1 then 9 else 7⟩

def twoDeposit : Deposit := ⟨fun _ => 11,fun _ => 22,fun _ => 33⟩

def twoSetup : Setup where
  prf _ _ := 5
  n := 2
  data0 := Sot.twoEntries
  data1 := Sot.twoEntries1
  ot := SotKeys.threeObject
  offline := { SotKeys.onePoint with times := 2 }
  sotPrf _ tmp := tmp
  stack _ _ _ := 0
  f := ⟨fun _ s => s,32,0⟩
  gates _ := ⟨⟨⟨0,1,0,0,0⟩,fun _ => ⟨0,0,0,0,0⟩,⟨3,4⟩,fun _ => ⟨0,0⟩⟩,8⟩
  rou _ := 123456789
  myfss := ⟨fun _ s => s,2,4294967311⟩
  leaf := ⟨0,⟨0,1,0,0,0⟩,fun _ => ⟨0,0,0,0,0⟩⟩
  sid := 1

lemma twoSetup_ready : Ready twoSetup twoNodes where
  times := rfl
  lens := by decide
  rep j i _ := by fin_cases j <;> rfl
  k_lt _ _ := Nat.one_lt_succ_succ 1
  bits := rfl
  levels := by decide
  two_le := le_rfl
  le := by decide

/-- The transferred words are 3822555933, the gap of the keys for leaf 1 is 896738173 and its masks are 5. -/
theorem online_opens_two : ∃ res, online twoSetup twoNodes twoDeposit = some res ∧
    ∑ p, res p = 377447137 := by
  have h0 : side twoSetup twoNodes 0 = true := by decide +kernel
  have h1 : side twoSetup twoNodes 1 = true := by decide +kernel
  have hleaf : descend twoSetup.n (side twoSetup twoNodes) 0 = 3 := by
    have hn : twoSetup.n = 2 := rfl
    simp [descend, DtCosts.child, h0, h1, hn]
  have hmult : ∀ i < 2, r twoSetup twoNodes twoDeposit i = 5 := by decide +kernel
  have h := (online_opens twoSetup twoNodes twoDeposit twoSetup_ready).2.1
  rw [hleaf] at h
  obtain ⟨res, honline, hsum⟩ := h fun l hl hne => by
    have hn : twoSetup.n = 2 := rfl
    rw [hn] at hl hne ⊢
    obtain rfl | rfl : l = 0 ∨ l = 2 := by omega
    · simp [disagreement, DtCosts.path, h0, hmult]
    · simp [disagreement, DtCosts.path, h0, h1, hmult]
  refine ⟨res,honline,hsum.trans ?_⟩
  decide +kernel

end OramPro.ConstDt
