import OramPro.FssMpc

/-!
# What `gen` leaves behind

The expansion of `FSS_MPC` runs through the trees in heap order. Up to 27 levels the offsets into
`total_s` do not collide with a node that is still to be read.
-/
namespace OramPro.FssMpc

section run
variable {prg : ℕ → Block → Block} {deep : ℕ} {s0 : Bool → Block} {w : ℕ} {g : GenInput w} {i : ℕ}

/-- The node with heap index `m` at party `p`. -/
def heapTree (prg : ℕ → Block → Block) (deep : ℕ) (s0 : Bool → Block) (g : GenInput w) (p : Bool)
    (m : ℕ) : Block × Bool :=
  tree prg deep s0 g (depthOf m) p (m+2-2^(depthOf m+1))

lemma two_le_pow (d : ℕ) : 2 ≤ 2^(d+1) := by
  simpa using Nat.pow_le_pow_right (n := 2) (by norm_num) (Nat.succ_pos d)

lemma heapTree_level (p : Bool) {d q : ℕ} (hq : q < 2^(d+1)) :
    heapTree prg deep s0 g p (2^(d+1)-2+q) = tree prg deep s0 g d p q := by
  have h2 := two_le_pow d
  have hplace : 2^(d+1)-2+q+2-2^(d+1) = q := by omega
  rw [heapTree, depthOf_level hq, hplace]

lemma tree_kid (p : Bool) (d q : ℕ) (b : Bool) :
    tree prg deep s0 g (d+1) p (2*q+b.toNat) =
      child prg (treeCw prg deep s0 g d) (tree prg deep s0 g d p q) q b := by
  have hdiv : (2*q+b.toNat)/2 = q := by
    have := Bool.toNat_lt b
    omega
  have hmod : ((2*q+b.toNat)%2 == 1) = b := by cases b <;> simp [Nat.add_mod]
  rw [tree, hdiv, hmod]
  rfl

lemma heapTree_kids (p : Bool) {d q : ℕ} (hq : q < 2^(d+1)) :
    let m := 2^(d+1)-2+q
    heapTree prg deep s0 g p (2*m+2) =
        child prg (treeCw prg deep s0 g d) (heapTree prg deep s0 g p m) q false ∧
      heapTree prg deep s0 g p (2*m+3) =
        child prg (treeCw prg deep s0 g d) (heapTree prg deep s0 g p m) q true := by
  intro m
  have h2 := two_le_pow d
  have hpow : 2^(d+1+1) = 2*2^(d+1) := by rw [pow_succ]; ring
  have e0 : 2*m+2 = 2^(d+1+1)-2+(2*q+false.toNat) := by simp; omega
  have e1 : 2*m+3 = 2^(d+1+1)-2+(2*q+true.toNat) := by simp; omega
  rw [e0, e1, heapTree_level p hq, heapTree_level p (by simp; omega), heapTree_level p (by simp; omega),
    tree_kid, tree_kid]
  exact ⟨rfl,rfl⟩

/-! ## One step -/

def ring (st : Expand) : HeapRing.State Block Bool := ⟨st.mem,st.tlevel,st.iter⟩

lemma expandStep_eq (cw : Cw) (st : Expand) (j : ℕ) (hiter : st.iter+3 < arraySlots) :
    let kids := fun n b => child prg cw n j b
    ring (expandStep prg cw st j) = HeapRing.expand arraySlots kids (ring st) ∧
      (expandStep prg cw st j).z =
        (fun b => st.z b^^^(kids (HeapRing.current arraySlots (ring st)) b).1) ∧
      (expandStep prg cw st j).res_list = st.res_list := by
  intro kids
  have hne : ∀ k, 2 ≤ k → k ≤ 3 → slot st.iter ≠ slot (st.iter*2+k) := by
    intro k h2 h3 he
    have hdvd : arraySlots ∣ st.iter*2+k-st.iter := (Nat.modEq_iff_dvd' (by omega)).mp he
    have := Nat.eq_zero_of_dvd_of_lt hdvd (by omega)
    omega
  have hkids : slot (st.iter*2+2) ≠ slot (st.iter*2+3) := by
    intro he
    have hdvd : arraySlots ∣ st.iter*2+3-(st.iter*2+2) := (Nat.modEq_iff_dvd' (by omega)).mp he
    have := Nat.eq_zero_of_dvd_of_lt hdvd (by omega)
    omega
  have hread : ∀ u v : Block, Function.update (Function.update st.mem (slot (st.iter*2+2)) u)
      (slot (st.iter*2+3)) v (slot st.iter) = st.mem (slot st.iter) := by
    intro u v
    rw [Function.update_of_ne (hne 3 (by omega) le_rfl), Function.update_of_ne (hne 2 le_rfl (by omega))]
  refine ⟨?_,?_,rfl⟩
  · simp only [ring, expandStep, hread]
    simp only [HeapRing.expand, kids, child, slot, Nat.mul_comm st.iter 2]
    rfl
  · funext b
    simp only [expandStep, HeapRing.current, ring, kids, child]
    cases b
    · simp only [Bool.false_eq_true, if_false]
      rw [Function.update_of_ne hkids, Function.update_self]
      rfl
    · simp only [if_true]
      rw [Function.update_self]
      rfl

/-! ## Levels -/

structure AtLevel (prg : ℕ → Block → Block) (deep : ℕ) (s0 : Bool → Block) (g : GenInput w)
    (old : Bool → List (BitVec 64)) (i : ℕ) (st : GenState) : Prop where
  cw : ∀ d < i, st.cw d = treeCw prg deep s0 g d
  written : ∀ p, HeapRing.Written arraySlots (heapTree prg deep s0 g p) (ring (st.party p))
    (2*(st.party p).iter+2)
  iter : ∀ p, (st.party p).iter = 2^(i+1)-2
  z : ∀ p, (st.party p).z = levelSum i (tree prg deep s0 g i) p
  res : ∀ p, (st.party p).res_list = old p

variable {old : Bool → List (BitVec 64)} {st : GenState}

lemma genStart_atLevel {o : Bool → Object} (ho : ∀ p, (o p).tlevel = []) :
    AtLevel prg deep s0 g (fun p => (o p).res_list) 0 (genStart prg s0 g o) := by
  have hroot : ∀ p m, m < 2 → heapTree prg deep s0 g p m = (prfSeed prg (s0 p) (m == 1),g.t_int p) := by
    intro p m hm
    have h := @heapTree_level prg deep s0 _ g p 0 m (by omega)
    rw [Nat.zero_add, pow_one, Nat.sub_self, Nat.zero_add] at h
    rw [h, tree, Nat.mod_eq_of_lt hm]
  refine ⟨fun d hd => by omega,fun p => ⟨fun m hm _ => ?_,?_⟩,fun p => rfl,fun p => ?_,fun p => rfl⟩
  · simp only [genStart] at hm
    have hslot : m%arraySlots = m := Nat.mod_eq_of_lt (hm.trans (by norm_num [arraySlots]))
    rw [hslot, hroot p m hm]
    obtain rfl | rfl : m = 0 ∨ m = 1 := by omega
    · rfl
    · rfl
  · have hq : (List.range' 0 2).map (fun m => (heapTree prg deep s0 g p m).2) =
        [g.t_int p,g.t_int p] := by
      simp [List.range'_succ, hroot]
    simp only [ring, genStart, ho, List.nil_append]
    exact hq.symm
  · funext b
    simp only [genStart, levelSum, tree]
    rw [pow_zero, xorAll_one]
    cases b <;> rfl

/-- After the expansion of the first `k` nodes of level `i`, which began at `x`. -/
structure Expanded (prg : ℕ → Block → Block) (deep : ℕ) (s0 : Bool → Block) (g : GenInput w) (i : ℕ)
    (p : Bool) (x : Expand) (k : ℕ) (y : Expand) : Prop where
  written : HeapRing.Written arraySlots (heapTree prg deep s0 g p) (ring y) (2*y.iter+2)
  iter : y.iter = x.iter+k
  z : y.z = fun b => xorAll k fun q => (tree prg deep s0 g (i+1) p (2*q+b.toNat)).1
  res : y.res_list = x.res_list

lemma Expanded.step {p : Bool} {x y : Expand} {k : ℕ} (h : Expanded prg deep s0 g i p x k y)
    (hiter : x.iter = 2^(i+1)-2) (hi : i+2 ≤ 27) (hk : k < 2^(i+1)) :
    Expanded prg deep s0 g i p x (k+1) (expandStep prg (treeCw prg deep s0 g i) y k) := by
  have h2 := two_le_pow i
  have hbound : 2^(i+1) ≤ 2^26 := Nat.pow_le_pow_right (by norm_num) (by omega)
  have hslots := arraySlots_eq
  have hiter' := h.iter
  obtain ⟨hring, hzs, hrs⟩ := expandStep_eq (treeCw prg deep s0 g i) y k (by omega)
  have hplace : y.iter = 2^(i+1)-2+k := by omega
  have hread : HeapRing.readAt arraySlots (heapTree prg deep s0 g p) (2*y.iter+2) y.iter =
      heapTree prg deep s0 g p y.iter := HeapRing.readAt_eq_self (by omega) (by omega)
  obtain ⟨hk0, hk1⟩ := heapTree_kids (g := g) p hk
  rw [← hplace, ← hread] at hk0 hk1
  have hnode : HeapRing.current arraySlots (ring y) = tree prg deep s0 g i p k := by
    rw [h.written.current (by omega) (show y.iter < 2*y.iter+2 by omega)]
    change HeapRing.readAt arraySlots (heapTree prg deep s0 g p) (2*y.iter+2) y.iter = _
    rw [hread, hplace, heapTree_level p (by omega)]
  refine ⟨?_,?_,?_,hrs.trans h.res⟩
  · have hexp : HeapRing.Written arraySlots (heapTree prg deep s0 g p)
        (HeapRing.expand arraySlots (fun n b => child prg (treeCw prg deep s0 g i) n k b) (ring y))
        (2*((ring y).ptr+1)+2) := h.written.expand (by omega) hk0 hk1
    rw [← hring] at hexp
    exact hexp
  · change y.iter+1 = _
    omega
  · refine hzs.trans (funext fun b => ?_)
    simp only [h.z, hnode]
    rw [xorAll_succ, tree_kid, BitVec.xor_comm]

lemma expand_range (p : Bool) {x : Expand}
    (hw : HeapRing.Written arraySlots (heapTree prg deep s0 g p) (ring x) (2*x.iter+2))
    (hiter : x.iter = 2^(i+1)-2) (hz : x.z = fun _ => 0) (hi : i+2 ≤ 27) :
    Expanded prg deep s0 g i p x (2^(i+1))
      ((List.range (2^(i+1))).foldl (expandStep prg (treeCw prg deep s0 g i)) x) :=
  CountLoop.foldl_range ⟨hw,rfl,hz,rfl⟩ fun _ hk _ h => h.step hiter hi hk

lemma levelCw_eq {st : GenState} (h : AtLevel prg deep s0 g old i st) :
    mpc_block1 (fun p => (st.party p).z) (alphabit deep g i) (g.r i) = treeCw prg deep s0 g i := by
  have hz : (fun p => (st.party p).z) = levelSum i (tree prg deep s0 g i) := funext h.z
  rw [hz]
  rfl

lemma AtLevel.next (h : AtLevel prg deep s0 g old i st) (hi : i+1 < deep) (hdeep : deep ≤ 27) :
    AtLevel prg deep s0 g old (i+1) (genLevel prg deep g st i) := by
  have hne : i ≠ deep-1 := by omega
  have hcw := levelCw_eq h
  have hrun := fun p => expand_range (g := g) p (x := { st.party p with z := fun _ => 0 }) (h.written p)
    (h.iter p) rfl (by omega)
  have hpow : 2^(i+1+1) = 2^(i+1)+2^(i+1) := by rw [pow_succ]; ring
  have h2 := two_le_pow i
  rw [genLevel, if_neg hne, hcw]
  refine ⟨fun d hd => ?_,fun p => (hrun p).written,fun p => ?_,fun p => (hrun p).z,
    fun p => (hrun p).res.trans (h.res p)⟩
  · by_cases hdi : d = i
    · subst hdi
      exact Function.update_self ..
    · exact (Function.update_of_ne hdi ..).trans (h.cw d (by omega))
  · refine (hrun p).iter.trans ?_
    have := h.iter p
    simp only [this]
    omega

lemma atLevel_fold {o : Bool → Object} (ho : ∀ p, (o p).tlevel = []) (hdeep : deep ≤ 27) {k : ℕ}
    (hk : k < deep) : AtLevel prg deep s0 g (fun p => (o p).res_list) k
      ((List.range k).foldl (genLevel prg deep g) (genStart prg s0 g o)) :=
  CountLoop.foldl_range (genStart_atLevel ho) fun _ hn _ h => h.next (by omega) hdeep

/-! ## The last level -/

def output (prg : ℕ → Block → Block) (deep : ℕ) (s0 : Bool → Block) (g : GenInput w) (p : Bool)
    (x : ℕ) : BitVec 64 := (leaf prg deep s0 g p x).1.setWidth 64

/-- Before the last level the nodes of the level above lie in the queue and in their slots. -/
lemma last_nodes (p : Bool) {x : Expand} (hdeep : deep ≤ 27) (hpos : 0 < deep)
    (hw : HeapRing.Written arraySlots (heapTree prg deep s0 g p) (ring x) (2*x.iter+2))
    (hiter : x.iter = 2^deep-2) :
    (∀ q < 2^deep, x.mem (slot (2^deep-2+q)) = (tree prg deep s0 g (deep-1) p q).1) ∧
      x.tlevel = (List.range' 0 (2^deep)).map fun q => (tree prg deep s0 g (deep-1) p q).2 := by
  have hlast : deep-1+1 = deep := by omega
  have h2 : 2 ≤ 2^deep := by simpa [hlast] using two_le_pow (deep-1)
  have hbound : 2^deep ≤ 2^27 := Nat.pow_le_pow_right (by norm_num) hdeep
  have hslots := arraySlots_eq
  have hlevel : ∀ q < 2^deep, heapTree prg deep s0 g p (2^deep-2+q) = tree prg deep s0 g (deep-1) p q := by
    intro q hq
    have h := @heapTree_level prg deep s0 _ g p (deep-1) q (by rwa [hlast])
    rwa [hlast] at h
  constructor
  · intro q hq
    have hmem := hw.mem (2^deep-2+q) (by omega) (by omega)
    rw [hlevel q hq] at hmem
    exact hmem
  · have hqueue := hw.queue
    have hlen : 2*x.iter+2-(ring x).ptr = 2^deep := by
      change 2*x.iter+2-x.iter = _
      omega
    rw [hlen] at hqueue
    refine hqueue.trans ?_
    have hptr : (ring x).ptr = 2^deep-2 := hiter
    rw [hptr, List.range'_eq_map_range, List.range'_eq_map_range, List.map_map, List.map_map]
    refine List.map_congr_left fun q hq => ?_
    rw [Function.comp_apply, Function.comp_apply, hlevel q (List.mem_range.mp hq), Nat.zero_add]

/-- After the first `k` leaves, which began at `x`; the outputs are written behind the nodes that are
still to be read. -/
structure Leaves (prg : ℕ → Block → Block) (deep : ℕ) (s0 : Bool → Block) (g : GenInput w) (p : Bool)
    (x : Expand) (k : ℕ) (y : Expand) : Prop where
  iter : y.iter = x.iter+k
  mem : ∀ q, k ≤ q → q < 2^deep → y.mem (slot (2^deep-2+q)) = (tree prg deep s0 g (deep-1) p q).1
  tlevel : ∃ l, y.tlevel =
    (List.range' k (2^deep-k)).map (fun q => (tree prg deep s0 g (deep-1) p q).2)++l
  res : y.res_list = x.res_list++(List.range k).map (output prg deep s0 g p)

lemma Leaves.step {p : Bool} {x y : Expand} {k : ℕ} (h : Leaves prg deep s0 g p x k y) (hdeep : deep ≤ 27)
    (hiter : x.iter = 2^deep-2) (hk : k < 2^deep) : Leaves prg deep s0 g p x (k+1)
      (lastStep (treeCw prg deep s0 g (deep-1)) (treeGamma prg deep s0 g) y k) := by
  have hbound : 2^deep ≤ 2^27 := Nat.pow_le_pow_right (by norm_num) hdeep
  have hslots := arraySlots_eq
  have hiter' := h.iter
  obtain ⟨l, hq⟩ := h.tlevel
  obtain ⟨n, hn⟩ : ∃ n, 2^deep-k = n+1 := ⟨2^deep-k-1,by omega⟩
  have hn' : 2^deep-(k+1) = n := by omega
  have hplace : y.iter = 2^deep-2+k := by omega
  have hseed : y.mem (slot y.iter) = (tree prg deep s0 g (deep-1) p k).1 := by
    rw [hplace]
    exact h.mem k le_rfl hk
  rw [hn, List.range'_succ, List.map_cons, List.cons_append] at hq
  have hstep : lastStep (treeCw prg deep s0 g (deep-1)) (treeGamma prg deep s0 g) y k =
      ⟨Function.update y.mem (slot (y.iter*2+2)) (leaf prg deep s0 g p k).1,
        ((List.range' (k+1) n).map (fun q => (tree prg deep s0 g (deep-1) p q).2)++l)++
          [(leaf prg deep s0 g p k).2,(leaf prg deep s0 g p k).2],
        y.iter+1,y.z,y.res_list++[output prg deep s0 g p k]⟩ := by
    rw [lastStep, hseed, hq]
    rfl
  rw [hstep]
  refine ⟨?_,fun q hkq hqlt => ?_,⟨l++[(leaf prg deep s0 g p k).2,(leaf prg deep s0 g p k).2],?_⟩,
    ?_⟩
  · change y.iter+1 = _
    omega
  · have hne : slot (2^deep-2+q) ≠ slot (y.iter*2+2) := by
      rw [slot, slot, Nat.mod_eq_of_lt (by omega : 2^deep-2+q < arraySlots), hslots]
      omega
    exact (Function.update_of_ne hne ..).trans (h.mem q (by omega) hqlt)
  · rw [hn']
    exact List.append_assoc ..
  · change y.res_list++_ = _
    rw [h.res, List.range_succ, List.map_append, List.append_assoc]
    rfl

lemma last_range (p : Bool) {x : Expand} (hdeep : deep ≤ 27) (hpos : 0 < deep)
    (hw : HeapRing.Written arraySlots (heapTree prg deep s0 g p) (ring x) (2*x.iter+2))
    (hiter : x.iter = 2^deep-2) : Leaves prg deep s0 g p x (2^deep) ((List.range (2^deep)).foldl
      (lastStep (treeCw prg deep s0 g (deep-1)) (treeGamma prg deep s0 g)) x) := by
  obtain ⟨hmem, hqueue⟩ := last_nodes p hdeep hpos hw hiter
  have hstart : Leaves prg deep s0 g p x 0 x := ⟨rfl,fun q _ hq => hmem q hq,
    ⟨[],hqueue.trans (List.append_nil _).symm⟩,(List.append_nil _).symm⟩
  exact CountLoop.foldl_range hstart fun _ hk _ h => h.step hdeep hiter hk

/-- A first `gen` leaves the correction words of the trees, and the leaves in the list. -/
lemma gen_fresh (prg : ℕ → Block → Block) (s0 : Bool → Block) (g : GenInput w) {o : Bool → Object}
    (ho : ∀ p, (o p).tlevel = []) (hpos : 0 < deep) (hdeep : deep ≤ 27) :
    ∃ o', gen prg deep s0 g o = some o' ∧
      (∀ p, ∀ d < deep, (o' p).cw d = treeCw prg deep s0 g d) ∧
      (∀ p, (o' p).gammas = treeGamma prg deep s0 g) ∧
      ∀ p, (o' p).res_list =
        (o p).res_list++(List.range (2^deep)).map (output prg deep s0 g p) := by
  have hat := @atLevel_fold prg deep s0 _ g _ ho hdeep _ (show deep-1 < deep by omega)
  have hlast : deep-1+1 = deep := by omega
  have hfold : (List.range deep).foldl (genLevel prg deep g) (genStart prg s0 g o) =
      genLevel prg deep g ((List.range (deep-1)).foldl (genLevel prg deep g) (genStart prg s0 g o))
        (deep-1) := by
    conv_lhs => rw [← hlast, List.range_succ, List.foldl_append]
    rfl
  generalize (List.range (deep-1)).foldl (genLevel prg deep g) (genStart prg s0 g o) = st at *
  have hcw := levelCw_eq hat
  have hgamma : mpc_gamma (fun p => (st.party p).z) (alphabit deep g (deep-1)) (betas g)
      (treeCw prg deep s0 g (deep-1)).sigma g.r_gamma = treeGamma prg deep s0 g := by
    have hz : (fun p => (st.party p).z) = levelSum (deep-1) (tree prg deep s0 g (deep-1)) :=
      funext hat.z
    rw [hz]
    rfl
  have hrun := fun p => last_range (g := g) p hdeep hpos
    (x := { st.party p with z := fun _ => 0 }) (hat.written p) ((hat.iter p).trans (by rw [hlast]))
  refine ⟨_,if_pos (by omega),?_⟩
  rw [hfold, genLevel, if_pos rfl, hcw, hgamma, hlast]
  refine ⟨fun p d hd => ?_,fun p => rfl,fun p => ?_⟩
  · by_cases hdi : d = deep-1
    · subst hdi
      exact Function.update_self ..
    · exact (Function.update_of_ne hdi ..).trans (hat.cw d (by omega))
  · exact (hrun p).res.trans (by rw [show _ = (o p).res_list from hat.res p])

/-! ## Evaluation -/

lemma evl_eq (p : Bool) (x : BitVec w) (hpos : 0 < deep) {o : Object}
    (hcw : ∀ d < deep, o.cw d = treeCw prg deep s0 g d) (hgamma : o.gammas = treeGamma prg deep s0 g) :
    evl prg deep x o (s0 p) (g.t_int p) = output prg deep s0 g p x.toNat := by
  have hbit : ∀ d, x.getLsbD (deep-1-d) = (x.toNat/2^(deep-1-d)%2 == 1) := by
    intro d
    rw [BitVec.getLsbD, Nat.testBit_eq_decide_div_mod_eq]
    rfl
  have hwalk : ∀ d < deep, ∃ r, (List.range d).foldl (evlStep prg deep x o)
      ⟨prfSeed prg (s0 p) (x.getLsbD (deep-1)),g.t_int p,0⟩ =
        ⟨(tree prg deep s0 g d p (x.toNat/2^(deep-1-d))).1,
          (tree prg deep s0 g d p (x.toNat/2^(deep-1-d))).2,r⟩ := by
    intro d hd
    induction d with
    | zero =>
      have h0 := hbit 0
      rw [Nat.sub_zero] at h0
      refine ⟨0,?_⟩
      rw [tree, Nat.sub_zero, ← h0]
      rfl
    | succ d ih =>
      obtain ⟨r, hr⟩ := ih (by omega)
      have hparent : x.toNat/2^(deep-1-(d+1))/2 = x.toNat/2^(deep-1-d) := by
        rw [Nat.div_div_eq_div_mul, ← pow_succ]
        congr 2
        omega
      refine ⟨r,?_⟩
      rw [List.range_succ, List.foldl_append, hr, List.foldl_cons, List.foldl_nil, evlStep,
        if_neg (by omega), hcw d (by omega), tree, hparent]
      have hlevel : deep-2-d = deep-1-(d+1) := by omega
      rw [hlevel, hbit d, hbit (d+1)]
      rfl
  have hlast : deep-1+1 = deep := by omega
  obtain ⟨r, hr⟩ := hwalk (deep-1) (by omega)
  have hzero : x.toNat/2^(deep-1-(deep-1)) = x.toNat := by simp
  have hb := hbit (deep-1)
  rw [hzero] at hr hb
  rw [evl]
  conv_lhs => rw [← hlast, List.range_succ, List.foldl_append]
  rw [hlast, hr, List.foldl_cons, List.foldl_nil, evlStep, if_pos rfl, hcw _ (by omega), hgamma, hb]
  rfl

end run

end OramPro.FssMpc
