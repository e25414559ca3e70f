import OramPro.RamRun

/-!
# Arrays of more than `2^29` cells

With 30 levels the last level of the tree has `2^29` nodes and the buffer has only `2^28` slots,
since its byte offsets wrap around at `2^32`. The leaf of cell 0 then hangs below a node that a
later one has overwritten. The run below reads cell 0 with the key pair of position 0.
-/
namespace OramPro

open Party HeapRing

/-- The key of the second party for position 0 in a tree of 30 levels. -/
def zeroKey : TreeKey := treeKey copyPrg (pathBits 30 0#64) copyKey.root copyKey.level true

lemma zeroKey_cw (d : ℕ) : (fun t => zeroKey.cw t d) =
    levelCw copyPrg false ⟨0,0,0,0,0⟩ ⟨0,1,false,true⟩ := by
  funext t
  simp only [zeroKey, treeKey, pathCw, copy_path, pathBits_zero]
  rfl

lemma zeroKey_child_off (d : ℕ) (s : Block) (b : Bool) :
    child copyPrg (fun t => zeroKey.cw t d) (s,false) b = (s,false) := by
  rw [zeroKey_cw]
  cases b <;> simp [child, levelCw, pick]

/-- On the path both are kept to the left, and the seeds of the two parties swap to the right. -/
lemma zeroKey_child_path (d : ℕ) (s : Block) (b : Bool) :
    child copyPrg (fun t => zeroKey.cw t d) (s,true) b = (if b then s^^^1 else s,!b) := by
  rw [zeroKey_cw]
  cases b <;> simp [child, levelCw, pick]

def zeroNode (m : ℕ) : Block × Bool := ringNode copyPrg zeroKey m

lemma zeroNode_kids (m : ℕ) : ∃ d,
    zeroNode (2*m+2) = child copyPrg (fun t => zeroKey.cw t d)
      (readAt arraySlots zeroNode (2*m+2) m) false ∧
    zeroNode (2*m+3) = child copyPrg (fun t => zeroKey.cw t d)
      (readAt arraySlots zeroNode (2*m+2) m) true := by
  obtain ⟨d, p, hp, rfl⟩ := exists_level m
  exact ⟨d,ringNode_kids copyPrg zeroKey hp⟩

/-- Only the first node of a level has its control bit set. -/
lemma zeroNode_bit (m : ℕ) (h : (zeroNode m).2 = true) : ∃ i, m+2 = 2^i := by
  induction m using Nat.strong_induction_on with
  | _ m ih =>
    obtain hm | ⟨q, hq⟩ : m < 2 ∨ ∃ q, m = 2*q+2 ∨ m = 2*q+3 := by
      by_cases hm : m < 2
      · exact .inl hm
      · exact .inr ⟨m/2-1,by omega⟩
    · obtain rfl | rfl : m = 0 ∨ m = 1 := by omega
      · exact ⟨1,rfl⟩
      · rw [zeroNode, ringNode, dif_pos hm] at h
        simp [zeroKey, treeKey, pathBits_zero, copyKey, pick] at h
    · obtain ⟨d, h0, h1⟩ := zeroNode_kids q
      cases hb : (zeroNode q).2
      · have hr : readAt arraySlots zeroNode (2*q+2) q =
            ((zeroNode (source arraySlots (2*q+2) q)).1,false) := by rw [readAt, hb]
        rw [hr, zeroKey_child_off] at h0 h1
        rcases hq with rfl | rfl
        · rw [h0] at h; cases h
        · rw [h1] at h; cases h
      · obtain ⟨i, hi⟩ := ih q (by omega) hb
        have hr : readAt arraySlots zeroNode (2*q+2) q =
            ((zeroNode (source arraySlots (2*q+2) q)).1,true) := by rw [readAt, hb]
        rw [hr, zeroKey_child_path] at h0 h1
        rcases hq with rfl | rfl
        · exact ⟨i+1,by rw [pow_succ]; omega⟩
        · rw [h1] at h; cases h

lemma zeroNode_path {i : ℕ} (h0 : 1 ≤ i) (h29 : i ≤ 29) : zeroNode (2^i-2) = (1,true) := by
  induction i, h0 using Nat.le_induction with
  | base =>
    rw [zeroNode, ringNode, dif_pos (by norm_num)]
    simp [zeroKey, treeKey, pathBits_zero, copyKey, pick]
  | succ i hi ih =>
    have h2 : 2 ≤ 2^i := by simpa using Nat.pow_le_pow_right (n := 2) (by norm_num) hi
    have h28 : 2^i ≤ 2^28 := Nat.pow_le_pow_right (by norm_num) (by omega)
    obtain ⟨d, hk, -⟩ := zeroNode_kids (2^i-2)
    have hm : 2*(2^i-2)+2 = 2^(i+1)-2 := by rw [pow_succ]; omega
    have hR := arraySlots_eq
    rw [readAt_eq_self (by omega) (by omega), ih (by omega), zeroKey_child_path, hm] at hk
    exact hk

lemma zeroNode_sibling : zeroNode (2^29-1) = (0,false) := by
  obtain ⟨d, -, hk⟩ := zeroNode_kids (2^28-2)
  have hR := arraySlots_eq
  rw [readAt_eq_self (by rw [hR]; norm_num) (by norm_num), zeroNode_path (by norm_num) (by norm_num),
    zeroKey_child_path] at hk
  exact hk

/-- From node `2^28-1` on each read finds the seed of the node `2^28` further on. -/
lemma zeroNode_wrapped {j : ℕ} (h0 : 1 ≤ j) (h28 : j ≤ 28) :
    zeroNode (2^29+2^j-2) = (0,false) := by
  have hR := arraySlots_eq
  have hoff : ∀ c, 1 ≤ c → c < 2^28 → zeroNode (2^29+c-2) = (0,false) →
      zeroNode (2*(2^28+c-2)+2) = (0,false) := by
    intro c h1 hc hsrc
    obtain ⟨d, hk, -⟩ := zeroNode_kids (2^28+c-2)
    have hbit : (zeroNode (2^28+c-2)).2 = false := by
      by_contra hb
      obtain ⟨i, hi⟩ := zeroNode_bit _ (by simpa using hb)
      have hlo : 28 < i := (Nat.pow_lt_pow_iff_right (a := 2) (by norm_num)).mp (by omega)
      have hhi : i < 29 := (Nat.pow_lt_pow_iff_right (a := 2) (by norm_num)).mp (by omega)
      omega
    have hs : source arraySlots (2*(2^28+c-2)+2) (2^28+c-2) = 2^29+c-2 := by
      rw [source, hR]
      omega
    rw [readAt, hs, hsrc, hbit, zeroKey_child_off] at hk
    exact hk
  induction j, h0 using Nat.le_induction with
  | base => exact hoff 1 le_rfl (by norm_num) zeroNode_sibling
  | succ j hj ih =>
    have h2 : 2 ≤ 2^j := by simpa using Nat.pow_le_pow_right (n := 2) (by norm_num) hj
    have hlt : 2^j < 2^28 := Nat.pow_lt_pow_right (by norm_num) (by omega)
    have hnext := hoff (2^j) (by omega) hlt (ih (by omega))
    rwa [show 2*(2^28+2^j-2)+2 = 2^29+2^(j+1)-2 by rw [pow_succ]; omega] at hnext

/-- At the first party the two seeds are equal everywhere, so nothing is lost. -/
lemma firstNode (m : ℕ) :
    ringNode copyPrg (treeKey copyPrg (pathBits 30 0#64) copyKey.root copyKey.level false) m =
      (0,false) := by
  induction m using Nat.strong_induction_on with
  | _ m ih =>
    by_cases hm : m < 2
    · rw [ringNode, dif_pos hm]
      cases h : m == 1 <;> simp [treeKey, pathBits_zero, copyKey, pick]
    · obtain ⟨d, p, hp, hq⟩ := exists_level (m/2-1)
      obtain ⟨h0, h1⟩ := ringNode_kids copyPrg
        (treeKey copyPrg (pathBits 30 0#64) copyKey.root copyKey.level false) hp
      have hsrc : source arraySlots (2*(m/2-1)+2) (m/2-1) < m :=
        (source_lt (by omega)).trans_le (by omega)
      have hcw : ∀ b, child copyPrg (fun t => (treeKey copyPrg (pathBits 30 0#64) copyKey.root
          copyKey.level false).cw t d) (0,false) b = (0,false) := zeroKey_child_off d 0
      rw [← hq, readAt, ih _ hsrc, ih (m/2-1) (by omega), hcw] at h0 h1
      rcases Nat.mod_two_eq_zero_or_one m with hpar | hpar
      · rwa [show m = 2*(m/2-1)+2 by omega]
      · rwa [show m = 2*(m/2-1)+3 by omega]

/-- One more cell than a buffer of `2^28` slots can serve. -/
def bigLen : DataLen := ⟨2^29+1,by norm_num,by norm_num⟩

def bigAccess : Fss := ramAccess copyPrg 0 bigLen

lemma bigAccess_numBits : bigAccess.numBits = 30 := by decide

lemma ansList_zero :
    ansList bigLen bigAccess (genKeys bigAccess 0 1 copyKey).1 0 = 0 ∧
      ansList bigLen bigAccess (genKeys bigAccess 0 1 copyKey).2 0 = -(1+2^24) := by
  have hlist : ∀ k, ansList bigLen bigAccess k 0 =
      ringLeaf bigAccess k (leaf32 (BitVec.ofNat 32 k.w)) 0 := by
    intro k
    rw [ansList, evaluateEq32, evaluateEqScan_ring (by rw [bigAccess_numBits]; norm_num)
      (by rw [bigAccess_numBits]; norm_num) bigLen.pos
      (by rw [bigAccess_numBits]; norm_num [bigLen])]
    simp [bigLen]
  have hsrc : source arraySlots (2^30-2) (2^29-2+0/2) = 2^29+2^28-2 := by
    norm_num [source, arraySlots]
  have hn : bigAccess.numBits = 30 := bigAccess_numBits
  have h0 : (genKeys bigAccess 0 1 copyKey).1.toTreeKey =
      treeKey copyPrg (pathBits 30 0#64) copyKey.root copyKey.level false := by
    simp only [genKeys, generateTreeEq32, hn]
    rfl
  have h1 : (genKeys bigAccess 0 1 copyKey).2.toTreeKey = zeroKey := by
    simp only [genKeys, generateTreeEq32, hn]
    rfl
  have hw : BitVec.ofNat 32 (genKeys bigAccess 0 1 copyKey).2.w = -(1+2^24) := by
    have hpath : path bigAccess.prg (pathBits bigAccess.numBits (BitVec.zeroExtend 64 (0 : Word)))
        copyKey.root copyKey.level (bigAccess.numBits-1) = ⟨0,1,false,true⟩ := copy_path _ _
    simp only [genKeys, generateTreeEq32, hpath]
    decide
  have hprg : bigAccess.prg = copyPrg := rfl
  have hcw : ∀ d, child copyPrg (fun t => (treeKey copyPrg (pathBits 30 0#64) copyKey.root
      copyKey.level false).cw t d) (0,false) (0%2 == 1) = (0,false) :=
    fun d => zeroKey_child_off d 0 (0%2 == 1)
  constructor
  · rw [hlist, ringLeaf, h0, hn, readAt, hsrc, hprg, firstNode, firstNode, hcw]
    simp only [leaf32, Bool.false_eq_true, if_false]
    decide
  · have hs : (ringNode copyPrg zeroKey (2^29+2^28-2)) = (0,false) :=
      zeroNode_wrapped (j := 28) (by norm_num) le_rfl
    have ht : (ringNode copyPrg zeroKey (2^29-2+0/2)) = (1,true) :=
      zeroNode_path (i := 29) (by norm_num) le_rfl
    rw [hlist, ringLeaf, h1, hn, readAt, hsrc, hprg, hs, ht, zeroKey_child_path, hw]
    decide

lemma fixDelta_zero (N : DataLen) : fixDelta N 0 = 0 := by
  rw [fixDelta, liftDelta_small (by decide)]
  simp

/-- Cell 0 holds 1 and all other cells hold 0. -/
def bigData (p : Party) (j : ℕ) : Word := if p.isFirst ∧ j = 0 then 1 else 0

def zeroDraw : ReadDraw := ⟨0,0,0,0,copyKey,copyKey⟩

lemma read_zero (f : Fss) (N : DataLen) (p : Party) :
    read N f (prepareRead f N zeroDraw) bigData (fun _ => 0) false (· * ·) (· + ·) p =
      if p.isFirst then ansList N f (prepareRead f N zeroDraw p).key 0 else 0 := by
  have hdelta : readDelta N (prepareRead f N zeroDraw) (fun _ => 0) false
      (read1 N (prepareRead f N zeroDraw) fun _ => 0) p = 0 := by
    cases p <;> simp [readDelta, read1, prepareRead, zeroDraw, sub, isFirst, fourpcRecv, fourpcRecvBy, Party.all]
  have hsum := readFold_eq_sum (N := N) linear_word (bigData p)
    (shifted N (ansList N f (prepareRead f N zeroDraw p).key) 0)
  simp only [id_eq, RingHom.id_apply] at hsum
  rw [read, read2, hdelta, fixDelta_zero, hsum, Finset.sum_eq_single_of_mem 0
    (Finset.mem_range.mpr N.pos) (fun j _ hj => by simp [bigData, hj])]
  cases p <;> simp [bigData, isFirst, shifted, sub]

/-- A read of cell 0 returns one more than `2^24` where the array has 1. -/
theorem ram_run_wrong :
    2 ≤ logn bigLen.len ∧ 3*bigLen.len ≤ 2^31 ∧
    ∃ ops cs r outs, List.Forall₂ (RamOp.Opens bigAccess bigLen) ops cs ∧
      (∀ j < bigLen.len, Replicated fun p => bigData p j) ∧
      (Ram.mk bigData [] []).run bigAccess bigLen ops = some (r,outs) ∧
      outs.map openRead = [1+2^24] ∧
      (runArray cs fun j => openRep fun p => bigData p j).2 = [1] := by
  refine ⟨by decide,by decide,[.prepareRead zeroDraw,.read (fun _ => 0) false],
    [.idle,.get 0],_,_,?_,fun _ _ => ⟨rfl,rfl⟩,rfl,?_,rfl⟩
  · refine .cons ⟨copyKey_fine _ rfl _,copyKey_fine _ rfl _⟩ (.cons ?_ .nil)
    exact ⟨bigLen.pos,by decide⟩
  · obtain ⟨h0, h1⟩ := ansList_zero
    have e0 : prepareRead bigAccess bigLen zeroDraw player0 = ⟨(genKeys bigAccess 0 1 copyKey).1,0⟩ :=
      rfl
    have e1 : prepareRead bigAccess bigLen zeroDraw player1 = ⟨(genKeys bigAccess 0 1 copyKey).2,0⟩ :=
      rfl
    have hread : openRead (read bigLen bigAccess (prepareRead bigAccess bigLen zeroDraw) bigData
        (fun _ => 0) false (· * ·) (· + ·)) = 1+2^24 := by
      rw [openRead, read_zero, read_zero, read_zero, read_zero, e0, e1, h0, h1]
      rfl
    exact congrArg (fun w => [w]) hread

end OramPro
