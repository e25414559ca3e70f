import OramPro.FssTree
import OramPro.HeapRing

/-!
# Point-function keys

Generation and evaluation of two-party point-function keys: the 32-bit variant that `Ram`
uses (`generateTreeEq_32` with the full-domain `evaluateEq` into `uint32_t`), and the prime
field variant of the equality gadget and of `SOT`.
-/
namespace OramPro

structure ServerKeyEq extends TreeKey where
  w : ℕ

/-- Bits of `a` along its path, the first relevant bit being bit `n-1`. -/
def pathBits (n : ℕ) (a : BitVec 64) (i : ℕ) : Bool := getBit a (64-n+i+1)

/-! ## Key generation -/

def generateTreeEq32 (f : Fss) (a_i : BitVec 64) (b_i : BitVec 32) (r : RootDraw)
    (lv : ℕ → LevelDraw) : ServerKeyEq × ServerKeyEq :=
  let bits := pathBits f.numBits a_i
  let st := path f.prg bits r lv (f.numBits-1)
  let sInt0 := BitVec.ofNat 64 (head32 st.key0)
  let sInt1 := BitVec.ofNat 64 (head32 st.key1)
  let w : BitVec 64 :=
    if sInt0 ≠ sInt1 then
      let diff := b_i.zeroExtend 64-sInt0+sInt1
      if st.tbit0 then diff else -diff
    else 0
  (⟨treeKey f.prg bits r lv false,w.toNat⟩,⟨treeKey f.prg bits r lv true,w.toNat⟩)

/-- The branch of `generateTreeEq_32` that prints an error is not taken. -/
def SeedsDiffer (f : Fss) (a_i : BitVec 64) (r : RootDraw) (lv : ℕ → LevelDraw) : Prop :=
  let st := path f.prg (pathBits f.numBits a_i) r lv (f.numBits-1)
  BitVec.ofNat 64 (head32 st.key0) ≠ BitVec.ofNat 64 (head32 st.key1)

instance (f : Fss) (a_i : BitVec 64) (r : RootDraw) (lv : ℕ → LevelDraw) :
    Decidable (SeedsDiffer f a_i r lv) := inferInstanceAs (Decidable (_ ≠ _))

/-! ## Full-domain evaluation -/

/-- Byte offsets into `s_array` are `uint32_t` products `16*m`, so node `m` lives in slot
`m` modulo `2^32 / 16`. -/
def arraySlots : ℕ := 2^32/16

lemma arraySlots_eq : arraySlots = 2^28 := by norm_num [arraySlots]

structure Scan (ρ : Type*) where
  ring : HeapRing.State Block Bool
  res : List ρ
  done : Bool

section scan
variable {ρ : Type*} (f : Fss) (k : ServerKeyEq) (leaf : Block × Bool → ρ) (lens : ℕ)

def scanStart : Scan ρ :=
  ⟨⟨fun m => if m = 0 then k.s false else k.s true,[k.t false,k.t true],0⟩,[],false⟩

/-- `res[itr ++] = ans` and the return once `lens` entries are written. -/
def put (st : Scan ρ) (ans : ρ) : Scan ρ :=
  if st.done then st else ⟨st.ring,st.res ++ [ans],decide (lens ≤ st.res.length+1)⟩

/-- The body of the inner loop at level `i`. -/
def scanStep (i : ℕ) (st : Scan ρ) : Scan ρ :=
  if st.done then st
  else
    let kids := child f.prg fun t => k.cw t (i-1)
    if i = f.numBits-1 then
      let n := HeapRing.current arraySlots st.ring
      let st' := put lens (put lens st (leaf (kids n false))) (leaf (kids n true))
      ⟨HeapRing.drop st'.ring,st'.res,st'.done⟩
    else ⟨HeapRing.expand arraySlots kids st.ring,st.res,st.done⟩

/-- The bound `tmp_j` of the inner loop is a `uint32_t` that is doubled for each level. -/
def scanLevel (st : Scan ρ) (i : ℕ) : Scan ρ := (scanStep f k leaf lens i)^[2^i%2^32] st

/-- The loop nest shared by the two full-domain evaluators; `leaf` is what they store. -/
def evaluateEqScan : Scan ρ :=
  (List.range' 1 f.numBits).foldl (scanLevel f k leaf lens) (scanStart k)

end scan

/-- What the `uint32_t` evaluator stores for a leaf. -/
def leaf32 (kww : BitVec 32) (n : Block × Bool) : BitVec 32 :=
  BitVec.ofNat 32 (head32 n.1)+(if n.2 then kww else 0)

/-- `evaluateEq` into a `uint32_t` array. -/
def evaluateEq32 (f : Fss) (k : ServerKeyEq) (lens : ℕ) : List (BitVec 32) :=
  (evaluateEqScan f k (leaf32 (BitVec.ofNat 32 k.w)) lens).res

/-- `mpz_import` of sixteen bytes, the most significant first. -/
def import16 (s : Block) : ℕ := (List.range 16).foldl (fun v j => v*256+(byteAt s j).toNat) 0

/-- `evaluateEq` into an `mpz_class` array. -/
def evaluateEqMpz (f : Fss) (k : ServerKeyEq) (lens : ℕ) : List ℕ :=
  (evaluateEqScan f k (fun n => import16 n.1*k.w%f.prime) lens).res

/-- `evaluateEq` at one point: the last node is expanded once more and its 34 bytes are read as
one number. -/
def evaluateEq (f : Fss) (k : ServerKeyEq) (x : BitVec 64) : ℕ :=
  let s := (walk f.prg k.toTreeKey (pathBits f.numBits x) (f.numBits-1)).1
  let sInt := import16 (prfSeed f.prg s false)*2^128+import16 (prfSeed f.prg s true)
  let t := (prfBit f.prg s false).toNat*256+(prfBit f.prg s true).toNat
  (sInt*2^16+t)*k.w%f.prime

/-! ## What the traversal computes -/

def depthOf (m : ℕ) : ℕ := Nat.log2 (m+2)-1

def heapNode (prg : ℕ → Block → Block) (k : TreeKey) (m : ℕ) : Block × Bool :=
  nodeAt prg k (depthOf m) (m+2-2^(depthOf m+1))

/-- The node that the traversal writes for heap index `m`. Its seed comes from what the slot of
the parent holds when the parent is read. -/
def ringNode (prg : ℕ → Block → Block) (k : TreeKey) (m : ℕ) : Block × Bool :=
  if h : m < 2 then (k.s (m == 1),k.t (m == 1))
  else
    have : HeapRing.source arraySlots (2*(m/2-1)+2) (m/2-1) < m :=
      (HeapRing.source_lt (by omega)).trans_le (by omega)
    child prg (fun t => k.cw t (depthOf m-1))
      ((ringNode prg k (HeapRing.source arraySlots (2*(m/2-1)+2) (m/2-1))).1,
        (ringNode prg k (m/2-1)).2) (m%2 == 1)

lemma depthOf_level {d p : ℕ} (hp : p < 2^(d+1)) : depthOf (2^(d+1)-2+p) = d := by
  have h2 : 2 ≤ 2^(d+1) := by
    simpa using Nat.pow_le_pow_right (n := 2) (by norm_num) (Nat.succ_pos d)
  have hlog : Nat.log2 (2^(d+1)-2+p+2) = d+1 := by
    rw [Nat.log2_eq_iff (by omega), pow_succ 2 (d+1)]
    omega
  rw [depthOf, hlog, Nat.add_sub_cancel]

lemma heapNode_level (prg : ℕ → Block → Block) (k : TreeKey) {d p : ℕ} (hp : p < 2^(d+1)) :
    heapNode prg k (2^(d+1)-2+p) = nodeAt prg k d p := by
  have h2 : 2 ≤ 2^(d+1) := by
    simpa using Nat.pow_le_pow_right (n := 2) (by norm_num) (Nat.succ_pos d)
  rw [heapNode, depthOf_level hp, show 2^(d+1)-2+p+2-2^(d+1) = p by omega]

lemma exists_level (m : ℕ) : ∃ d p, p < 2^(d+1) ∧ m = 2^(d+1)-2+p := by
  have h0 : 2^(Nat.log2 (m+2)) ≤ m+2 := Nat.log2_self_le (by omega)
  have h1 : m+2 < 2^(Nat.log2 (m+2)+1) := Nat.lt_log2_self
  obtain ⟨d, hd⟩ : ∃ d, Nat.log2 (m+2) = d+1 := by
    refine ⟨Nat.log2 (m+2)-1,?_⟩
    have : Nat.log2 (m+2) ≠ 0 := fun h => by rw [h] at h1; omega
    omega
  rw [hd] at h0 h1
  refine ⟨d,m+2-2^(d+1),?_,?_⟩
  · rw [pow_succ 2 (d+1)] at h1; omega
  · have h2 : 2 ≤ 2^(d+1) := by
      simpa using Nat.pow_le_pow_right (n := 2) (by norm_num) (Nat.succ_pos d)
    omega

lemma depthOf_kids {d p : ℕ} (hp : p < 2^(d+1)) :
    depthOf (2*(2^(d+1)-2+p)+2) = d+1 ∧ depthOf (2*(2^(d+1)-2+p)+3) = d+1 := by
  have h2 : 2 ≤ 2^(d+1) := by
    simpa using Nat.pow_le_pow_right (n := 2) (by norm_num) (Nat.succ_pos d)
  have hpow : 2^(d+1+1) = 2*2^(d+1) := by rw [pow_succ]; ring
  constructor
  · rw [show 2*(2^(d+1)-2+p)+2 = 2^(d+1+1)-2+2*p by omega]
    exact depthOf_level (by omega)
  · rw [show 2*(2^(d+1)-2+p)+3 = 2^(d+1+1)-2+(2*p+1) by omega]
    exact depthOf_level (by omega)

lemma ringNode_kids (prg : ℕ → Block → Block) (k : TreeKey) {d p : ℕ} (hp : p < 2^(d+1)) :
    let m := 2^(d+1)-2+p
    let n := HeapRing.readAt arraySlots (ringNode prg k) (2*m+2) m
    ringNode prg k (2*m+2) = child prg (fun t => k.cw t d) n false ∧
      ringNode prg k (2*m+3) = child prg (fun t => k.cw t d) n true := by
  intro m n
  have h0 : depthOf (2*m+2) = d+1 := (depthOf_kids hp).1
  have h1 : depthOf (2*m+3) = d+1 := (depthOf_kids hp).2
  have e0 : (2*m+2)/2-1 = m := by omega
  have e1 : (2*m+3)/2-1 = m := by omega
  constructor
  · have hb : ((2*m+2)%2 == 1) = false := by simp
    rw [ringNode, dif_neg (by omega)]
    simp only [h0, e0, hb]
    rfl
  · have hb : ((2*m+3)%2 == 1) = true := by simp [Nat.add_mod]
    rw [ringNode, dif_neg (by omega)]
    simp only [h1, e1, hb]
    rfl

lemma heapNode_kids (prg : ℕ → Block → Block) (k : TreeKey) {d p : ℕ} (hp : p < 2^(d+1)) :
    let m := 2^(d+1)-2+p
    heapNode prg k (2*m+2) = child prg (fun t => k.cw t d) (heapNode prg k m) false ∧
      heapNode prg k (2*m+3) = child prg (fun t => k.cw t d) (heapNode prg k m) true := by
  intro m
  have h2 : 2 ≤ 2^(d+1) := by
    simpa using Nat.pow_le_pow_right (n := 2) (by norm_num) (Nat.succ_pos d)
  have hpow : 2^(d+1+1) = 2*2^(d+1) := by rw [pow_succ]; ring
  have e0 : 2*m+2 = 2^(d+1+1)-2+2*p := by omega
  have e1 : 2*m+3 = 2^(d+1+1)-2+(2*p+1) := by omega
  have hodd : (2*p+1)/2 = p := by omega
  rw [e0, e1, heapNode_level prg k hp, heapNode_level prg k (by omega),
    heapNode_level prg k (by omega)]
  simp [nodeAt, hodd, Nat.add_mod]

lemma ringNode_root (prg : ℕ → Block → Block) (k : TreeKey) {m : ℕ} (hm : m < 2) :
    ringNode prg k m = heapNode prg k m := by
  have hlev := heapNode_level prg k (d := 0) (p := m) (by omega)
  simp only [zero_add, pow_one, Nat.sub_self] at hlev
  rw [ringNode, dif_pos hm, hlev, nodeAt, Nat.mod_eq_of_lt hm]

/-- Nodes of the levels that fit in the buffer are the nodes of the tree. -/
lemma ringNode_eq_heapNode (prg : ℕ → Block → Block) (k : TreeKey) (m : ℕ)
    (hm : m < 2*arraySlots-2) : ringNode prg k m = heapNode prg k m := by
  induction m using Nat.strong_induction_on with
  | _ m ih =>
    by_cases h2 : m < 2
    · exact ringNode_root prg k h2
    · obtain ⟨d, p, hp, hq⟩ := exists_level (m/2-1)
      obtain ⟨r0, r1⟩ := ringNode_kids prg k hp
      obtain ⟨h0, h1⟩ := heapNode_kids prg k hp
      rw [← hq] at r0 r1 h0 h1
      rw [HeapRing.readAt_eq_self (by omega) (by omega), ih (m/2-1) (by omega) (by omega)] at r0 r1
      rcases Nat.mod_two_eq_zero_or_one m with hpar | hpar
      · rw [show m = 2*(m/2-1)+2 by omega, r0, h0]
      · rw [show m = 2*(m/2-1)+3 by omega, r1, h1]

section scan
variable {ρ : Type*} {f : Fss} {k : ServerKeyEq} {leaf : Block × Bool → ρ} {lens : ℕ}

lemma scanStep_expand {i : ℕ} (hi : i ≠ f.numBits-1) {st : Scan ρ} (hd : st.done = false) :
    scanStep f k leaf lens i st =
      ⟨HeapRing.expand arraySlots (child f.prg fun t => k.cw t (i-1)) st.ring,st.res,false⟩ := by
  simp [scanStep, hi, hd]

lemma scanLevel_expand {i : ℕ} (hi : i ≠ f.numBits-1) {st : Scan ρ} (hd : st.done = false) :
    scanLevel f k leaf lens st i =
      ⟨(HeapRing.expand arraySlots (child f.prg fun t => k.cw t (i-1)))^[2^i%2^32] st.ring,
        st.res,false⟩ := by
  unfold scanLevel
  generalize 2^i%2^32 = c
  induction c with
  | zero => simp [← hd]
  | succ c ih => rw [Function.iterate_succ_apply', ih, scanStep_expand hi rfl,
      Function.iterate_succ_apply']

/-- The state at the start of level `i`, with no leaf stored yet. -/
structure AtLevel (f : Fss) (k : ServerKeyEq) (st : Scan ρ) (i : ℕ) : Prop where
  written : HeapRing.Written arraySlots (ringNode f.prg k.toTreeKey) st.ring (2*st.ring.ptr+2)
  ptr : st.ring.ptr = 2^i-2
  res : st.res = []
  done : st.done = false

lemma scanStart_atLevel : AtLevel f k (scanStart k : Scan ρ) 1 := by
  refine ⟨⟨?_,?_⟩,rfl,rfl,rfl⟩
  · intro m hm _
    simp only [scanStart] at hm
    obtain rfl | rfl : m = 0 ∨ m = 1 := by omega
    · rw [ringNode, dif_pos (by norm_num)]; rfl
    · rw [ringNode, dif_pos (by norm_num)]; rfl
  · have hq : (List.range' 0 2).map (fun m => (ringNode f.prg k.toTreeKey m).2) =
        [(ringNode f.prg k.toTreeKey 0).2,(ringNode f.prg k.toTreeKey 1).2] := rfl
    simp only [scanStart]
    rw [hq, ringNode, dif_pos (by norm_num), ringNode, dif_pos (by norm_num)]
    rfl

/-- Below level 32 the bound of the inner loop has not wrapped around. -/
lemma levelCount {i : ℕ} (hi : i < 32) : 2^i%2^32 = 2^i :=
  Nat.mod_eq_of_lt (Nat.pow_lt_pow_right (by norm_num) hi)

lemma AtLevel.next {st : Scan ρ} {d : ℕ} (h : AtLevel f k st (d+1)) (hn : d+1 ≠ f.numBits-1)
    (hd : d+1 < 32) : AtLevel f k (scanLevel f k leaf lens st (d+1)) (d+1+1) := by
  have h2 : 2 ≤ 2^(d+1) := by
    simpa using Nat.pow_le_pow_right (n := 2) (by norm_num) (Nat.succ_pos d)
  have hptr := h.ptr
  have hkid : ∀ m, st.ring.ptr ≤ m → m < st.ring.ptr+2^(d+1) →
      let n := HeapRing.readAt arraySlots (ringNode f.prg k.toTreeKey) (2*m+2) m
      ringNode f.prg k.toTreeKey (2*m+2) = child f.prg (fun t => k.cw t d) n false ∧
        ringNode f.prg k.toTreeKey (2*m+3) = child f.prg (fun t => k.cw t d) n true := by
    intro m h0 h1
    have hm : m = 2^(d+1)-2+(m-st.ring.ptr) := by omega
    have hlev := ringNode_kids f.prg k.toTreeKey (d := d) (p := m-st.ring.ptr) (by omega)
    rwa [← hm] at hlev
  obtain ⟨hw, hp⟩ := h.written.iterate (by norm_num [arraySlots]) (2^(d+1)) hkid
  rw [scanLevel_expand hn h.done, levelCount hd]
  refine ⟨?_,?_,h.res,rfl⟩
  · rw [Nat.add_sub_cancel, hp]; exact hw
  · rw [Nat.add_sub_cancel, hp, hptr, pow_succ 2 (d+1)]
    omega

/-- Levels `1 .. n-2` write the nodes of level `n-1`. -/
lemma atLevel_fold {c : ℕ} (hc : c+2 ≤ f.numBits) (h32 : c < 32) :
    AtLevel f k ((List.range' 1 c).foldl (scanLevel f k leaf lens) (scanStart k)) (c+1) := by
  induction c with
  | zero => exact scanStart_atLevel
  | succ c ih =>
    rw [List.range'_concat, List.foldl_append]
    simp only [List.foldl_cons, List.foldl_nil, one_mul, Nat.add_comm 1 c]
    exact (ih (by omega) (by omega)).next (by omega) h32

/-- What the traversal stores for leaf `x`. -/
def ringLeaf (f : Fss) (k : ServerKeyEq) (leaf : Block × Bool → ρ) (x : ℕ) : ρ :=
  leaf (child f.prg (fun t => k.cw t (f.numBits-2))
    (HeapRing.readAt arraySlots (ringNode f.prg k.toTreeKey) (2^f.numBits-2)
      (2^(f.numBits-1)-2+x/2)) (x%2 == 1))

def leafAt (f : Fss) (k : ServerKeyEq) (leaf : Block × Bool → ρ) (x : ℕ) : ρ :=
  leaf (nodeAt f.prg k.toTreeKey (f.numBits-1) x)

lemma put_next {st : Scan ρ} {L : ℕ → ρ} {c : ℕ} (hr : st.res = (List.range c).map L)
    (hd : st.done = false) :
    put lens st (L c) = ⟨st.ring,(List.range (c+1)).map L,decide (lens ≤ c+1)⟩ := by
  simp [put, hd, hr, List.range_succ]

/-- After `j` steps of the last level either `2j` leaves are stored, or all of them. -/
def Emitted (f : Fss) (k : ServerKeyEq) (leaf : Block × Bool → ρ) (lens j : ℕ)
    (st : Scan ρ) : Prop :=
  (st.done = false ∧ 2*j < lens ∧ st.res = (List.range (2*j)).map (ringLeaf f k leaf) ∧
    st.ring.ptr = 2^(f.numBits-1)-2+j ∧
    HeapRing.Written arraySlots (ringNode f.prg k.toTreeKey) st.ring (2^f.numBits-2)) ∨
  (st.done = true ∧ st.res = (List.range lens).map (ringLeaf f k leaf))

lemma Emitted.step {st : Scan ρ} {j : ℕ} (hn : 2 ≤ f.numBits) (hl : lens ≤ 2^f.numBits)
    (h : Emitted f k leaf lens j st) :
    Emitted f k leaf lens (j+1) (scanStep f k leaf lens (f.numBits-1) st) := by
  rcases h with ⟨hd, hj, hres, hptr, hw⟩ | ⟨hd, hres⟩
  · have h2 : 2 ≤ 2^(f.numBits-1) := by
      simpa using Nat.pow_le_pow_right (n := 2) (by norm_num) (show 1 ≤ f.numBits-1 by omega)
    have hpow : 2^f.numBits = 2*2^(f.numBits-1) := by
      rw [mul_comm, ← pow_succ, show f.numBits-1+1 = f.numBits by omega]
    have hlt : st.ring.ptr < 2^f.numBits-2 := by omega
    have hcur := hw.current (by norm_num [arraySlots]) hlt
    rw [hptr] at hcur
    have hleaf0 : leaf (child f.prg (fun t => k.cw t (f.numBits-2))
        (HeapRing.current arraySlots st.ring) false) = ringLeaf f k leaf (2*j) := by
      simp [ringLeaf, hcur]
    have hleaf1 : leaf (child f.prg (fun t => k.cw t (f.numBits-2))
        (HeapRing.current arraySlots st.ring) true) = ringLeaf f k leaf (2*j+1) := by
      simp [ringLeaf, hcur, show (2*j+1)/2 = j by omega, Nat.add_mod]
    have hstep : scanStep f k leaf lens (f.numBits-1) st =
        ⟨HeapRing.drop (put lens (put lens st (ringLeaf f k leaf (2*j)))
            (ringLeaf f k leaf (2*j+1))).ring,
          (put lens (put lens st (ringLeaf f k leaf (2*j))) (ringLeaf f k leaf (2*j+1))).res,
          (put lens (put lens st (ringLeaf f k leaf (2*j))) (ringLeaf f k leaf (2*j+1))).done⟩ := by
      simp only [scanStep, hd, Bool.false_eq_true, if_false, if_true,
        show f.numBits-1-1 = f.numBits-2 by omega, hleaf0, hleaf1]
    rw [hstep, put_next hres hd]
    by_cases h1 : lens ≤ 2*j+1
    · have he : lens = 2*j+1 := by omega
      right
      simp [put, he]
    · rw [put_next rfl (by simpa using h1)]
      by_cases h3 : lens ≤ 2*j+1+1
      · have he : lens = 2*j+1+1 := by omega
        right
        simp [he]
      · left
        refine ⟨by simpa using h3,by omega,by simp [Nat.mul_succ],?_,hw.drop hlt⟩
        simp only [HeapRing.drop_ptr, hptr]
        omega
  · right
    simp [scanStep, hd, hres]

lemma emitted_iterate {st : Scan ρ} (hn : 2 ≤ f.numBits) (hl : lens ≤ 2^f.numBits)
    (h : Emitted f k leaf lens 0 st) (c : ℕ) :
    Emitted f k leaf lens c ((scanStep f k leaf lens (f.numBits-1))^[c] st) := by
  induction c with
  | zero => exact h
  | succ c ih => rw [Function.iterate_succ_apply']; exact ih.step hn hl

lemma scanLevel_done {i : ℕ} {st : Scan ρ} (hd : st.done = true) :
    scanLevel f k leaf lens st i = st := by
  unfold scanLevel
  generalize 2^i%2^32 = c
  induction c with
  | zero => rfl
  | succ c ih => rw [Function.iterate_succ_apply', ih]; simp [scanStep, hd]

/-- After level `n-1` all results are stored. -/
lemma scan_last (hn : 2 ≤ f.numBits) (h32 : f.numBits ≤ 32) (hpos : 0 < lens)
    (hl : lens ≤ 2^f.numBits) :
    let st := (List.range' 1 (f.numBits-1)).foldl (scanLevel f k leaf lens) (scanStart k)
    st.done = true ∧ st.res = (List.range lens).map (ringLeaf f k leaf) := by
  obtain ⟨d, hd⟩ : ∃ d, f.numBits = d+2 := ⟨f.numBits-2, by omega⟩
  have hlast : AtLevel f k ((List.range' 1 d).foldl (scanLevel f k leaf lens) (scanStart k)) (d+1) :=
    atLevel_fold (by omega) (by omega)
  have hpow : 2^(d+2) = 2*2^(d+1) := by rw [pow_succ]; ring
  have h2 : 2 ≤ 2^(d+1) := by
    simpa using Nat.pow_le_pow_right (n := 2) (by norm_num) (Nat.succ_pos d)
  have hem : Emitted f k leaf lens 0
      ((List.range' 1 d).foldl (scanLevel f k leaf lens) (scanStart k)) := by
    left
    refine ⟨hlast.done,by omega,by simpa using hlast.res,?_,?_⟩
    · rw [hlast.ptr, hd]; rfl
    · have hw := hlast.written
      have hp := hlast.ptr
      rwa [show 2*((List.range' 1 d).foldl (scanLevel f k leaf lens) (scanStart k)).ring.ptr+2 =
        2^f.numBits-2 by rw [hp, hd]; omega] at hw
  have hfin := emitted_iterate hn hl hem (2^(f.numBits-1))
  rw [← levelCount (show f.numBits-1 < 32 by omega)] at hfin
  rw [show f.numBits-1 = d+1 by omega, List.range'_concat, List.foldl_append]
  simp only [List.foldl_cons, List.foldl_nil, one_mul]
  rw [show 1+d = f.numBits-1 by omega]
  rcases hfin with ⟨-, hlt, -⟩ | hdone
  · rw [levelCount (by omega), hd] at hlt
    rw [hd] at hl
    simp only [show d+2-1 = d+1 by omega] at hlt
    omega
  · exact hdone

/-- The evaluator returns the leaves below the nodes it finds in the buffer, in order. -/
theorem evaluateEqScan_ring (hn : 2 ≤ f.numBits) (h32 : f.numBits ≤ 32) (hpos : 0 < lens)
    (hl : lens ≤ 2^f.numBits) :
    (evaluateEqScan f k leaf lens).res = (List.range lens).map (ringLeaf f k leaf) := by
  obtain ⟨hdone, hres⟩ := @scan_last ρ f k leaf lens hn h32 hpos hl
  unfold evaluateEqScan
  rw [show f.numBits = f.numBits-1+1 by omega, List.range'_concat, List.foldl_append]
  exact (congrArg Scan.res (scanLevel_done hdone)).trans hres

lemma ringLeaf_eq_leafAt (hn : 2 ≤ f.numBits) (hR : 2^(f.numBits-1) ≤ arraySlots) {x : ℕ}
    (hx : x < 2^f.numBits) : ringLeaf f k leaf x = leafAt f k leaf x := by
  obtain ⟨d, hd⟩ : ∃ d, f.numBits = d+2 := ⟨f.numBits-2, by omega⟩
  have hpow : 2^(d+2) = 2*2^(d+1) := by rw [pow_succ]; ring
  have h2 : 2 ≤ 2^(d+1) := by
    simpa using Nat.pow_le_pow_right (n := 2) (by norm_num) (Nat.succ_pos d)
  rw [ringLeaf, leafAt]
  simp only [hd, show d+2-1 = d+1 by omega, Nat.add_sub_cancel] at hR hx ⊢
  rw [HeapRing.readAt_eq_self (by omega) (by omega),
    ringNode_eq_heapNode _ _ _ (by omega), heapNode_level _ _ (by omega), nodeAt]

/-- With more than 32 levels the inner loop of the level that stores the leaves does not run. -/
theorem evaluateEqScan_deep (h33 : 33 ≤ f.numBits) : (evaluateEqScan f k leaf lens).res = [] := by
  have hskip : 2^(f.numBits-1)%2^32 = 0 :=
    Nat.mod_eq_zero_of_dvd (pow_dvd_pow 2 (by omega : 32 ≤ f.numBits-1))
  have hstep : ∀ (st : Scan ρ) i, st.done = false →
      (scanLevel f k leaf lens st i).res = st.res ∧ (scanLevel f k leaf lens st i).done = false := by
    intro st i hd
    by_cases hi : i = f.numBits-1
    · rw [scanLevel, hi, hskip]
      exact ⟨rfl,hd⟩
    · rw [scanLevel_expand hi hd]
      exact ⟨rfl,rfl⟩
  have hrun : ∀ (levels : List ℕ) (st : Scan ρ), st.done = false →
      (levels.foldl (scanLevel f k leaf lens) st).res = st.res := by
    intro levels
    induction levels with
    | nil => exact fun _ _ => rfl
    | cons i levels ih => exact fun st hd => (ih _ (hstep st i hd).2).trans (hstep st i hd).1
  exact hrun _ _ rfl

/-- As long as the last level fits in the buffer, the evaluator lists the leaves of the tree. -/
theorem evaluateEqScan_res (hn : 2 ≤ f.numBits) (hR : 2^(f.numBits-1) ≤ arraySlots)
    (hpos : 0 < lens) (hl : lens ≤ 2^f.numBits) :
    (evaluateEqScan f k leaf lens).res = (List.range lens).map (leafAt f k leaf) := by
  have h32 : f.numBits ≤ 32 := by
    have : f.numBits-1 ≤ 28 := by
      rw [arraySlots_eq] at hR
      exact (Nat.pow_le_pow_iff_right (a := 2) (by norm_num)).mp hR
    omega
  rw [evaluateEqScan_ring hn h32 hpos hl]
  refine List.map_congr_left fun x hx => ringLeaf_eq_leafAt hn hR ?_
  have := List.mem_range.mp hx
  omega

end scan

/-! ## The two lists differ at one point -/

lemma pathBits_zero (n i : ℕ) : pathBits n 0#64 i = false := by
  simp [pathBits, getBit]

lemma prefixOf_pathBits {n d : ℕ} (hn : n ≤ 64) (a : BitVec 64) (hd : d < n) :
    prefixOf (pathBits n a) d = a.toNat/2^(n-1-d)%2^(d+1) := by
  have hbit : ∀ i < n, (pathBits n a i).toNat = a.toNat/2^(n-1-i)%2 := by
    intro i hi
    rw [pathBits, getBit, show 64-(64-n+i+1) = n-1-i by omega, BitVec.getLsbD, Nat.toNat_testBit]
  induction d with
  | zero => simpa [prefixOf] using hbit 0 hd
  | succ d ih =>
    have hhalf : a.toNat/2^(n-1-d) = a.toNat/2^(n-1-(d+1))/2 := by
      rw [Nat.div_div_eq_div_mul, ← pow_succ, show n-1-(d+1)+1 = n-1-d by omega]
    rw [prefixOf, ih (by omega), hbit (d+1) hd, hhalf, pow_succ' 2 (d+1), Nat.mod_mul, add_comm]

lemma prefixOf_leaf {n : ℕ} (h0 : 0 < n) (hn : n ≤ 64) (a : BitVec 64) :
    prefixOf (pathBits n a) (n-1) = a.toNat%2^n := by
  rw [prefixOf_pathBits hn a (by omega)]
  simp [show n-1+1 = n by omega]

section keys
variable {f : Fss} {a : BitVec 64} {b : BitVec 32} {r : RootDraw} {lv : ℕ → LevelDraw}

lemma leaf32_path (h : SeedsDiffer f a r lv) :
    let k := generateTreeEq32 f a b r lv
    let x := prefixOf (pathBits f.numBits a) (f.numBits-1)
    leafAt f k.1 (leaf32 (BitVec.ofNat 32 k.1.w)) x
      -leafAt f k.2 (leaf32 (BitVec.ofNat 32 k.2.w)) x = b := by
  have hne : BitVec.ofNat 64 (head32 (path f.prg (pathBits f.numBits a) r lv (f.numBits-1)).key0) ≠
      BitVec.ofNat 64 (head32 (path f.prg (pathBits f.numBits a) r lv (f.numBits-1)).key1) := h
  simp only [generateTreeEq32, leafAt, nodeAt_path, hne, ne_eq, not_false_eq_true, if_true,
    Bool.false_eq_true, if_false, leaf32, path_tbit]
  generalize path f.prg (pathBits f.numBits a) r lv (f.numBits-1) = st
  -- truncation to 32 bits commutes with the 64-bit sum and with negation
  have hcut : BitVec.ofNat 32 (b.zeroExtend 64-BitVec.ofNat 64 (head32 st.key0)
      +BitVec.ofNat 64 (head32 st.key1)).toNat =
      b-BitVec.ofNat 32 (head32 st.key0)+BitVec.ofNat 32 (head32 st.key1) := by
    bv_omega
  have hneg : ∀ z : BitVec 64, BitVec.ofNat 32 (-z).toNat = -BitVec.ofNat 32 z.toNat := by
    intro z; bv_omega
  cases st.tbit0
  · simp only [Bool.false_eq_true, if_false, Bool.not_false, if_true, hneg, hcut]
    ring
  · simp only [if_true, Bool.not_true, Bool.false_eq_true, if_false, hcut]
    ring

lemma leaf32_off_path {x : ℕ} (hx : x < 2^f.numBits)
    (hne : x ≠ prefixOf (pathBits f.numBits a) (f.numBits-1)) (h0 : 0 < f.numBits) :
    let k := generateTreeEq32 f a b r lv
    leafAt f k.1 (leaf32 (BitVec.ofNat 32 k.1.w)) x =
      leafAt f k.2 (leaf32 (BitVec.ofNat 32 k.2.w)) x := by
  have hx' : x < 2^(f.numBits-1+1) := by rwa [show f.numBits-1+1 = f.numBits by omega]
  simp only [generateTreeEq32, leafAt, nodeAt_off_path f.prg _ r lv hx' hne]

/-- The keys of `generateTreeEq_32` expand to lists that differ by `b` at `a` and agree elsewhere. -/
theorem evaluateEq32_sub (h : SeedsDiffer f a r lv) (hn : 2 ≤ f.numBits) (h29 : f.numBits ≤ 29)
    {lens x : ℕ} (hl : lens ≤ 2^f.numBits) (hx : x < lens) :
    let k := generateTreeEq32 f a b r lv
    (evaluateEq32 f k.1 lens).getD x 0-(evaluateEq32 f k.2 lens).getD x 0 =
      if x = a.toNat%2^f.numBits then b else 0 := by
  have hR : 2^(f.numBits-1) ≤ arraySlots :=
    (Nat.pow_le_pow_right (by norm_num) (by omega : f.numBits-1 ≤ 28)).trans (by norm_num [arraySlots])
  have hlist : ∀ k : ServerKeyEq, (evaluateEq32 f k lens).getD x 0 =
      leafAt f k (leaf32 (BitVec.ofNat 32 k.w)) x := by
    intro k
    rw [evaluateEq32, evaluateEqScan_res hn hR (by omega) hl]
    simp [hx]
  simp only [hlist]
  rw [← prefixOf_leaf (by omega) (by omega) a]
  split
  · next he => rw [he]; exact leaf32_path h
  · next hne => rw [leaf32_off_path (by omega) hne (by omega), sub_self]

end keys

end OramPro
