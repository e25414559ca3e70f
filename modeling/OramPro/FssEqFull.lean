import OramPro.FssEqPrime

/-!
# Full-domain evaluation with two queues

`evaluateEq_full` keeps seeds and control bits in two queues and expands whole levels. At the last
level it reads the 34 bytes of each node, like the pointwise evaluator.
-/
namespace OramPro

/-- The queues of seeds and control bits, and what is stored. -/
structure FullState where
  s_tmp : List Block
  t_tmp : List Bool
  res : List ℕ

section full
variable (f : Fss) (k : ServerKeyEq) (lens : ℕ)

/-- The body of the inner loop at level `i`, and whether it breaks. It fails when a queue is popped
while it is empty. -/
def fullStep (i : ℕ) (st : FullState) : Option (FullState × Bool) :=
  match st.s_tmp, st.t_tmp with
  | s :: s_tmp, t :: t_tmp =>
    if i = f.numBits then
      let res := st.res ++ [import34 f.prg s*k.w%f.prime]
      if lens ≤ res.length then some (⟨[],t_tmp,res⟩,true) else some (⟨s_tmp,t_tmp,res⟩,false)
    else
      let kid := child f.prg (fun t => k.cw t (i-1)) (s,t)
      some (⟨s_tmp ++ [(kid false).1,(kid true).1],t_tmp ++ [(kid false).2,(kid true).2],st.res⟩,
        false)
  | _, _ => none

/-- The inner loop, for at most `j` turns. -/
def fullLoop (i : ℕ) : ℕ → FullState → Option FullState
  | 0, st => some st
  | j+1, st =>
    match fullStep f k lens i st with
    | none => none
    | some (st',true) => some st'
    | some (st',false) => fullLoop i j st'

def fullStart : FullState := ⟨[k.s false,k.s true],[k.t false,k.t true],[]⟩

/-- `evaluateEq_full`; the bound `tmp_j` of the inner loop is a `uint32_t`. -/
def evaluateEqFull : Option (List ℕ) :=
  ((List.range' 1 f.numBits).foldlM (fun st i => fullLoop f k lens i (2^i%2^32) st)
    (fullStart k)).map FullState.res

end full

/-! ## One level after the other -/

/-- Both queues as one list of nodes. -/
def queued (q : List (Block × Bool)) (res : List ℕ) : FullState :=
  ⟨q.map Prod.fst,q.map Prod.snd,res⟩

/-- The nodes of a level, from left to right. -/
def levelNodes (prg : ℕ → Block → Block) (k : TreeKey) (d : ℕ) : List (Block × Bool) :=
  (List.range (2^(d+1))).map (nodeAt prg k d)

lemma range_flatMap_pair {α : Type*} (g : ℕ → α) (m : ℕ) :
    (List.range m).flatMap (fun p => [g (2*p),g (2*p+1)]) = (List.range (2*m)).map g := by
  induction m with
  | zero => rfl
  | succ m ih =>
    rw [List.range_succ, List.flatMap_append, ih, Nat.mul_succ, List.range_succ, List.range_succ]
    simp

lemma levelNodes_succ (prg : ℕ → Block → Block) (k : TreeKey) (d : ℕ) :
    ((levelNodes prg k d).flatMap fun n => [child prg (fun t => k.cw t d) n false,
      child prg (fun t => k.cw t d) n true]) = levelNodes prg k (d+1) := by
  have hpair := range_flatMap_pair (nodeAt prg k (d+1)) (2^(d+1))
  have hodd : ∀ p, (2*p+1)/2 = p := fun p => by omega
  simp only [nodeAt, hodd, Nat.mul_div_right _ Nat.two_pos, Nat.mul_mod_right, Nat.mul_add_mod] at hpair
  rw [levelNodes, levelNodes, List.flatMap_map, pow_succ' 2 (d+1)]
  exact hpair

section full
variable {f : Fss} {k : ServerKeyEq} {lens : ℕ}

/-- Below the last level each node is replaced by its children, which come after the others. -/
lemma fullLoop_expand {i : ℕ} (hi : i ≠ f.numBits) (q rest : List (Block × Bool)) (res : List ℕ) :
    fullLoop f k lens i q.length (queued (q ++ rest) res) =
      some (queued (rest ++ q.flatMap fun n => [child f.prg (fun t => k.cw t (i-1)) n false,
        child f.prg (fun t => k.cw t (i-1)) n true]) res) := by
  induction q generalizing rest with
  | nil => simp [fullLoop]
  | cons n q ih =>
    have hstep : fullStep f k lens i (queued (n :: (q ++ rest)) res) =
        some (queued (q ++ (rest ++ [child f.prg (fun t => k.cw t (i-1)) n false,
          child f.prg (fun t => k.cw t (i-1)) n true])) res,false) := by
      simp [fullStep, queued, hi]
    rw [List.cons_append, List.length_cons, fullLoop, hstep]
    simp only
    rw [ih, List.flatMap_cons, List.append_assoc]

lemma fullLoop_level {d : ℕ} (hd : d+1 ≠ f.numBits) (h32 : d+1 < 32) :
    fullLoop f k lens (d+1) (2^(d+1)%2^32) (queued (levelNodes f.prg k.toTreeKey d) []) =
      some (queued (levelNodes f.prg k.toTreeKey (d+1)) []) := by
  have h := @fullLoop_expand f k lens (d+1) hd (levelNodes f.prg k.toTreeKey d) [] []
  have hlen : (levelNodes f.prg k.toTreeKey d).length = 2^(d+1) := by simp [levelNodes]
  rw [List.append_nil, hlen, List.nil_append, Nat.add_sub_cancel, levelNodes_succ] at h
  rw [levelCount h32]
  exact h

/-- Before level `c+1` the queues hold the nodes of depth `c` and nothing is stored. -/
lemma fullLevels {c : ℕ} (hc : c < f.numBits) (h32 : c < 32) :
    (List.range' 1 c).foldlM (fun st i => fullLoop f k lens i (2^i%2^32) st) (fullStart k) =
      some (queued (levelNodes f.prg k.toTreeKey c) []) := by
  induction c with
  | zero => rfl
  | succ c ih =>
    rw [List.range'_concat, List.foldlM_append, ih (by omega) (by omega)]
    simp only [Option.bind_eq_bind, Option.bind_some, List.foldlM_cons, List.foldlM_nil, one_mul,
      Nat.add_comm 1 c, fullLoop_level (show c+1 ≠ f.numBits by omega) h32]
    rfl

/-- At the last level the nodes are read until `lens` results are stored. -/
lemma fullLoop_last {j : ℕ} (q : List (Block × Bool)) (res : List ℕ) (hres : res.length < lens)
    (hq : lens ≤ res.length+q.length) (hj : q.length ≤ j) :
    (fullLoop f k lens f.numBits j (queued q res)).map FullState.res =
      some (res ++ (q.take (lens-res.length)).map fun n => import34 f.prg n.1*k.w%f.prime) := by
  induction q generalizing res j with
  | nil => simp only [List.length_nil] at hq; omega
  | cons n q ih =>
    obtain ⟨j, rfl⟩ : ∃ j', j = j'+1 := ⟨j-1,by simp only [List.length_cons] at hj; omega⟩
    simp only [List.length_cons] at hq hj
    obtain ⟨c, hc⟩ : ∃ c, lens-res.length = c+1 := ⟨lens-res.length-1,by omega⟩
    rw [hc, List.take_succ_cons, List.map_cons]
    by_cases hend : lens ≤ res.length+1
    · obtain rfl : c = 0 := by omega
      simp [fullLoop, fullStep, queued, hend]
    · have hstep : fullStep f k lens f.numBits (queued (n :: q) res) =
          some (queued q (res ++ [import34 f.prg n.1*k.w%f.prime]),false) := by
        simp [fullStep, queued, hend]
      have h := ih (j := j) (res ++ [import34 f.prg n.1*k.w%f.prime]) (by simp; omega)
        (by simp; omega) (by omega)
      rw [List.length_append, List.length_singleton, show lens-(res.length+1) = c by omega] at h
      rw [fullLoop, hstep]
      simp only
      rw [h, List.append_assoc]
      rfl

lemma evaluateEqFull_eq (hn : 0 < f.numBits) (h31 : f.numBits ≤ 31) (hpos : 0 < lens)
    (hl : lens ≤ 2^f.numBits) : evaluateEqFull f k lens =
      some ((List.range lens).map fun x => evaluateEq f k (BitVec.ofNat 64 x)) := by
  obtain ⟨c, hc⟩ : ∃ c, f.numBits = c+1 := ⟨f.numBits-1,by omega⟩
  have hlen : (levelNodes f.prg k.toTreeKey c).length = 2^f.numBits := by simp [levelNodes, hc]
  have hlast := fullLoop_last (f := f) (k := k) (levelNodes f.prg k.toTreeKey c) [] hpos
    (by simpa [hlen] using hl) hlen.le
  rw [evaluateEqFull, hc, List.range'_concat, List.foldlM_append, fullLevels (by omega) (by omega)]
  simp only [Option.bind_eq_bind, Option.bind_some, List.foldlM_cons, List.foldlM_nil, one_mul]
  rw [Nat.add_comm 1 c, ← hc, levelCount (by omega)]
  simp only [Option.pure_def, Option.bind_fun_some]
  rw [hlast, List.nil_append, List.length_nil, Nat.sub_zero, levelNodes, ← List.map_take,
    List.take_range, min_eq_left (by rw [← hc]; exact hl), List.map_map]
  refine congrArg some (List.map_congr_left fun x hx => ?_)
  have hx' := List.mem_range.mp hx
  rw [evaluateEq_leaf hn (by omega) (by omega), Function.comp_apply, hc, Nat.add_sub_cancel]

/-- From 32 levels on the counter of the last level wraps to 0 and nothing is stored. -/
lemma evaluateEqFull_deep (h32 : 32 ≤ f.numBits) : evaluateEqFull f k lens = some [] := by
  obtain ⟨c, hc⟩ : ∃ c, f.numBits = 31+c := ⟨f.numBits-31,by omega⟩
  have hskip : ∀ (m : ℕ) (st : FullState),
      (List.range' 32 m).foldlM (fun st i => fullLoop f k lens i (2^i%2^32) st) st = some st := by
    intro m st
    induction m with
    | zero => rfl
    | succ m ih =>
      have hz : 2^(32+m)%2^32 = 0 := Nat.mod_eq_zero_of_dvd (pow_dvd_pow 2 (by omega))
      rw [List.range'_concat, List.foldlM_append, ih]
      simp only [Option.bind_eq_bind, Option.bind_some, List.foldlM_cons, List.foldlM_nil, one_mul,
        hz, fullLoop]
      rfl
  have hfold := @fullLevels f k lens 31 (by omega) (by norm_num)
  rw [evaluateEqFull, hc, ← List.range'_append_1, List.foldlM_append, hfold]
  simp only [Option.bind_eq_bind, Option.bind_some]
  rw [show 1+31 = 32 by rfl, hskip]
  rfl

end full

/-- With at least 32 levels the first of the values is missing. -/
theorem evaluateEqFull_wrong : evaluateEqFull ⟨tailPrg,32,2^32+15⟩ (tailKey 32 (2^32+15) 0 1) 1 ≠
    some ((List.range 1).map fun x =>
      evaluateEq ⟨tailPrg,32,2^32+15⟩ (tailKey 32 (2^32+15) 0 1) (BitVec.ofNat 64 x)) := by
  rw [evaluateEqFull_deep le_rfl]
  simp

/-- `evaluateEq_full` stores the pointwise values and never pops an empty queue, if and only if the
tree has at most 31 levels. -/
theorem evaluateEqFull_iff {f : Fss} (k : ServerKeyEq) {lens : ℕ} (hn : 1 ≤ f.numBits)
    (hpos : 1 ≤ lens) (hl : lens ≤ 2^f.numBits) : evaluateEqFull f k lens =
      some ((List.range lens).map fun x => evaluateEq f k (BitVec.ofNat 64 x)) ↔
      f.numBits ≤ 31 := by
  constructor
  · intro h
    by_contra h32
    rw [evaluateEqFull_deep (by omega)] at h
    have hlen := congrArg (fun o => (o.getD []).length) h
    simp at hlen
    omega
  · exact fun h31 => evaluateEqFull_eq hn h31 hpos hl

/-- The first three values of a tree of two levels. -/
theorem evaluateEqFull_two : evaluateEqFull ⟨tailPrg,2,2^32+15⟩ (tailKey 2 (2^32+15) 0 1) 3 =
    some ((List.range 3).map fun x =>
      evaluateEq ⟨tailPrg,2,2^32+15⟩ (tailKey 2 (2^32+15) 0 1) (BitVec.ofNat 64 x)) :=
  (evaluateEqFull_iff _ (by norm_num) (by norm_num) (by norm_num)).mpr (by norm_num)

end OramPro
