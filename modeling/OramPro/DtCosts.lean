import OramPro.MaskReuse

/-!
# Path costs in a decision tree

The inner nodes of `ConstDtEval` are the heap positions below `n` and its leaves the `n+1` positions
behind them. Players 0 and 1 add up shares of the costs of all paths, and player 2 looks for the
leaf whose cost is 0.
-/
namespace OramPro.DtCosts

/-! ## Heap positions -/

/-- The inner nodes on the way from the root to a position, each with the side that is taken there,
`true` for the child `2*i+1`. -/
def path : ℕ → List (ℕ × Bool)
  | 0 => []
  | m+1 => path (m/2)++[(m/2,decide (m%2 = 0))]
decreasing_by omega

/-- The child that the bit of a node selects. -/
def child (b : ℕ → Bool) (i : ℕ) : ℕ := if b i then i*2+1 else i*2+2

/-- The leaf position that is reached from `m`. -/
def descend (n : ℕ) (b : ℕ → Bool) (m : ℕ) : ℕ := if m < n then descend n b (child b m) else m
termination_by n-m
decreasing_by
  rw [child]
  split <;> omega

section positions
variable (n : ℕ) (b : ℕ → Bool)

lemma path_left (i : ℕ) : path (i*2+1) = path i++[(i,true)] := by
  rw [path, Nat.mul_div_cancel i two_pos, Nat.mul_mod_left]
  rfl

lemma path_right (i : ℕ) : path (i*2+2) = path i++[(i,false)] := by
  have hdiv : (i*2+1)/2 = i := by omega
  have hmod : (i*2+1)%2 = 1 := by omega
  rw [path, hdiv, hmod]
  rfl

lemma path_child (i : ℕ) : path (child b i) = path i++[(i,b i)] := by
  rw [child]
  cases hb : b i with
  | true => exact path_left i
  | false => exact path_right i

/-- Every position is the root, a left child or a right child. -/
lemma position_cases (m : ℕ) : m = 0 ∨ ∃ i < m, m = i*2+1 ∨ m = i*2+2 := by
  rcases Nat.eq_zero_or_pos m with h0 | hpos
  · exact .inl h0
  · exact .inr ⟨(m-1)/2,by omega,by omega⟩

lemma child_bounds (i : ℕ) : i < child b i ∧ child b i ≤ i*2+2 := by
  rw [child]
  split <;> omega

lemma descend_leaf (m : ℕ) (hm : m ≤ 2*n) : n ≤ descend n b m ∧ descend n b m ≤ 2*n := by
  induction m using descend.induct n b with
  | case1 m hlt ih =>
    rw [descend, if_pos hlt]
    have hchild := (child_bounds b m).2
    exact ih (by omega)
  | case2 m hge =>
    rw [descend, if_neg hge]
    omega

/-- On the way to the leaf every node takes the side of its bit. -/
lemma descend_path (m : ℕ) (h : ∀ s ∈ path m, s.2 = b s.1) : ∀ s ∈ path (descend n b m), s.2 = b s.1 := by
  induction m using descend.induct n b with
  | case1 m hlt ih =>
    rw [descend, if_pos hlt]
    refine ih fun s hs => ?_
    rw [path_child, List.mem_append, List.mem_singleton] at hs
    rcases hs with hs | rfl
    · exact h s hs
    · rfl
  | case2 m hge =>
    rw [descend, if_neg hge]
    exact h

end positions

/-! ## Shares of the costs -/

abbrev Party := Csot.Party

/-- The additions to the costs of the two children of node `i`. -/
def e_0 (r bs : ℕ → Word) (p : Party) (i : ℕ) : Word := (1-BitVec.ofNat 32 p.val-bs i)*r i
def e_1 (r bs : ℕ → Word) (i : ℕ) : Word := bs i*r i

section costs
variable (r bs : ℕ → Word) (p : Party)

/-- The array `c` after the loop over the nodes. -/
def costs (n : ℕ) : ℕ → Word :=
  (List.range n).foldl (fun c i =>
    let c := Function.update c (i*2+1) (c (i*2+1)+(c i+e_0 r bs p i))
    Function.update c (i*2+2) (c (i*2+2)+(c i+e_1 r bs i))) fun _ => 0

/-- `delta` is overwritten with 0. -/
def c_hat (n l : ℕ) : Word := costs r bs p n ((l+n+1-MaskReuse.rotation)%(n+1)+n)

/-- The masks are those that the loop draws from the shared key. -/
lemma c_hat_eq (prf : Fin 3 → Block → Block) (n : ℕ) (d : MaskReuse.DtCall) :
    MaskReuse.c_hat prf n d p = c_hat (fun i => (MaskReuse.multiplier prf d i).word) (d.bs p) p n := rfl

/-- What is added on a step of a path. -/
def stepShare (s : ℕ × Bool) : Word := if s.2 then e_0 r bs p s.1 else e_1 r bs s.1

def pathShare (m : ℕ) : Word := ((path m).map (stepShare r bs p)).sum

lemma pathShare_left (i : ℕ) : pathShare r bs p (i*2+1) = pathShare r bs p i+e_0 r bs p i := by
  rw [pathShare, path_left, List.map_append, List.sum_append, pathShare]
  simp [stepShare]

lemma pathShare_right (i : ℕ) : pathShare r bs p (i*2+2) = pathShare r bs p i+e_1 r bs i := by
  rw [pathShare, path_right, List.map_append, List.sum_append, pathShare]
  simp [stepShare]

/-- Node `i` is complete when the loop reaches it, and its children are still 0. -/
lemma costs_eq (n m : ℕ) : costs r bs p n m = if m ≤ 2*n then pathShare r bs p m else 0 := by
  induction n generalizing m with
  | zero =>
    rcases Nat.eq_zero_or_pos m with rfl | hpos
    · simp [costs, pathShare, path]
    · rw [if_neg (by omega)]
      rfl
  | succ n ih =>
    have hnext : costs r bs p (n+1) = Function.update
        (Function.update (costs r bs p n) (n*2+1) (pathShare r bs p (n*2+1))) (n*2+2)
        (pathShare r bs p (n*2+2)) := by
      have hold : ∀ m, 2*n < m → costs r bs p n m = 0 := by
        intro m hm
        rw [ih, if_neg (by omega)]
      have hself : costs r bs p n n = pathShare r bs p n := by
        rw [ih, if_pos (by omega)]
      have hne1 : n*2+2 ≠ n*2+1 := by omega
      have hne2 : n ≠ n*2+1 := by omega
      rw [costs, List.range_succ, List.foldl_append, List.foldl_cons, List.foldl_nil, ← costs,
        pathShare_left, pathShare_right]
      simp only [Function.update_of_ne hne1, Function.update_of_ne hne2, hself]
      rw [hold (n*2+1) (by omega), hold (n*2+2) (by omega), zero_add, zero_add]
    rw [hnext, Function.update_apply, Function.update_apply, ih]
    by_cases h2 : m = n*2+2
    · rw [if_pos h2, if_pos (by omega), h2]
    · rw [if_neg h2]
      by_cases h1 : m = n*2+1
      · rw [if_pos h1, if_pos (by omega), h1]
      · rw [if_neg h1]
        by_cases hle : m ≤ 2*n
        · rw [if_pos hle, if_pos (by omega)]
        · rw [if_neg hle, if_neg (by omega)]

lemma c_hat_leaf {n l : ℕ} (hl : l ≤ n) : c_hat r bs p n l = pathShare r bs p (n+l) := by
  have hmod : (l+n+1-MaskReuse.rotation)%(n+1)+n = n+l := by
    rw [MaskReuse.rotation, Nat.sub_zero, add_assoc, Nat.add_mod_right, Nat.mod_eq_of_lt (by omega), add_comm]
  rw [c_hat, hmod, costs_eq, if_pos (by omega)]

end costs

/-! ## The cost of a leaf -/

/-- The masks of the nodes at which the path to `m` leaves the way of the bits. -/
def disagreement (b : ℕ → Bool) (r : ℕ → Word) (m : ℕ) : Word :=
  (((path m).filter fun s => s.2 ≠ b s.1).map fun s => r s.1).sum

lemma disagreement_snoc (b : ℕ → Bool) (r : ℕ → Word) {m i : ℕ} {d : Bool} (h : path m = path i++[(i,d)]) :
    disagreement b r m = disagreement b r i+if d = b i then 0 else r i := by
  rw [disagreement, h, List.filter_append, List.map_append, List.sum_append, disagreement]
  by_cases hd : d = b i
  · simp [hd]
  · simp [hd]

/-- The loop of player 2: the first leaf whose shares add up to 0, with the sum of its values. -/
def scan {w : ℕ} (n : ℕ) (c_hat0 c_hat1 : ℕ → Word) (v_hat0 v_hat1 : ℕ → BitVec w) :
    Option (ℕ × BitVec w) :=
  ((List.range (n+1)).find? fun i => c_hat0 i+c_hat1 i = 0).map fun i => (i,v_hat0 i+v_hat1 i)

/-- Bits of the nodes, with shares at players 0 and 1. -/
structure Bits (n : ℕ) where
  b : ℕ → Bool
  bs0 : ℕ → Word
  bs1 : ℕ → Word
  share : ∀ i < n, bs0 i+bs1 i = if b i then 1 else 0

section leaves
variable {n : ℕ} (s : Bits n) (r : ℕ → Word)

lemma pathShare_sum {m : ℕ} (hm : m ≤ 2*n) :
    pathShare r s.bs0 0 m+pathShare r s.bs1 1 m = disagreement s.b r m := by
  induction m using Nat.strong_induction_on with
  | _ m ih =>
    obtain rfl | ⟨i, hi, rfl | rfl⟩ := position_cases m
    · simp [pathShare, disagreement, path]
    · have hparent := ih i hi (by omega)
      have hbit := s.share i (by omega)
      have hstep : e_0 r s.bs0 0 i+e_0 r s.bs1 1 i = if true = s.b i then 0 else r i := by
        have hsum : e_0 r s.bs0 0 i+e_0 r s.bs1 1 i = (1-(s.bs0 i+s.bs1 i))*r i := by
          have h0 : e_0 r s.bs0 0 i = (1-0-s.bs0 i)*r i := rfl
          have h1 : e_0 r s.bs1 1 i = (1-1-s.bs1 i)*r i := rfl
          rw [h0, h1]
          ring
        rw [hsum, hbit]
        cases s.b i <;> simp
      rw [pathShare_left, pathShare_left, disagreement_snoc s.b r (path_left i), ← hparent, ← hstep]
      ring
    · have hparent := ih i hi (by omega)
      have hbit := s.share i (by omega)
      have hstep : e_1 r s.bs0 i+e_1 r s.bs1 i = if false = s.b i then 0 else r i := by
        rw [e_1, e_1, ← add_mul, hbit]
        cases s.b i <;> simp
      rw [pathShare_right, pathShare_right, disagreement_snoc s.b r (path_right i), ← hparent, ← hstep]
      ring

lemma disagreement_reached : disagreement s.b r (descend n s.b 0) = 0 := by
  have hpath := descend_path n s.b 0 (fun x hx => by rw [path] at hx; exact nomatch hx)
  have hnil : (path (descend n s.b 0)).filter (fun x => x.2 ≠ s.b x.1) = [] := by
    rw [List.filter_eq_nil_iff]
    intro x hx
    simp [hpath x hx]
  rw [disagreement, hnil]
  rfl

/-- The first place of a list at which a test holds at one place only. -/
lemma find_range_unique {n k : ℕ} {q : ℕ → Bool} (hk : k < n) (hq : q k = true)
    (h : ∀ i < n, i ≠ k → q i = false) : (List.range n).find? q = some k := by
  rw [List.find?_range_eq_some]
  refine ⟨hq,List.mem_range.mpr hk,fun j hj => ?_⟩
  simp [h j (by omega) (by omega)]

/-- The shares of every leaf add up to the masks of the nodes that its path leaves, which is 0 at
the leaf that the bits reach; the scan selects that leaf when no other sum is 0. -/
theorem leaf_exact {w : ℕ} (v_hat0 v_hat1 : ℕ → BitVec w) :
    let leaf := descend n s.b 0-n
    (∀ l ≤ n, c_hat r s.bs0 0 n l+c_hat r s.bs1 1 n l = disagreement s.b r (n+l)) ∧
      (n+leaf = descend n s.b 0 ∧ leaf ≤ n ∧ c_hat r s.bs0 0 n leaf+c_hat r s.bs1 1 n leaf = 0) ∧
      ((∀ l ≤ n, l ≠ leaf → disagreement s.b r (n+l) ≠ 0) →
        scan n (c_hat r s.bs0 0 n) (c_hat r s.bs1 1 n) v_hat0 v_hat1 =
          some (leaf,v_hat0 leaf+v_hat1 leaf)) := by
  intro leaf
  obtain ⟨hge, hle⟩ := descend_leaf n s.b 0 (Nat.zero_le _)
  have hleaf : n+leaf = descend n s.b 0 := by omega
  have hl : leaf ≤ n := by omega
  have hsum : ∀ l ≤ n, c_hat r s.bs0 0 n l+c_hat r s.bs1 1 n l = disagreement s.b r (n+l) := by
    intro l hl
    rw [c_hat_leaf r s.bs0 0 hl, c_hat_leaf r s.bs1 1 hl, pathShare_sum s r (by omega)]
  have hzero : c_hat r s.bs0 0 n leaf+c_hat r s.bs1 1 n leaf = 0 := by
    rw [hsum leaf hl, hleaf, disagreement_reached]
  refine ⟨hsum,⟨hleaf,hl,hzero⟩,fun hother => ?_⟩
  have hfind : (List.range (n+1)).find? (fun i => c_hat r s.bs0 0 n i+c_hat r s.bs1 1 n i = 0) = some leaf := by
    refine find_range_unique (Nat.lt_succ_of_le hl) (decide_eq_true hzero) fun i hi hne => ?_
    rw [hsum i (by omega)]
    exact decide_eq_false (hother i (by omega) hne)
  rw [scan, hfind]
  rfl

end leaves

end OramPro.DtCosts
