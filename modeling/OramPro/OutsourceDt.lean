import Mathlib.Data.BitVec
import Mathlib.Data.Fintype.Card
import Mathlib.Tactic

/-!
# Flattened decision trees

`Dt::from_path` and the walk of `PolyDtEval::online` with its transfers and selections replaced by
what they return. The tree comes from `read_from_file` as a map of nodes in which the child `0` says
that there is none.
-/
namespace OramPro.OutsourceDt

/-! ## Trees -/

inductive Tree (L N : Type) where
  | leaf (a : L)
  | inner (b : N) (left right : Tree L N)

namespace Tree
variable {L N : Type}

def deep : Tree L N → ℕ
  | leaf _ => 1
  | inner _ left right => max left.deep right.deep+1

/-- The leaf to which the decisions `goLeft` lead. -/
def eval (goLeft : N → Bool) : Tree L N → L
  | leaf a => a
  | inner b left right => if goLeft b then left.eval goLeft else right.eval goLeft

lemma deep_pos (tree : Tree L N) : 1 ≤ tree.deep := by
  cases tree <;> simp [deep]

end Tree

/-! ## The map of nodes -/

abbrev Word := BitVec 32

/-- `struct node`. -/
structure Node where
  weight : Word
  idx : Word
  left : Word
  right : Word

/-- `std::map<int,node*>` with the keys `0..n-1`; the keys are of type `int`. -/
structure NodeMap where
  nodes : List Node
  le : nodes.length ≤ 2^31

/-- `tmp[i]`, which is a null pointer where the key is missing. -/
def NodeMap.at (tmp : NodeMap) (i : Word) : Option Node := tmp.nodes[i.toNat]?

def find_deep (tmp : NodeMap) : ℕ → Word → Option Word
  | 0, _ => none
  | fuel+1, idx => do
    let node ← tmp.at idx
    let ldeep ← if node.left ≠ 0 then find_deep tmp fuel node.left else some 0
    let rdeep ← if node.right ≠ 0 then find_deep tmp fuel node.right else some 0
    return (if ldeep < rdeep then rdeep else ldeep)+1

/-! ## The arrays -/

structure Node_el (w : ℕ) where
  nl : Word
  nr : Word
  xl : Word
  xr : Word
  t : BitVec w
  v : BitVec w
  node_lens : Word
  data_lens : Word

structure Dt (w : ℕ) where
  Ps : List (Node_el w)
  data_lens : Word
  node_lens : Word
  deep : Word
  start_n : Word
  start_x : Word

variable {w : ℕ}

/-- `Ps[i]` of a node whose children are looked up as `l` and `r`; a leaf looks up the root. -/
def element (node_lens data_lens : Word) (node l r : Node) : Node_el w := {
  nl := if node.left = 0 then node_lens else node.left
  nr := if node.right = 0 then node_lens else node.right
  xl := l.idx
  xr := r.idx
  t := node.weight.setWidth w
  v := (if node.left = 0 ∧ node.right = 0 then node.weight else 0).setWidth w
  node_lens := node_lens+1
  data_lens := data_lens
}

def sink (node_lens data_lens : Word) : Node_el w := {
  nl := node_lens
  nr := node_lens
  xl := 0
  xr := 0
  t := 0
  v := 0
  node_lens := node_lens+1
  data_lens := data_lens
}

def NodeMap.element (tmp : NodeMap) (data_lens : Word) (i : ℕ) : Option (Node_el w) := do
  let node ← tmp.at (BitVec.ofNat 32 i)
  let l ← tmp.at node.left
  let r ← tmp.at node.right
  return OutsourceDt.element (BitVec.ofNat 32 tmp.nodes.length) data_lens node l r

def from_path (tmp : NodeMap) (data_lens : Word) (fuel : ℕ) : Option (Dt w) := do
  let deep ← find_deep tmp fuel 0
  let node_lens := BitVec.ofNat 32 tmp.nodes.length
  let root ← tmp.at 0
  let Ps ← (List.range tmp.nodes.length).mapM (tmp.element data_lens)
  return {
    Ps := Ps++[sink node_lens data_lens]
    data_lens := data_lens
    node_lens := node_lens+1
    deep := deep
    start_n := 0
    start_x := root.idx
  }

/-! ## The walk -/

/-- The rounds of `online` that are left. -/
def Dt.rounds (dt : Dt w) (data : Word → BitVec w) : ℕ → BitVec w → Word → Word → Option (BitVec w)
  | 0, _, _, _ => none
  | left+1, y, ki, idi => do
    let x_pick := data ki
    let n_pick ← dt.Ps[idi.toNat]?
    let y := y+n_pick.v
    if left = 0 then return y
    if x_pick ≤ n_pick.t then dt.rounds data left y n_pick.xl n_pick.nl
    else dt.rounds data left y n_pick.xr n_pick.nr

def Dt.online (dt : Dt w) (data : Word → BitVec w) : Option (BitVec w) :=
  dt.rounds data dt.deep.toNat 0 dt.start_x dt.start_n

/-! ## Well-formed trees -/

def NodeMap.child (tmp : NodeMap) (i : Word) (goLeft : Bool) : Option Word := do
  let node ← tmp.at i
  let c := if goLeft then node.left else node.right
  if c = 0 then none else return c

def NodeMap.follow (tmp : NodeMap) (path : List Bool) : Option Word := path.foldlM tmp.child 0

structure WellFormed (tmp : NodeMap) : Prop where
  pos : 0 < tmp.nodes.length
  both : ∀ i node, tmp.at i = some node → (node.left = 0 ↔ node.right = 0)
  inside : ∀ i node, tmp.at i = some node →
    node.left.toNat < tmp.nodes.length ∧ node.right.toNat < tmp.nodes.length
  once : ∀ i < tmp.nodes.length, ∃! path, tmp.follow path = some (BitVec.ofNat 32 i)

/-- Plain evaluation from a node arrives at a leaf. -/
inductive Reaches (tmp : NodeMap) (data : Word → BitVec w) : Word → Word → Prop
  | leaf {i : Word} {node : Node} : tmp.at i = some node → node.left = 0 → node.right = 0 →
      Reaches tmp data i i
  | left {i j : Word} {node : Node} : tmp.at i = some node → node.left ≠ 0 →
      data node.idx ≤ node.weight.setWidth w → Reaches tmp data node.left j → Reaches tmp data i j
  | right {i j : Word} {node : Node} : tmp.at i = some node → node.right ≠ 0 →
      ¬data node.idx ≤ node.weight.setWidth w → Reaches tmp data node.right j → Reaches tmp data i j

/-- The part of the map under a node is a tree. -/
def Denotes (tmp : NodeMap) : Word → Tree (Word × Node) Node → Prop
  | i, .leaf a => a.1 = i ∧ tmp.at i = some a.2 ∧ a.2.left = 0 ∧ a.2.right = 0
  | i, .inner node l r => tmp.at i = some node ∧ node.left ≠ 0 ∧ node.right ≠ 0 ∧
      Denotes tmp node.left l ∧ Denotes tmp node.right r

section denotes
variable {tmp : NodeMap}

lemma at_some {i : Word} (hi : i.toNat < tmp.nodes.length) : ∃ node, tmp.at i = some node :=
  ⟨_,List.getElem?_eq_getElem hi⟩

lemma lt_of_at {i : Word} {node : Node} (hi : tmp.at i = some node) : i.toNat < tmp.nodes.length :=
  (List.getElem?_eq_some_iff.mp hi).1

lemma follow_append (path : List Bool) (b : Bool) :
    tmp.follow (path++[b]) = (tmp.follow path).bind fun i => tmp.child i b := by
  simp [NodeMap.follow, List.foldlM_append]

lemma follow_lt (h : WellFormed tmp) {path : List Bool} {i : Word} (hp : tmp.follow path = some i) :
    i.toNat < tmp.nodes.length := by
  induction path using List.reverseRecOn with
  | nil =>
    have hi : (0 : Word) = i := Option.some.inj hp
    rw [← hi]
    exact h.pos
  | append_singleton path b _ =>
    rw [follow_append, Option.bind_eq_some_iff] at hp
    obtain ⟨j,-,hj⟩ := hp
    rw [NodeMap.child, Option.bind_eq_bind, Option.bind_eq_some_iff] at hj
    obtain ⟨node,hnode,hc⟩ := hj
    have hin := h.inside j node hnode
    cases b <;> simp at hc <;> rw [← hc.2]
    exacts [hin.2,hin.1]

lemma follow_inj (h : WellFormed tmp) {path other : List Bool} {i : Word} (hp : tmp.follow path = some i)
    (ho : tmp.follow other = some i) : path = other := by
  have hi := follow_lt h hp
  refine (h.once i.toNat hi).unique ?_ ?_
  · rwa [BitVec.ofNat_toNat, BitVec.setWidth_eq]
  · rwa [BitVec.ofNat_toNat, BitVec.setWidth_eq]

lemma follow_take {path : List Bool} {i : Word} (hp : tmp.follow path = some i) (k : ℕ) :
    ∃ j, tmp.follow (path.take k) = some j := by
  have hsplit : tmp.follow (path.take k++path.drop k) = some i := by rwa [List.take_append_drop]
  rw [NodeMap.follow, List.foldlM_append, Option.bind_eq_bind, Option.bind_eq_some_iff] at hsplit
  obtain ⟨j,hj,-⟩ := hsplit
  exact ⟨j,hj⟩

/-- The prefixes of a path end at different nodes. -/
lemma length_lt (h : WellFormed tmp) {path : List Bool} {i : Word} (hp : tmp.follow path = some i) :
    path.length < tmp.nodes.length := by
  choose stop hstop using follow_take hp
  let place : Fin (path.length+1) → Fin tmp.nodes.length := fun k =>
    ⟨(stop k).toNat,follow_lt h (hstop k)⟩
  have hinj : Function.Injective place := by
    intro k k' hk
    have heq : stop k = stop k' := BitVec.eq_of_toNat_eq (Fin.mk.inj hk)
    have htake := follow_inj h (hstop k) (heq ▸ hstop k')
    have hlen := congrArg List.length htake
    rw [List.length_take, List.length_take] at hlen
    exact Fin.ext (by omega)
  have hcard := Fintype.card_le_of_injective place hinj
  rw [Fintype.card_fin, Fintype.card_fin] at hcard
  exact hcard

/-- Induction on the nodes that a path can still meet. -/
lemma exists_tree (h : WellFormed tmp) (m : ℕ) {path : List Bool} {i : Word}
    (hp : tmp.follow path = some i) (hm : tmp.nodes.length ≤ path.length+m) :
    ∃ tree, Denotes tmp i tree ∧ path.length+tree.deep ≤ tmp.nodes.length := by
  induction m generalizing path i with
  | zero => exact absurd (length_lt h hp) (by omega)
  | succ m ih =>
    obtain ⟨node,hnode⟩ := at_some (follow_lt h hp)
    have hlen := length_lt h hp
    by_cases hl : node.left = 0
    · exact ⟨.leaf (i,node),⟨rfl,hnode,hl,(h.both i node hnode).mp hl⟩,hlen⟩
    · have hr : node.right ≠ 0 := fun hr => hl ((h.both i node hnode).mpr hr)
      have hleft : tmp.follow (path++[true]) = some node.left := by
        simpa [follow_append, hp, NodeMap.child, hnode] using hl
      have hright : tmp.follow (path++[false]) = some node.right := by
        simpa [follow_append, hp, NodeMap.child, hnode] using hr
      obtain ⟨l,hdl,hll⟩ := ih hleft (by rw [List.length_append, List.length_singleton]; omega)
      obtain ⟨r,hdr,hlr⟩ := ih hright (by rw [List.length_append, List.length_singleton]; omega)
      rw [List.length_append, List.length_singleton] at hll hlr
      refine ⟨.inner node l r,⟨hnode,hl,hr,hdl,hdr⟩,?_⟩
      rw [Tree.deep]
      omega

lemma tree_of_wellFormed (h : WellFormed tmp) :
    ∃ tree, Denotes tmp 0 tree ∧ tree.deep ≤ tmp.nodes.length := by
  obtain ⟨tree,hd,hle⟩ := exists_tree h tmp.nodes.length (show tmp.follow [] = some 0 from rfl) (by simp)
  exact ⟨tree,hd,by simpa using hle⟩

lemma find_deep_eq {tree : Tree (Word × Node) Node} {i : Word} (hd : Denotes tmp i tree)
    (hdeep : tree.deep ≤ 2^31) {fuel : ℕ} (hfuel : tree.deep ≤ fuel) :
    find_deep tmp fuel i = some (BitVec.ofNat 32 tree.deep) := by
  induction tree generalizing i fuel with
  | leaf a =>
    obtain ⟨-,hi,hl,hr⟩ := hd
    obtain ⟨fuel,rfl⟩ : ∃ f, fuel = f+1 := ⟨fuel-1,by rw [Tree.deep] at hfuel; omega⟩
    simp [find_deep, hi, hl, hr, Tree.deep]
  | inner node l r ihl ihr =>
    obtain ⟨hi,hl,hr,hdl,hdr⟩ := hd
    rw [Tree.deep] at hdeep hfuel
    obtain ⟨fuel,rfl⟩ : ∃ f, fuel = f+1 := ⟨fuel-1,by omega⟩
    have hleft : find_deep tmp fuel node.left = some (BitVec.ofNat 32 l.deep) :=
      ihl hdl (by omega) (by omega)
    have hright : find_deep tmp fuel node.right = some (BitVec.ofNat 32 r.deep) :=
      ihr hdr (by omega) (by omega)
    have hmax : (if BitVec.ofNat 32 l.deep < BitVec.ofNat 32 r.deep then BitVec.ofNat 32 r.deep
        else BitVec.ofNat 32 l.deep) = BitVec.ofNat 32 (max l.deep r.deep) := by
      have hlt : BitVec.ofNat 32 l.deep < BitVec.ofNat 32 r.deep ↔ l.deep < r.deep := by
        rw [BitVec.lt_def, BitVec.toNat_ofNat, BitVec.toNat_ofNat, Nat.mod_eq_of_lt (by omega),
          Nat.mod_eq_of_lt (by omega)]
      by_cases hm : l.deep < r.deep
      · rw [if_pos (hlt.mpr hm), max_eq_right hm.le]
      · rw [if_neg (mt hlt.mp hm), max_eq_left (not_lt.mp hm)]
    rw [find_deep, hi, Tree.deep, BitVec.ofNat_add, ← hmax]
    simp only [Option.bind_eq_bind, Option.bind_some, if_pos hl, if_pos hr, hleft, hright]
    rfl

def goLeft (data : Word → BitVec w) (node : Node) : Bool := data node.idx ≤ node.weight.setWidth w

lemma reaches_iff {data : Word → BitVec w} {tree : Tree (Word × Node) Node} {i j : Word}
    (hd : Denotes tmp i tree) : Reaches tmp data i j ↔ j = (tree.eval (goLeft data)).1 := by
  induction tree generalizing i with
  | leaf a =>
    obtain ⟨hai,hi,hl,hr⟩ := hd
    constructor
    · intro hreach
      cases hreach with
      | leaf => exact hai.symm
      | left hi' hl' => exact absurd hl (Option.some.inj (hi.symm.trans hi') ▸ hl')
      | right hi' hr' => exact absurd hr (Option.some.inj (hi.symm.trans hi') ▸ hr')
    · rintro rfl
      rw [Tree.eval, hai]
      exact .leaf hi hl hr
  | inner node l r ihl ihr =>
    obtain ⟨hi,hl,hr,hdl,hdr⟩ := hd
    rw [Tree.eval]
    by_cases hx : data node.idx ≤ node.weight.setWidth w
    · rw [if_pos (by simpa [goLeft] using hx), ← ihl hdl]
      refine ⟨fun hreach => ?_,.left hi hl hx⟩
      cases hreach with
      | leaf hi' hl' => exact absurd hl' (Option.some.inj (hi.symm.trans hi') ▸ hl)
      | left hi' _ _ hreach => exact Option.some.inj (hi.symm.trans hi') ▸ hreach
      | right hi' _ hx' => exact absurd hx (Option.some.inj (hi.symm.trans hi') ▸ hx')
    · rw [if_neg (by simpa [goLeft] using hx), ← ihr hdr]
      refine ⟨fun hreach => ?_,.right hi hr hx⟩
      cases hreach with
      | leaf hi' hl' => exact absurd hl' (Option.some.inj (hi.symm.trans hi') ▸ hl)
      | left hi' _ hx' => exact absurd (Option.some.inj (hi.symm.trans hi') ▸ hx') hx
      | right hi' _ _ hreach => exact Option.some.inj (hi.symm.trans hi') ▸ hreach

lemma eval_at {data : Word → BitVec w} {tree : Tree (Word × Node) Node} {i : Word}
    (hd : Denotes tmp i tree) :
    tmp.at (tree.eval (goLeft data)).1 = some (tree.eval (goLeft data)).2 := by
  induction tree generalizing i with
  | leaf a => exact hd.1 ▸ hd.2.1
  | inner node l r ihl ihr =>
    obtain ⟨-,-,-,hdl,hdr⟩ := hd
    rw [Tree.eval]
    split
    · exact ihl hdl
    · exact ihr hdr

end denotes

/-! ## The arrays of a well-formed tree -/

section arrays
variable {tmp : NodeMap}

lemma mapM_range {α : Type} {f : ℕ → Option α} {n : ℕ} (hf : ∀ i < n, ∃ y, f i = some y) :
    ∃ ys, (List.range n).mapM f = some ys ∧ ys.length = n ∧ ∀ i < n, ys[i]? = f i := by
  induction n with
  | zero => exact ⟨[],rfl,rfl,by simp⟩
  | succ n ih =>
    obtain ⟨ys,hys,hlen,hget⟩ := ih fun i hi => hf i (by omega)
    obtain ⟨y,hy⟩ := hf n (by omega)
    refine ⟨ys++[y],?_,by simp [hlen],fun i hi => ?_⟩
    · simp [List.range_succ, List.mapM_append, hys, hy]
    · by_cases hin : i < n
      · rw [List.getElem?_append_left (by omega), hget i hin]
      · obtain rfl : i = n := by omega
        rw [List.getElem?_append_right (by omega), hlen, Nat.sub_self, hy]
        rfl

/-- What the walk reads of the arrays of `from_path`. -/
structure Flat (tmp : NodeMap) (dt : Dt w) : Prop where
  node : ∀ i node, tmp.at i = some node → ∃ l r n_pick, tmp.at node.left = some l ∧
    tmp.at node.right = some r ∧ dt.Ps[i.toNat]? = some n_pick ∧
    n_pick = element (BitVec.ofNat 32 tmp.nodes.length) dt.data_lens node l r
  sink : dt.Ps[(BitVec.ofNat 32 tmp.nodes.length).toNat]? =
    some (sink (BitVec.ofNat 32 tmp.nodes.length) dt.data_lens)

lemma from_path_flat (h : WellFormed tmp) (data_lens : Word) {fuel : ℕ} {deep : Word}
    (hdeep : find_deep tmp fuel 0 = some deep) {root : Node} (hroot : tmp.at 0 = some root) :
    ∃ dt : Dt w, from_path tmp data_lens fuel = some dt ∧ Flat tmp dt ∧ dt.deep = deep ∧
      dt.start_n = 0 ∧ dt.start_x = root.idx := by
  have helement : ∀ i node, tmp.at i = some node → ∃ l r, tmp.at node.left = some l ∧
      tmp.at node.right = some r ∧ tmp.element (w := w) data_lens i.toNat =
        some (element (BitVec.ofNat 32 tmp.nodes.length) data_lens node l r) := by
    intro i node hi
    obtain ⟨l,hl⟩ := at_some (h.inside i node hi).1
    obtain ⟨r,hr⟩ := at_some (h.inside i node hi).2
    refine ⟨l,r,hl,hr,?_⟩
    rw [NodeMap.element, BitVec.ofNat_toNat, BitVec.setWidth_eq, hi]
    simp only [Option.bind_eq_bind, Option.bind_some, hl, hr]
    rfl
  have hle := tmp.le
  have hall : ∀ i < tmp.nodes.length, ∃ y, tmp.element (w := w) data_lens i = some y := by
    intro i hi
    have hof : (BitVec.ofNat 32 i).toNat = i := by
      rw [BitVec.toNat_ofNat, Nat.mod_eq_of_lt (by omega)]
    obtain ⟨node,hnode⟩ := at_some (i := BitVec.ofNat 32 i) (hof.symm ▸ hi)
    obtain ⟨l,r,-,-,hel⟩ := helement _ node hnode
    exact ⟨_,hof ▸ hel⟩
  obtain ⟨Ps,hPs,hlen,hget⟩ := mapM_range hall
  let dt : Dt w := {
    Ps := Ps++[sink (BitVec.ofNat 32 tmp.nodes.length) data_lens]
    data_lens := data_lens
    node_lens := BitVec.ofNat 32 tmp.nodes.length+1
    deep := deep
    start_n := 0
    start_x := root.idx
  }
  refine ⟨dt,?_,⟨fun i node hi => ?_,?_⟩,rfl,rfl,rfl⟩
  · rw [from_path, hdeep]
    simp only [Option.bind_eq_bind, Option.bind_some, hroot, hPs]
    rfl
  · obtain ⟨l,r,hl,hr,hel⟩ := helement i node hi
    refine ⟨l,r,_,hl,hr,?_,rfl⟩
    have hlt := lt_of_at hi
    change (Ps++[_])[i.toNat]? = _
    rw [List.getElem?_append_left (by omega), hget _ hlt, hel]
  · change (Ps++[_])[_]? = _
    rw [BitVec.toNat_ofNat, Nat.mod_eq_of_lt (by omega), List.getElem?_append_right (by omega), hlen,
      Nat.sub_self]
    rfl

end arrays

/-! ## Correctness -/

section walk
variable {tmp : NodeMap} {dt : Dt w} {data : Word → BitVec w}

/-- The sink leads to itself and adds nothing. -/
lemma rounds_sink (h : Flat tmp dt) (left : ℕ) (y : BitVec w) (ki : Word) :
    dt.rounds data (left+1) y ki (BitVec.ofNat 32 tmp.nodes.length) = some y := by
  induction left generalizing ki with
  | zero =>
    rw [Dt.rounds, h.sink]
    exact congrArg some (add_zero y)
  | succ left ih =>
    have hy : y+(sink (BitVec.ofNat 32 tmp.nodes.length) dt.data_lens : Node_el w).v = y := add_zero y
    rw [Dt.rounds, h.sink]
    simp only [Option.bind_eq_bind, Option.bind_some, hy, if_neg (Nat.succ_ne_zero left)]
    split
    · exact ih _
    · exact ih _

/-- Induction on the tree: the rounds that a shallow leaf leaves over are spent at the sink. -/
lemma rounds_tree (h : Flat tmp dt) {tree : Tree (Word × Node) Node} {i : Word} {node : Node}
    (hd : Denotes tmp i tree) (hi : tmp.at i = some node) {rounds : ℕ} (hr : tree.deep ≤ rounds)
    (y : BitVec w) :
    dt.rounds data rounds y node.idx i =
      some (y+(tree.eval (goLeft data)).2.weight.setWidth w) := by
  obtain ⟨left,rfl⟩ : ∃ k, rounds = k+1 := ⟨rounds-1,by have := tree.deep_pos; omega⟩
  induction tree generalizing i node left y with
  | leaf a =>
    obtain ⟨-,ha,hl,hr0⟩ := hd
    obtain rfl : node = a.2 := Option.some.inj (hi.symm.trans ha)
    obtain ⟨l,r,n_pick,-,-,hget,hpick⟩ := h.node i _ hi
    have hv : n_pick.v = a.2.weight.setWidth w := by simp [hpick, element, hl, hr0]
    have hnl : n_pick.nl = BitVec.ofNat 32 tmp.nodes.length := by simp [hpick, element, hl]
    have hnr : n_pick.nr = BitVec.ofNat 32 tmp.nodes.length := by simp [hpick, element, hr0]
    rw [Dt.rounds, hget]
    simp only [Option.bind_eq_bind, Option.bind_some, hv, hnl, hnr, Tree.eval]
    cases left with
    | zero => rfl
    | succ left =>
      rw [if_neg (Nat.succ_ne_zero left)]
      split
      · exact rounds_sink h left _ _
      · exact rounds_sink h left _ _
  | inner b l r ihl ihr =>
    obtain ⟨hb,hl,hr0,hdl,hdr⟩ := hd
    obtain rfl : node = b := Option.some.inj (hi.symm.trans hb)
    obtain ⟨nodel,noder,n_pick,hatl,hatr,hget,hpick⟩ := h.node i _ hi
    have hv : y+n_pick.v = y := by simp_all [element]
    have hnl : n_pick.nl = node.left := by simp_all [element]
    have hnr : n_pick.nr = node.right := by simp_all [element]
    have hx : n_pick.xl = nodel.idx ∧ n_pick.xr = noder.idx ∧ n_pick.t = node.weight.setWidth w := by
      rw [hpick]
      exact ⟨rfl,rfl,rfl⟩
    have hposl := l.deep_pos
    have hposr := r.deep_pos
    rw [Tree.deep] at hr
    obtain ⟨left,rfl⟩ : ∃ k, left = k+1 := ⟨left-1,by omega⟩
    rw [Dt.rounds, hget, Tree.eval]
    simp only [Option.bind_eq_bind, Option.bind_some, hv, hnl, hnr, hx.1, hx.2.1, hx.2.2,
      if_neg (Nat.succ_ne_zero left), goLeft, decide_eq_true_eq]
    split
    · exact ihl hdl hatl y left (by omega)
    · exact ihr hdr hatr y left (by omega)

end walk

/-- The walk adds up to the weight of the one leaf that plain evaluation reaches. -/
theorem walk_correct (tmp : NodeMap) (h : WellFormed tmp) (data_lens : Word) (data : Word → BitVec w)
    (fuel : ℕ) (hfuel : tmp.nodes.length ≤ fuel) :
    ∃ (dt : Dt w) (leaf : Word) (node : Node), find_deep tmp fuel 0 = some dt.deep ∧
      from_path tmp data_lens fuel = some dt ∧ (∀ j, Reaches tmp data 0 j ↔ j = leaf) ∧
      tmp.at leaf = some node ∧ dt.online data = some (node.weight.setWidth w) := by
  obtain ⟨tree,hd,hle⟩ := tree_of_wellFormed h
  have hbound := tmp.le
  have hdeep := find_deep_eq hd (by omega) (hle.trans hfuel)
  obtain ⟨root,hroot⟩ := at_some (i := 0) h.pos
  obtain ⟨dt,hdt,hflat,hdd,hn,hx⟩ := from_path_flat (w := w) h data_lens hdeep hroot
  refine ⟨dt,_,_,hdd ▸ hdeep,hdt,fun j => reaches_iff hd,eval_at hd,?_⟩
  have hrounds : tree.deep ≤ (BitVec.ofNat 32 tree.deep).toNat := by
    rw [BitVec.toNat_ofNat, Nat.mod_eq_of_lt (by omega)]
  rw [Dt.online, hn, hx, hdd, rounds_tree hflat hd hroot hrounds, zero_add]

/-! ## A tree with a shallow leaf -/

/-- The root is an inner node, as is its right child. -/
def fiveNodes : NodeMap := {
  nodes := [⟨50,1,1,2⟩,⟨7,0,0,0⟩,⟨20,0,3,4⟩,⟨8,0,0,0⟩,⟨9,0,0,0⟩]
  le := by decide
}

lemma fiveNodes_long (a b c : Bool) (path : List Bool) : fiveNodes.follow (a::b::c::path) = none := by
  cases a <;> cases b <;> cases c <;> rfl

def fivePath : ℕ → List Bool
  | 0 => []
  | 1 => [true]
  | 2 => [false]
  | 3 => [false,true]
  | _ => [false,false]

lemma fiveNodes_once (i : ℕ) (hi : i < 5) :
    ∃! path, fiveNodes.follow path = some (BitVec.ofNat 32 i) := by
  refine ⟨fivePath i,?_,fun path hp => ?_⟩
  · interval_cases i <;> rfl
  · rcases path with _ | ⟨a,_ | ⟨b,_ | ⟨c,path⟩⟩⟩
    · interval_cases i <;> first | rfl | exact absurd hp (by decide)
    · cases a <;> interval_cases i <;> first | rfl | exact absurd hp (by decide)
    · cases a <;> cases b <;> interval_cases i <;> first | rfl | exact absurd hp (by decide)
    · rw [fiveNodes_long] at hp
      exact absurd hp (by simp)

lemma fiveNodes_wellFormed : WellFormed fiveNodes := by
  have hat : ∀ i node, fiveNodes.at i = some node →
      (node.left = 0 ↔ node.right = 0) ∧ node.left.toNat < 5 ∧ node.right.toNat < 5 := by
    intro i node hi
    have hmem : node ∈ fiveNodes.nodes := List.mem_of_getElem? hi
    simp only [fiveNodes, List.mem_cons, List.not_mem_nil, or_false] at hmem
    rcases hmem with rfl | rfl | rfl | rfl | rfl <;> decide
  exact ⟨by decide,fun i node hi => (hat i node hi).1,fun i node hi => (hat i node hi).2,fiveNodes_once⟩

theorem walk_five : ∃ dt : Dt 32, from_path fiveNodes 2 5 = some dt ∧ dt.online (fun _ => 0) = some 7 := by
  obtain ⟨dt,leaf,node,-,hdt,hleaf,hnode,hy⟩ :=
    walk_correct fiveNodes fiveNodes_wellFormed 2 (fun _ => (0 : BitVec 32)) 5 (by decide)
  have hone : (1 : Word) = leaf :=
    (hleaf 1).mp (.left (show fiveNodes.at 0 = some ⟨50,1,1,2⟩ from rfl) (by decide) (by decide)
      (.leaf rfl rfl rfl))
  rw [← hone] at hnode
  have hseven : (⟨7,0,0,0⟩ : Node) = node := Option.some.inj hnode
  refine ⟨dt,hdt,?_⟩
  rw [hy, ← hseven]
  rfl

end OramPro.OutsourceDt
