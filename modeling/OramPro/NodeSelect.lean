import OramPro.CsotMod
import OramPro.OutsourceDt

/-!
# Oblivious selection of tree nodes

The operators of `Node_el` with `T = uint32_t`, and the sums that the two holders of a key of
`SOT<Node_el>` accumulate. A product is taken modulo `2^32` before it is reduced to the range of its
field.
-/
namespace OramPro.NodeSelect
open Csot (cast_umod umod_lt cast_add_sub)

abbrev Record := OutsourceDt.Node_el 32

/-! ## Operators -/

def lensOr (own other : Word) : Word := if own = 0 then other else own

/-- `operator+=`. -/
def addAssign (a b : Record) : Record :=
  let node_lens := lensOr a.node_lens b.node_lens
  let data_lens := lensOr a.data_lens b.data_lens
  { nl := (a.nl+b.nl)%node_lens
    nr := (a.nr+b.nr)%node_lens
    xl := (a.xl+b.xl)%data_lens
    xr := (a.xr+b.xr)%data_lens
    t := a.t+b.t
    v := a.v+b.v
    node_lens := node_lens
    data_lens := data_lens }

/-- `operator-=`. -/
def subAssign (a b : Record) : Record :=
  let node_lens := lensOr a.node_lens b.node_lens
  let data_lens := lensOr a.data_lens b.data_lens
  { nl := (a.nl+node_lens-b.nl)%node_lens
    nr := (a.nr+node_lens-b.nr)%node_lens
    xl := (a.xl+data_lens-b.xl)%data_lens
    xr := (a.xr+data_lens-b.xr)%data_lens
    t := a.t-b.t
    v := a.v-b.v
    node_lens := node_lens
    data_lens := data_lens }

/-- `operator*`. -/
def mul (a : Record) (other : Word) : Record :=
  { nl := a.nl*other%a.node_lens
    nr := a.nr*other%a.node_lens
    xl := a.xl*other%a.data_lens
    xr := a.xr*other%a.data_lens
    t := a.t*other
    v := a.v*other
    node_lens := a.node_lens
    data_lens := a.data_lens }

/-- A record after `memset`. -/
def zero : Record := ⟨0,0,0,0,0,0,0,0⟩

def addAll (data : ℕ → Record) (e : ℕ → Word) (n : ℕ) : Record :=
  (List.range n).foldl (fun ans i => addAssign ans (mul (data i) (e i))) zero

def subAll (data : ℕ → Record) (e : ℕ → Word) (n : ℕ) : Record :=
  (List.range n).foldl (fun ans i => subAssign ans (mul (data i) (e i))) zero

lemma addAll_succ (data : ℕ → Record) (e : ℕ → Word) (n : ℕ) :
    addAll data e (n+1) = addAssign (addAll data e n) (mul (data n) (e n)) := by
  rw [addAll, List.range_succ, List.foldl_append, List.foldl_cons, List.foldl_nil, addAll]

lemma subAll_succ (data : ℕ → Record) (e : ℕ → Word) (n : ℕ) :
    subAll data e (n+1) = subAssign (subAll data e n) (mul (data n) (e n)) := by
  rw [subAll, List.range_succ, List.foldl_append, List.foldl_cons, List.foldl_nil, subAll]

/-! ## The reduced fields -/

inductive Field
  | nl
  | nr
  | xl
  | xr

namespace Field

def get (fd : Field) (a : Record) : Word :=
  match fd with
  | nl => a.nl
  | nr => a.nr
  | xl => a.xl
  | xr => a.xr

def lens (fd : Field) (a : Record) : Word :=
  match fd with
  | nl | nr => a.node_lens
  | xl | xr => a.data_lens

variable (fd : Field) (a b : Record)

lemma addAssign_get : fd.get (addAssign a b) = (fd.get a+fd.get b)%lensOr (fd.lens a) (fd.lens b) := by
  cases fd <;> rfl

lemma subAssign_get : fd.get (subAssign a b) =
    (fd.get a+lensOr (fd.lens a) (fd.lens b)-fd.get b)%lensOr (fd.lens a) (fd.lens b) := by
  cases fd <;> rfl

lemma mul_get (other : Word) : fd.get (mul a other) = fd.get a*other%fd.lens a := by
  cases fd <;> rfl

lemma addAssign_lens : fd.lens (addAssign a b) = lensOr (fd.lens a) (fd.lens b) := by
  cases fd <;> rfl

lemma subAssign_lens : fd.lens (subAssign a b) = lensOr (fd.lens a) (fd.lens b) := by
  cases fd <;> rfl

lemma mul_lens (other : Word) : fd.lens (mul a other) = fd.lens a := by
  cases fd <;> rfl

lemma zero_get : fd.get zero = 0 := by
  cases fd <;> rfl

lemma zero_lens : fd.lens zero = 0 := by
  cases fd <;> rfl

end Field

/-! ## One field of a sum -/

section field
variable {fd : Field} {m : Word} {data : ℕ → Record} {e : ℕ → Word}

/-- A sum of records with modulus `m` in the field: nothing is added yet, or it has that modulus. -/
structure Started (fd : Field) (m : Word) (a : Record) : Prop where
  lens : fd.lens a = 0 ∨ fd.lens a = m
  lt : (fd.get a).toNat < m.toNat

lemma started_zero (h0 : 0 < m.toNat) : Started fd m zero :=
  ⟨.inl fd.zero_lens,by rw [fd.zero_get]; exact h0⟩

lemma Started.lensOr {a : Record} (h : Started fd m a) : lensOr (fd.lens a) m = m := by
  rw [NodeSelect.lensOr]
  rcases h.lens with h0 | h0
  · rw [if_pos h0]
  · rw [h0, ite_self]

lemma add_step {a d : Record} (h0 : 0 < m.toNat) (hm : m.toNat < 2^16) (ha : Started fd m a)
    (hd : fd.lens d = m) (c : Word) :
    Started fd m (addAssign a (mul d c)) ∧ ((fd.get (addAssign a (mul d c))).toNat : ZMod m.toNat) =
      (fd.get a).toNat+(fd.get d*c).toNat := by
  have hget : fd.get (addAssign a (mul d c)) = (fd.get a+fd.get d*c%m)%m := by
    rw [fd.addAssign_get, fd.mul_get, fd.mul_lens, hd, ha.lensOr]
  have hlt := umod_lt h0 (fd.get d*c)
  have hga := ha.lt
  refine ⟨⟨.inr ?_,?_⟩,?_⟩
  · rw [fd.addAssign_lens, fd.mul_lens, hd, ha.lensOr]
  · rw [hget]
    exact umod_lt h0 _
  · have hsum : (fd.get a+fd.get d*c%m).toNat = (fd.get a).toNat+(fd.get d*c%m).toNat := by
      rw [BitVec.toNat_add, Nat.mod_eq_of_lt (by omega)]
    rw [hget, cast_umod, hsum, Nat.cast_add, cast_umod]

lemma sub_step {a d : Record} (h0 : 0 < m.toNat) (hm : m.toNat < 2^16) (ha : Started fd m a)
    (hd : fd.lens d = m) (c : Word) :
    Started fd m (subAssign a (mul d c)) ∧ ((fd.get (subAssign a (mul d c))).toNat : ZMod m.toNat) =
      (fd.get a).toNat-(fd.get d*c).toNat := by
  have hget : fd.get (subAssign a (mul d c)) = (fd.get a+m-fd.get d*c%m)%m := by
    rw [fd.subAssign_get, fd.mul_get, fd.mul_lens, hd, ha.lensOr]
  have hlt := umod_lt h0 (fd.get d*c)
  have hga := ha.lt
  refine ⟨⟨.inr ?_,?_⟩,?_⟩
  · rw [fd.subAssign_lens, fd.mul_lens, hd, ha.lensOr]
  · rw [hget]
    exact umod_lt h0 _
  · rw [hget, cast_umod, cast_add_sub hm (by omega) hlt.le, cast_umod]

/-- The products that a field adds up, as residues. -/
lemma addAll_field (h0 : 0 < m.toNat) (hm : m.toNat < 2^16) {n : ℕ} (hd : ∀ i < n, fd.lens (data i) = m) :
    Started fd m (addAll data e n) ∧ ((fd.get (addAll data e n)).toNat : ZMod m.toNat) =
      ∑ i ∈ Finset.range n, ((fd.get (data i)*e i).toNat : ZMod m.toNat) := by
  induction n with
  | zero => exact ⟨started_zero h0,by rw [addAll, List.range_zero, List.foldl_nil, fd.zero_get]; simp⟩
  | succ n ih =>
    obtain ⟨hs, hsum⟩ := ih fun i hi => hd i (by omega)
    obtain ⟨hs', hstep⟩ := add_step h0 hm hs (hd n (by omega)) (e n)
    rw [addAll_succ]
    exact ⟨hs',by rw [hstep, hsum, Finset.sum_range_succ]⟩

lemma subAll_field (h0 : 0 < m.toNat) (hm : m.toNat < 2^16) {n : ℕ} (hd : ∀ i < n, fd.lens (data i) = m) :
    Started fd m (subAll data e n) ∧ ((fd.get (subAll data e n)).toNat : ZMod m.toNat) =
      -∑ i ∈ Finset.range n, ((fd.get (data i)*e i).toNat : ZMod m.toNat) := by
  induction n with
  | zero => exact ⟨started_zero h0,by rw [subAll, List.range_zero, List.foldl_nil, fd.zero_get]; simp⟩
  | succ n ih =>
    obtain ⟨hs, hsum⟩ := ih fun i hi => hd i (by omega)
    obtain ⟨hs', hstep⟩ := sub_step h0 hm hs (hd n (by omega)) (e n)
    rw [subAll_succ]
    exact ⟨hs',by rw [hstep, hsum, Finset.sum_range_succ]; ring⟩

end field

/-! ## The fields without a modulus -/

lemma addAll_words (data : ℕ → Record) (e : ℕ → Word) (n : ℕ) :
    (addAll data e n).t = ∑ i ∈ Finset.range n, (data i).t*e i ∧
      (addAll data e n).v = ∑ i ∈ Finset.range n, (data i).v*e i := by
  induction n with
  | zero => exact ⟨rfl,rfl⟩
  | succ n ih =>
    rw [addAll_succ, Finset.sum_range_succ, Finset.sum_range_succ, ← ih.1, ← ih.2]
    exact ⟨rfl,rfl⟩

lemma subAll_words (data : ℕ → Record) (e : ℕ → Word) (n : ℕ) :
    (subAll data e n).t = -∑ i ∈ Finset.range n, (data i).t*e i ∧
      (subAll data e n).v = -∑ i ∈ Finset.range n, (data i).v*e i := by
  induction n with
  | zero =>
    rw [subAll, List.range_zero, List.foldl_nil, Finset.range_zero, Finset.sum_empty, Finset.sum_empty, neg_zero]
    exact ⟨rfl,rfl⟩
  | succ n ih =>
    rw [subAll_succ, Finset.sum_range_succ, Finset.sum_range_succ, neg_add, neg_add, ← ih.1, ← ih.2]
    exact ⟨sub_eq_add_neg _ _,sub_eq_add_neg _ _⟩

/-! ## Selection -/

/-- Records of one tree and shares of a unit vector. -/
structure Selection where
  node_lens : Word
  data_lens : Word
  node_pos : 1 ≤ node_lens.toNat
  node_lt : node_lens.toNat < 2^16
  data_pos : 1 ≤ data_lens.toNat
  data_lt : data_lens.toNat < 2^16
  n : ℕ
  data : ℕ → Record
  e0 : ℕ → Word
  e1 : ℕ → Word
  j : ℕ
  j_lt : j < n
  lens : ∀ i < n, (data i).node_lens = node_lens ∧ (data i).data_lens = data_lens
  nodes : ∀ i < n, (data i).nl.toNat < node_lens.toNat ∧ (data i).nr.toNat < node_lens.toNat
  features : ∀ i < n, (data i).xl.toNat < data_lens.toNat ∧ (data i).xr.toNat < data_lens.toNat
  unit : ∀ i < n, e0 i-e1 i = if i = j then 1 else 0

namespace Selection
variable (s : Selection)

def left : Record := addAll s.data s.e0 s.n

def right : Record := subAll s.data s.e1 s.n

/-- The two records add up to record `j`. -/
structure AddsUp : Prop where
  nl : (s.left.nl.toNat+s.right.nl.toNat)%s.node_lens.toNat = (s.data s.j).nl.toNat
  nr : (s.left.nr.toNat+s.right.nr.toNat)%s.node_lens.toNat = (s.data s.j).nr.toNat
  xl : (s.left.xl.toNat+s.right.xl.toNat)%s.data_lens.toNat = (s.data s.j).xl.toNat
  xr : (s.left.xr.toNat+s.right.xr.toNat)%s.data_lens.toNat = (s.data s.j).xr.toNat
  t : s.left.t+s.right.t = (s.data s.j).t
  v : s.left.v+s.right.v = (s.data s.j).v

/-- The field of record `j` can be added to its multiple without wrapping around, or the wrap-around
does not matter. -/
def Fits (fd : Field) : Prop :=
  (fd.lens (s.data s.j)).toNat ∣ 2^32 ∨
    (fd.get (s.data s.j)*s.e1 s.j).toNat+(fd.get (s.data s.j)).toNat < 2^32

/-- The modulus of a field, and the range of the field in every record. -/
lemma field_lens (fd : Field) {i : ℕ} (hi : i < s.n) :
    fd.lens (s.data i) = fd.lens (s.data s.j) ∧ 0 < (fd.lens (s.data s.j)).toNat ∧
      (fd.lens (s.data s.j)).toNat < 2^16 ∧
        (fd.get (s.data i)).toNat < (fd.lens (s.data s.j)).toNat := by
  have hl := s.lens i hi
  have hj := s.lens s.j s.j_lt
  have hn := s.nodes i hi
  have hx := s.features i hi
  have h1 := s.node_pos
  have h2 := s.node_lt
  have h3 := s.data_pos
  have h4 := s.data_lt
  cases fd <;> simp only [Field.lens, Field.get, hl, hj, true_and] <;> omega

/-- Only the products with record `j` differ. -/
lemma sum_diff {M : Type*} [AddCommGroup M] (g : ℕ → Word → M) :
    ∑ i ∈ Finset.range s.n, g i (s.e0 i)-∑ i ∈ Finset.range s.n, g i (s.e1 i) =
      g s.j (s.e1 s.j+1)-g s.j (s.e1 s.j) := by
  rw [← Finset.sum_sub_distrib, Finset.sum_eq_single_of_mem s.j (Finset.mem_range.mpr s.j_lt)]
  · have hunit := s.unit s.j s.j_lt
    rw [if_pos rfl, sub_eq_iff_eq_add'] at hunit
    rw [hunit]
  · intro i hi hne
    have hunit := s.unit i (Finset.mem_range.mp hi)
    rw [if_neg hne, sub_eq_zero] at hunit
    rw [hunit, sub_self]

lemma field_sum (fd : Field) :
    (((fd.get s.left).toNat+(fd.get s.right).toNat : ℕ) : ZMod (fd.lens (s.data s.j)).toNat) =
      (fd.get (s.data s.j)*(s.e1 s.j+1)).toNat-(fd.get (s.data s.j)*s.e1 s.j).toNat := by
  obtain ⟨-, h0, hm, -⟩ := s.field_lens fd s.j_lt
  have hd := fun i hi => (s.field_lens fd (i := i) hi).1
  have hl := (addAll_field (e := s.e0) h0 hm hd).2
  have hr := (subAll_field (e := s.e1) h0 hm hd).2
  have hdiff := s.sum_diff fun i c => ((fd.get (s.data i)*c).toNat : ZMod (fd.lens (s.data s.j)).toNat)
  rw [Nat.cast_add, left, hl, right, hr, ← sub_eq_add_neg]
  exact hdiff

/-- One more multiple of `x` wraps around or not. -/
lemma mul_succ (x e : Word) : (x*(e+1)).toNat+(if (x*e).toNat+x.toNat < 2^32 then 0 else 2^32) =
    (x*e).toNat+x.toNat := by
  rw [mul_add, mul_one, BitVec.toNat_add]
  have h1 := (x*e).isLt
  have h2 := x.isLt
  split
  · rw [Nat.mod_eq_of_lt (by omega), add_zero]
  · omega

lemma field_iff (fd : Field) :
    ((fd.get s.left).toNat+(fd.get s.right).toNat)%(fd.lens (s.data s.j)).toNat =
      (fd.get (s.data s.j)).toNat ↔ s.Fits fd := by
  obtain ⟨-, -, -, hlt⟩ := s.field_lens fd s.j_lt
  have hsum := s.field_sum fd
  have hstep := mul_succ (fd.get (s.data s.j)) (s.e1 s.j)
  rw [Fits]
  generalize (fd.lens (s.data s.j)).toNat = m at hlt hsum ⊢
  generalize fd.get (s.data s.j) = x at hlt hsum hstep ⊢
  generalize s.e1 s.j = e at hsum hstep ⊢
  have hcast := congrArg (Nat.cast : ℕ → ZMod m) hstep
  rw [Nat.cast_add, Nat.cast_add] at hcast
  have hres : ((((fd.get s.left).toNat+(fd.get s.right).toNat : ℕ) : ZMod m) = (x.toNat : ℕ)) ↔
      (((if (x*e).toNat+x.toNat < 2^32 then 0 else 2^32 : ℕ)) : ZMod m) = 0 := by
    rw [hsum]
    constructor
    · intro h
      linear_combination hcast-h
    · intro h
      linear_combination hcast-h
  have hmod : ∀ a, a%m = x.toNat ↔ ((a : ℕ) : ZMod m) = (x.toNat : ℕ) := by
    intro a
    rw [ZMod.natCast_eq_natCast_iff', Nat.mod_eq_of_lt hlt]
  rw [hmod, hres, ZMod.natCast_eq_zero_iff]
  by_cases hfit : (x*e).toNat+x.toNat < 2^32
  · rw [if_pos hfit]
    exact iff_of_true (dvd_zero m) (.inr hfit)
  · rw [if_neg hfit]
    exact (or_iff_left hfit).symm

lemma words_add : s.left.t+s.right.t = (s.data s.j).t ∧ s.left.v+s.right.v = (s.data s.j).v := by
  have ht := s.sum_diff fun i c => (s.data i).t*c
  have hv := s.sum_diff fun i c => (s.data i).v*c
  rw [left, right, (addAll_words ..).1, (addAll_words ..).2, (subAll_words ..).1, (subAll_words ..).2]
  constructor
  · linear_combination ht
  · linear_combination hv

/-- The selection is right exactly when all four reduced fields fit. -/
theorem addsUp_iff : s.AddsUp ↔ ∀ fd, s.Fits fd := by
  have hn := (s.lens s.j s.j_lt).1
  have hx := (s.lens s.j s.j_lt).2
  have hnl := s.field_iff .nl
  have hnr := s.field_iff .nr
  have hxl := s.field_iff .xl
  have hxr := s.field_iff .xr
  simp only [Field.get, Field.lens, hn, hx] at hnl hnr hxl hxr
  constructor
  · intro h fd
    cases fd with
    | nl => exact hnl.mp h.nl
    | nr => exact hnr.mp h.nr
    | xl => exact hxl.mp h.xl
    | xr => exact hxr.mp h.xr
  · intro h
    exact ⟨hnl.mpr (h .nl),hnr.mpr (h .nr),hxl.mpr (h .xl),hxr.mpr (h .xr),s.words_add.1,s.words_add.2⟩

end Selection

/-! ### Three nodes -/

/-- One record of a tree with three nodes, with the shares `0` and `2^32-1` of 1. -/
def threeNodes : Selection where
  node_lens := 3
  data_lens := 1
  node_pos := by decide
  node_lt := by decide
  data_pos := by decide
  data_lt := by decide
  n := 1
  data _ := ⟨2,0,0,0,5,0,3,1⟩
  e0 _ := 0
  e1 _ := -1
  j := 0
  j_lt := by decide
  lens := fun _ _ => ⟨rfl,rfl⟩
  nodes := fun _ _ => ⟨by decide,by decide⟩
  features := fun _ _ => ⟨by decide,by decide⟩
  unit := by decide

/-- The child 2 is opened as 1. -/
theorem addsUp_three : ¬threeNodes.AddsUp := by
  intro h
  exact absurd h.nl (by decide)

end OramPro.NodeSelect
