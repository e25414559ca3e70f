import OramPro.Bmr
import OramPro.XorSum

/-!
# The offline phase

After `offline` the opened masks and every party's labels satisfy the relations of all gates, and
the joined tables have the row that the labels of a gate select.
-/
namespace OramPro.BMR

open Netlist

/-! ## XOR over all parties -/

section xor
variable {w n : ℕ}

lemma foldl_others (c : Config) {p : ℕ} (hp : p < c.players_num) (f : ℕ → BitVec w) :
    (c.others p).foldl (fun v q => v ^^^ f q) (f p) = xorAll c.players_num f := by
  have hmem : p ∈ c.Pmap := c.perm.mem_iff.mpr (List.mem_range.mpr hp)
  have hnd : c.Pmap.Nodup := c.perm.nodup_iff.mpr List.nodup_range
  have hperm : (p :: c.others p).Perm (List.range c.players_num) :=
    (perm_others hnd hmem).trans c.perm
  rw [← foldl_xor_range, ← hperm.foldl_eq', List.foldl_cons, zero_xor]
  intro x _ y _ z
  rw [BitVec.xor_assoc, BitVec.xor_comm (f x), BitVec.xor_assoc]

end xor

/-! ## Bits in bytes -/

def bit (b : Bool) : Byte := if b then 1 else 0

lemma bit_xor (a b : Bool) : bit a ^^^ bit b = bit (a ^^ b) := by cases a <;> cases b <;> rfl
lemma bit_and (a b : Bool) : bit a &&& bit b = bit (a && b) := by cases a <;> cases b <;> rfl
lemma bit_not (a : Bool) : bit a ^^^ 1 = bit (!a) := by cases a <;> rfl
lemma bit_toNat (a : Bool) : (bit a).toNat = a.toNat := by cases a <;> rfl
lemma bit_ne_zero (a : Bool) : bit a ≠ 0 ↔ a = true := by cases a <;> simp [bit]

lemma ofNat_toNat (a : Bool) : BitVec.ofNat 8 a.toNat = bit a := by cases a <;> rfl

/-! ## Masks -/

section masks
variable {c : Config} {cf : Circuit} {p : ℕ}

lemma range_lt (hcf : cf.Topological) : ∀ w ∈ Finset.range cf.in_size, w < cf.num_wire :=
  fun _ hw => (Finset.mem_range.mp hw).trans_le hcf.inputs

/-- What a gate demands of one party's masks; `AND` gates keep the drawn mask `m0`. -/
def MaskRel (p : ℕ) (m0 : ℕ → Byte) : Gate → (ℕ → Byte) → Prop
  | .AND _ _ w,m => m w = m0 w
  | .XOR a b w,m => m w = m a ^^^ m b
  | .NOT a w,m => m w = if p = 0 then m a ^^^ 1 else m a

lemma maskGate_fold (hcf : cf.Topological) (p : ℕ) {m0 : Buf Byte} (hm0 : m0.size = cf.num_wire) :
    ∃ m, cf.gates.foldlM (maskGate p 0) m0 = .ok m ∧ m.size = cf.num_wire ∧
      (∀ w < cf.in_size, m.val w = m0.val w) ∧ ∀ g ∈ cf.gates, MaskRel p m0.val g m.val := by
  have hfold := Ordered.foldlM_sat (maskGate p 0) Buf.val (fun m => m.size = cf.num_wire)
    (fun _ => ([] : List Unit)) (MaskRel p m0.val) (fun _ _ => []) m0.val ?_ ?_ (range_lt hcf)
    hcf.order hm0 fun _ _ => rfl
  · obtain ⟨m, hm, hsize, hkeep, hrel, -⟩ := hfold
    exact ⟨m,hm,hsize,fun w hw => hkeep w (Finset.mem_range.mpr hw),hrel⟩
  · intro m g hm hin hlt hfresh
    cases g with
    | AND a b w => exact ⟨m,rfl,hm,fun _ _ => rfl,hfresh,rfl⟩
    | XOR a b w =>
      obtain ⟨⟨ha, hane⟩, hb, hbne⟩ : (a < cf.num_wire ∧ a ≠ w) ∧ b < cf.num_wire ∧ b ≠ w := by
        simpa [Gate.ins, Gate.out] using hin
      refine ⟨m.put w (m.val a ^^^ m.val b),?_,hm,fun x hx => Buf.put_of_ne hx _,?_,rfl⟩
      · simp only [maskGate, zero_add]
        rw [Buf.get_ok (hm ▸ ha), Buf.get_ok (hm ▸ hb)]
        exact Buf.set_ok (hm ▸ hlt) _
      · simp [MaskRel, Buf.put_of_ne hane, Buf.put_of_ne hbne]
    | NOT a w =>
      obtain ⟨ha, hane⟩ : a < cf.num_wire ∧ a ≠ w := by simpa [Gate.ins, Gate.out] using hin
      refine ⟨m.put w (if p = 0 then m.val a ^^^ 1 else m.val a),?_,hm,
        fun x hx => Buf.put_of_ne hx _,?_,rfl⟩
      · simp only [maskGate, zero_add]
        rw [Buf.get_ok (hm ▸ ha)]
        exact Buf.set_ok (hm ▸ hlt) _
      · simp [MaskRel, Buf.put_of_ne hane]
  · intro g v v' hin hout
    refine ⟨rfl,fun h => ?_⟩
    cases g with
    | AND a b w => exact hout.symm.trans h
    | XOR a b w =>
      simp only [Gate.ins, List.mem_cons, List.not_mem_nil, or_false, forall_eq_or_imp, forall_eq] at hin
      simp only [MaskRel, Gate.out] at h hout ⊢
      rw [← hout, h, hin.1, hin.2]
    | NOT a w =>
      simp only [Gate.ins, List.mem_singleton, forall_eq] at hin
      simp only [MaskRel, Gate.out] at h hout ⊢
      rw [← hout, h, hin]

/-- The opened masks follow the gates without tables. -/
def OpenRel (ob : ℕ → Bool) : Gate → Prop
  | .AND _ _ _ => True
  | .XOR a b w => ob w = (ob a ^^ ob b)
  | .NOT a w => ob w = !ob a

lemma bit_injective {a b : Bool} (h : bit a = bit b) : a = b := by
  revert h
  cases a <;> cases b <;> decide

lemma masks_xor {m0 masks : ℕ → Buf Byte}
    (hrel : ∀ p < c.players_num, ∀ g ∈ cf.gates, MaskRel p (m0 p).val g (masks p).val) {a b w : ℕ}
    (hg : Gate.XOR a b w ∈ cf.gates) : xorAll c.players_num (fun q => (masks q).val w) =
      xorAll c.players_num (fun q => (masks q).val a) ^^^
        xorAll c.players_num fun q => (masks q).val b := by
  rw [← xorAll_xor]
  exact xorAll_congr fun p hp => hrel p hp _ hg

lemma masks_not {m0 masks : ℕ → Buf Byte}
    (hrel : ∀ p < c.players_num, ∀ g ∈ cf.gates, MaskRel p (m0 p).val g (masks p).val) {a w : ℕ}
    (hg : Gate.NOT a w ∈ cf.gates) : xorAll c.players_num (fun q => (masks q).val w) =
      xorAll c.players_num (fun q => (masks q).val a) ^^^ 1 := by
  rw [← xorAll_single c.pos (1 : Byte), ← xorAll_xor]
  refine xorAll_congr fun p hp => (hrel p hp _ hg).trans ?_
  split
  · rfl
  · rw [xor_zero]

/-- The masks of a wire open to a bit. -/
lemma masks_bit (hcf : cf.Topological) {m0 masks : ℕ → Buf Byte}
    (hbit : ∀ w < cf.num_wire, ∃ b, xorAll c.players_num (fun p => (m0 p).val w) = bit b)
    (hin : ∀ p < c.players_num, ∀ w < cf.in_size, (masks p).val w = (m0 p).val w)
    (hrel : ∀ p < c.players_num, ∀ g ∈ cf.gates, MaskRel p (m0 p).val g (masks p).val) :
    ∀ w < cf.num_wire, ∃ b, xorAll c.players_num (fun q => (masks q).val w) = bit b := by
  refine hcf.order.forall_wire (fun w hw => ?_) fun g hg hins => ?_
  · obtain ⟨b, hb⟩ := hbit w (range_lt hcf w hw)
    exact ⟨b,(xorAll_congr fun p hp => hin p hp w (Finset.mem_range.mp hw)).trans hb⟩
  · cases g with
    | AND a b w =>
      obtain ⟨x, hx⟩ := hbit w (hcf.order.lt (range_lt hcf) hg).1
      exact ⟨x,(xorAll_congr fun p hp => hrel p hp _ hg).trans hx⟩
    | XOR a b w =>
      obtain ⟨x, hx⟩ := hins a (by simp [Gate.ins])
      obtain ⟨y, hy⟩ := hins b (by simp [Gate.ins])
      exact ⟨x ^^ y,by rw [Gate.out, masks_xor hrel hg, hx, hy, bit_xor]⟩
    | NOT a w =>
      obtain ⟨x, hx⟩ := hins a (by simp [Gate.ins])
      exact ⟨!x,by rw [Gate.out, masks_not hrel hg, hx, bit_not]⟩

lemma open_masks (hcf : cf.Topological) {m0 masks : ℕ → Buf Byte}
    (hbit : ∀ w < cf.num_wire, ∃ b, xorAll c.players_num (fun p => (m0 p).val w) = bit b)
    (hin : ∀ p < c.players_num, ∀ w < cf.in_size, (masks p).val w = (m0 p).val w)
    (hrel : ∀ p < c.players_num, ∀ g ∈ cf.gates, MaskRel p (m0 p).val g (masks p).val) :
    ∃ ob : ℕ → Bool, (∀ p < c.players_num, ∀ w < cf.num_wire,
      (openBits c p masks).val w = bit (ob w)) ∧ ∀ g ∈ cf.gates, OpenRel ob g := by
  have hopen : ∀ p < c.players_num, ∀ w, (openBits c p masks).val w =
      xorAll c.players_num fun q => (masks q).val w :=
    fun p hp w => foldl_others c hp fun q => (masks q).val w
  have hob : ∀ w < cf.num_wire, xorAll c.players_num (fun q => (masks q).val w) =
      bit (xorAll c.players_num (fun q => (masks q).val w) ≠ 0) := by
    intro w hw
    obtain ⟨b, hb⟩ := masks_bit hcf hbit hin hrel w hw
    rw [hb]
    cases b <;> rfl
  refine ⟨fun w => xorAll c.players_num (fun q => (masks q).val w) ≠ 0,
    fun p hp w hw => (hopen p hp w).trans (hob w hw),fun g hg => ?_⟩
  obtain ⟨hout, hins⟩ := hcf.order.lt (range_lt hcf) hg
  cases g with
  | AND a b w => trivial
  | XOR a b w =>
    apply bit_injective
    have ha := hob a (hins a (by simp [Gate.ins]))
    have hb := hob b (hins b (by simp [Gate.ins]))
    rw [← bit_xor, ← ha, ← hb, ← masks_xor hrel hg]
    exact (hob w hout).symm
  | NOT a w =>
    apply bit_injective
    have ha := hob a (hins a (by simp [Gate.ins]))
    rw [← bit_not, ← ha, ← masks_not hrel hg]
    exact (hob w hout).symm

end masks

/-! ## Labels and tables -/

section garble
variable (c : Config) (hash : Hash) (d : Draw) (p : ℕ)

/-- The place of a table: the wires and the number of its gate, and the receiver. -/
structure Entry where
  in0 : ℕ
  in1 : ℕ
  out : ℕ
  gate : ℕ
  receiver : ℕ

def entries (n : ℕ) : Gate × ℕ → List Entry
  | (.AND a b w,i) => (List.range n).map fun j => ⟨a,b,w,i,j⟩
  | _ => []

def pairs (Ks : Buf Block) (w : ℕ) : Block × Block := (Ks.val (w*2),Ks.val (w*2+1))

def side (x : Block × Block) (b : ℕ) : Block := if b = 0 then x.1 else x.2

/-- What party `p` puts into a table. -/
def tableOf (o : ℕ → Byte) (v : ℕ → Block × Block) (e : Entry) : GcTable := ⟨fun k =>
  let sbit := ((o e.in0 ^^^ BitVec.ofNat 8 (k%2)) &&& (o e.in1 ^^^ BitVec.ofNat 8 (k/2))) ^^^ o e.out
  let t := hash (side (v e.in0) (k%2)) (side (v e.in1) (k/2)) e.gate e.receiver
  if getIdex p = e.receiver then if sbit ≠ 0 then t ^^^ (v e.out).1 ^^^ d.R p else t ^^^ (v e.out).1
  else t⟩

/-- What a gate demands of the label pairs. -/
def LabelRel (R : Block) : Gate → (ℕ → Block × Block) → Prop
  | .AND _ _ w,v => (v w).2 = (v w).1 ^^^ R
  | .XOR a b w,v => (v w).1 = (v a).1 ^^^ (v b).1 ∧ (v w).2 = (v w).1 ^^^ R
  | .NOT a w,v => v w = v a

variable {c hash d p} {cf : Circuit}

def putPair (Ks : Buf Block) (w : ℕ) (x y : Block) : Buf Block := (Ks.put (w*2) x).put (w*2+1) y

lemma pairs_self (Ks : Buf Block) (w : ℕ) (x y : Block) : pairs (putPair Ks w x y) w = (x,y) := by
  have h : w*2 ≠ w*2+1 := by omega
  rw [pairs, putPair, Buf.put_of_ne h, Buf.put_self, Buf.put_self]

lemma pairs_of_ne (Ks : Buf Block) {a w : ℕ} (ha : a ≠ w) (x y : Block) :
    pairs (putPair Ks w x y) a = pairs Ks a := by
  have h0 : a*2 ≠ w*2 := by omega
  have h1 : a*2 ≠ w*2+1 := by omega
  have h2 : a*2+1 ≠ w*2 := by omega
  have h3 : a*2+1 ≠ w*2+1 := by omega
  rw [pairs, putPair, Buf.put_of_ne h1, Buf.put_of_ne h0, Buf.put_of_ne h3, Buf.put_of_ne h2, pairs]

lemma garbleGate_step {opened : Buf Byte} (ho : opened.size = cf.num_wire) {s : Garbled}
    (hs : s.Ks.size = cf.num_wire*2) (g : Gate × ℕ)
    (hin : ∀ a ∈ g.1.ins, a < cf.num_wire ∧ a ≠ g.1.out) (hlt : g.1.out < cf.num_wire) :
    ∃ s', garbleGate c hash d p 0 0 opened s g = .ok s' ∧ s'.Ks.size = cf.num_wire*2 ∧
      (∀ w ≠ g.1.out, pairs s'.Ks w = pairs s.Ks w) ∧ LabelRel (d.R p) g.1 (pairs s'.Ks) ∧
      s'.tabs = s.tabs++(entries c.players_num g).map
        (tableOf hash d p opened.val (pairs s'.Ks)) := by
  obtain ⟨g, i⟩ := g
  cases g with
  | AND a b w =>
    obtain ⟨⟨ha, hane⟩, hb, hbne⟩ : (a < cf.num_wire ∧ a ≠ w) ∧ b < cf.num_wire ∧ b ≠ w := by
      simpa [Gate.ins, Gate.out] using hin
    have hw : w < cf.num_wire := hlt
    have hrun : garbleGate c hash d p 0 0 opened s (.AND a b w,i) =
        .ok ⟨putPair s.Ks w (d.label p 0 w) (d.label p 0 w ^^^ d.R p),s.tabs++
          (entries c.players_num (.AND a b w,i)).map (tableOf hash d p opened.val
            (pairs (putPair s.Ks w (d.label p 0 w) (d.label p 0 w ^^^ d.R p))))⟩ := by
      simp (disch := first | omega | (simp only [Buf.put_size]; omega)) only [garbleGate, readPair,
        zero_add, ok_bind, pure_bind, Buf.set_ok, Buf.get_ok, Buf.put_self, entries, List.map_map]
      rfl
    refine ⟨_,hrun,hs,fun x hx => pairs_of_ne _ hx _ _,?_,rfl⟩
    simp only [LabelRel, pairs_self]
  | XOR a b w =>
    obtain ⟨⟨ha, hane⟩, hb, hbne⟩ : (a < cf.num_wire ∧ a ≠ w) ∧ b < cf.num_wire ∧ b ≠ w := by
      simpa [Gate.ins, Gate.out] using hin
    have hw : w < cf.num_wire := hlt
    have hrun : garbleGate c hash d p 0 0 opened s (.XOR a b w,i) =
        .ok ⟨putPair s.Ks w (s.Ks.val (a*2) ^^^ s.Ks.val (b*2))
          (s.Ks.val (a*2) ^^^ s.Ks.val (b*2) ^^^ d.R p),s.tabs⟩ := by
      simp (disch := first | omega | (simp only [Buf.put_size]; omega)) only [garbleGate, zero_add,
        ok_bind, Buf.set_ok, Buf.get_ok, Buf.put_self]
      rfl
    refine ⟨_,hrun,hs,fun x hx => pairs_of_ne _ hx _ _,?_,(List.append_nil _).symm⟩
    simp only [LabelRel, pairs_self, pairs_of_ne _ hane, pairs_of_ne _ hbne]
    exact ⟨rfl,trivial⟩
  | NOT a w =>
    obtain ⟨ha, hane⟩ : a < cf.num_wire ∧ a ≠ w := by simpa [Gate.ins, Gate.out] using hin
    have hw : w < cf.num_wire := hlt
    have hlab : ∀ x, (s.Ks.put (w*2) x).val (a*2+1) = s.Ks.val (a*2+1) :=
      fun x => Buf.put_of_ne (by omega) x
    have hrun : garbleGate c hash d p 0 0 opened s (.NOT a w,i) =
        .ok ⟨putPair s.Ks w (s.Ks.val (a*2)) (s.Ks.val (a*2+1)),s.tabs⟩ := by
      simp (disch := first | omega | (simp only [Buf.put_size]; omega)) only [garbleGate, zero_add,
        ok_bind, Buf.set_ok, Buf.get_ok, hlab]
      rfl
    refine ⟨_,hrun,hs,fun x hx => pairs_of_ne _ hx _ _,?_,(List.append_nil _).symm⟩
    simp only [LabelRel, pairs_self, pairs_of_ne _ hane]
    rfl

lemma inputLabel_fold {W n : ℕ} (hn : n ≤ W) {Ks : Buf Block} (hKs : Ks.size = W*2) :
    ∃ Ks', (List.range n).foldlM (inputLabel d p 0 0 0) Ks = .ok Ks' ∧ Ks'.size = W*2 ∧
      ∀ w < n, (pairs Ks' w).2 = (pairs Ks' w).1 ^^^ d.R p := by
  refine CountLoop.foldlM_range
    (P := fun n (K : Buf Block) => K.size = W*2 ∧ ∀ w < n, (pairs K w).2 = (pairs K w).1 ^^^ d.R p)
    ⟨hKs,fun w hw => absurd hw (by omega)⟩ fun m hm K ⟨hsize, hpair⟩ => ?_
  refine ⟨putPair K m (d.label p 0 m) (d.R p ^^^ d.label p 0 m),?_,hsize,fun w hw => ?_⟩
  · simp (disch := first | omega | (simp only [Buf.put_size]; omega)) only [inputLabel, zero_add,
      ok_bind, Buf.set_ok, Buf.get_ok, Buf.put_self]
    rfl
  · by_cases hwm : w = m
    · subst hwm
      rw [pairs_self, BitVec.xor_comm]
    · rw [pairs_of_ne _ hwm]
      exact hpair w (by omega)

lemma tableOf_congr {o : ℕ → Byte} {v v' : ℕ → Block × Block} {g : Gate × ℕ}
    (hin : ∀ a ∈ g.1.ins, v a = v' a) (hout : v g.1.out = v' g.1.out) (n : ℕ) :
    (entries n g).map (tableOf hash d p o v) = (entries n g).map (tableOf hash d p o v') := by
  obtain ⟨g, i⟩ := g
  refine List.map_congr_left fun e he => ?_
  cases g with
  | AND a b w =>
    obtain ⟨j, -, rfl⟩ := List.mem_map.mp he
    have hw : v w = v' w := hout
    simp only [Gate.ins, List.mem_cons, List.not_mem_nil, or_false, forall_eq_or_imp, forall_eq] at hin
    simp only [tableOf, hin.1, hin.2, hw]
  | XOR a b w => cases he
  | NOT a w => cases he

lemma LabelRel.congr {R : Block} {v v' : ℕ → Block × Block} {g : Gate}
    (hin : ∀ a ∈ g.ins, v a = v' a) (hout : v g.out = v' g.out) (h : LabelRel R g v) :
    LabelRel R g v' := by
  cases g with
  | AND a b w =>
    simp only [LabelRel, Gate.out] at h hout ⊢
    rw [← hout, h]
  | XOR a b w =>
    simp only [Gate.ins, List.mem_cons, List.not_mem_nil, or_false, forall_eq_or_imp, forall_eq] at hin
    simp only [LabelRel, Gate.out] at h hout ⊢
    rw [← hout, ← hin.1, ← hin.2]
    exact h
  | NOT a w =>
    simp only [Gate.ins, List.mem_singleton, forall_eq] at hin
    simp only [LabelRel, Gate.out] at h hout ⊢
    rw [← hout, ← hin, h]

lemma garble_fold (hcf : cf.Topological) {opened : Buf Byte} (ho : opened.size = cf.num_wire)
    {Ks : Buf Block} (hKs : Ks.size = cf.num_wire*2)
    (hR : ∀ w < cf.in_size, (pairs Ks w).2 = (pairs Ks w).1 ^^^ d.R p) :
    ∃ s, cf.gates.zipIdx.foldlM (garbleGate c hash d p 0 0 opened) ⟨Ks,[]⟩ = .ok s ∧
      s.Ks.size = cf.num_wire*2 ∧
      (∀ w < cf.num_wire, (pairs s.Ks w).2 = (pairs s.Ks w).1 ^^^ d.R p) ∧
      (∀ g ∈ cf.gates, LabelRel (d.R p) g (pairs s.Ks)) ∧
      s.tabs = (cf.gates.zipIdx.flatMap (entries c.players_num)).map
        (tableOf hash d p opened.val (pairs s.Ks)) := by
  have hfold := (hcf.order.zipIdx 0).foldlM_sat (garbleGate c hash d p 0 0 opened)
    (fun s => pairs s.Ks) (fun s => s.Ks.size = cf.num_wire*2) Garbled.tabs
    (fun g v => LabelRel (d.R p) g.1 v)
    (fun g v => (entries c.players_num g).map (tableOf hash d p opened.val v)) (pairs Ks)
    (fun s g hs hin hlt _ => garbleGate_step ho hs g hin hlt)
    (fun g v v' hin hout => ⟨tableOf_congr hin hout _,LabelRel.congr hin hout⟩)
    (range_lt hcf) (s := ⟨Ks,[]⟩) hKs fun _ _ => rfl
  obtain ⟨s, hs, hsize, hkeep, hrel, hlog⟩ := hfold
  have hgates : ∀ g ∈ cf.gates, LabelRel (d.R p) g (pairs s.Ks) := by
    intro g hg
    obtain ⟨i, hi, rfl⟩ := List.mem_iff_getElem.mp hg
    exact hrel (cf.gates[i],i) (by simp [List.mem_zipIdx_iff_getElem?, hi])
  refine ⟨s,hs,hsize,?_,hgates,?_⟩
  · refine hcf.order.forall_wire (fun w hw => ?_) fun g hg hins => ?_
    · have hin := hkeep w hw
      rw [hin]
      exact hR w (Finset.mem_range.mp hw)
    · have h := hgates g hg
      cases g with
      | AND a b w => exact h
      | XOR a b w => exact h.2
      | NOT a w =>
        have ha := hins a (by simp [Gate.ins])
        simp only [LabelRel] at h
        simp only [Gate.out, h, ha]
  · rw [hlog, List.map_flatMap]
    rfl

/-- Tables that all parties make for the same places join place by place. -/
lemma openTabs_map {tabs : ℕ → List GcTable} {L : List Entry} {f : ℕ → Entry → GcTable}
    (hp : p < c.players_num) (h : ∀ q < c.players_num, tabs q = L.map (f q)) :
    openTabs c p tabs = L.map fun e => ⟨fun k => xorAll c.players_num fun q => (f q e).t k⟩ := by
  have hlt : ∀ q ∈ c.others p, q < c.players_num := fun q hq =>
    List.mem_range.mp (c.perm.mem_iff.mp (List.mem_of_mem_filter hq))
  have hfold : ∀ (l : List ℕ) (g : Entry → GcTable), (∀ q ∈ l, q < c.players_num) →
      l.foldl (fun t q => List.zipWith (fun x y => ⟨fun k => x.t k ^^^ y.t k⟩) t (tabs q)) (L.map g) =
        L.map fun e => ⟨fun k => l.foldl (fun v q => v ^^^ (f q e).t k) ((g e).t k)⟩ := by
    intro l
    induction l with
    | nil => intro g _; rfl
    | cons q l ih =>
      intro g hl
      have hone : List.zipWith (fun x y => (⟨fun k => x.t k ^^^ y.t k⟩ : GcTable)) (L.map g) (tabs q) =
          L.map fun e => ⟨fun k => (g e).t k ^^^ (f q e).t k⟩ := by
        rw [h q (hl q List.mem_cons_self), List.zipWith_map, List.zipWith_self]
      rw [List.foldl_cons, hone, ih _ fun q' hq' => hl q' (List.mem_cons_of_mem q hq')]
      rfl
  rw [openTabs, h p hp, hfold _ _ hlt]
  refine List.map_congr_left fun e _ => ?_
  congr 1
  funext k
  exact foldl_others c hp fun q => (f q e).t k

/-- What the offline phase leaves with the parties. -/
structure Sound (c : Config) (cf : Circuit) (hash : Hash) (d : Draw) (ob : ℕ → Bool)
    (off : ℕ → Offline) : Prop where
  size : ∀ p < c.players_num, (off p).opened_bits.size = cf.num_wire
  opened : ∀ p < c.players_num, ∀ w < cf.num_wire, (off p).opened_bits.val w = bit (ob w)
  openRel : ∀ g ∈ cf.gates, OpenRel ob g
  sizeKs : ∀ p < c.players_num, (off p).Ks.size = cf.num_wire*2
  offset : ∀ p < c.players_num, ∀ w < cf.num_wire,
    (pairs (off p).Ks w).2 = (pairs (off p).Ks w).1 ^^^ d.R p
  labelRel : ∀ p < c.players_num, ∀ g ∈ cf.gates, LabelRel (d.R p) g (pairs (off p).Ks)
  tabs : ∀ p < c.players_num, (off p).tabs = (cf.gates.zipIdx.flatMap (entries c.players_num)).map
    fun e => ⟨fun k => xorAll c.players_num fun q =>
      (tableOf hash d q (off q).opened_bits.val (pairs (off q).Ks) e).t k⟩

/-- The two passes over the gates, from any masks that open to bits and any labels of the inputs
that differ by the offset. -/
lemma offline_sound (hash) (hcf : cf.Topological) (m0 : ℕ → Buf Byte)
    (hm0 : ∀ p, (m0 p).size = cf.num_wire)
    (hbit : ∀ w < cf.num_wire, ∃ b, xorAll c.players_num (fun p => (m0 p).val w) = bit b)
    {K0 : ℕ → Buf Block} (hK0 : ∀ p < c.players_num, (K0 p).size = cf.num_wire*2)
    (hR : ∀ p < c.players_num, ∀ w < cf.in_size,
      (pairs (K0 p) w).2 = (pairs (K0 p) w).1 ^^^ d.R p) :
    ∃ m : ℕ → Buf Byte, (∀ p, cf.gates.foldlM (maskGate p 0) (m0 p) = .ok (m p)) ∧
      ∀ masks : ℕ → Buf Byte, (∀ p < c.players_num, masks p = m p) →
      ∃ garbled : ℕ → Garbled, (∀ p < c.players_num,
        cf.gates.zipIdx.foldlM (garbleGate c hash d p 0 0 (openBits c p masks)) ⟨K0 p,[]⟩ =
          .ok (garbled p)) ∧
      ∀ g' : ℕ → Garbled, (∀ p < c.players_num, g' p = garbled p) → ∃ ob, Sound c cf hash d ob
        fun p => ⟨openBits c p masks,(g' p).Ks,openTabs c p fun q => (g' q).tabs⟩ := by
  have hmask := fun p => maskGate_fold hcf p (hm0 p)
  choose m hm hsize hin hrel using hmask
  refine ⟨m,hm,fun masks hmasks => ?_⟩
  have hin' : ∀ p < c.players_num, ∀ w < cf.in_size, (masks p).val w = (m0 p).val w :=
    fun p hp => by rw [hmasks p hp]; exact hin p
  have hrel' : ∀ p < c.players_num, ∀ g ∈ cf.gates, MaskRel p (m0 p).val g (masks p).val :=
    fun p hp => by rw [hmasks p hp]; exact hrel p
  obtain ⟨ob, hob, hobRel⟩ := open_masks hcf hbit hin' hrel'
  have hopened : ∀ p < c.players_num, (openBits c p masks).size = cf.num_wire := by
    intro p hp
    rw [openBits, hmasks p hp, hsize p]
  have hgarble : ∀ p < c.players_num, ∃ s : Garbled,
      cf.gates.zipIdx.foldlM (garbleGate c hash d p 0 0 (openBits c p masks)) ⟨K0 p,[]⟩ = .ok s ∧
      s.Ks.size = cf.num_wire*2 ∧
      (∀ w < cf.num_wire, (pairs s.Ks w).2 = (pairs s.Ks w).1 ^^^ d.R p) ∧
      (∀ g ∈ cf.gates, LabelRel (d.R p) g (pairs s.Ks)) ∧
      s.tabs = (cf.gates.zipIdx.flatMap (entries c.players_num)).map
        (tableOf hash d p (openBits c p masks).val (pairs s.Ks)) :=
    fun p hp => garble_fold hcf (hopened p hp) (hK0 p hp) (hR p hp)
  choose! garbled hrun hsizeKs hoffset hlabels htabs using hgarble
  refine ⟨garbled,hrun,fun g' hg' => ⟨ob,hopened,hob,hobRel,?_,?_,?_,?_⟩⟩
  · intro p hp
    simp only [hg' p hp]
    exact hsizeKs p hp
  · intro p hp
    simp only [hg' p hp]
    exact hoffset p hp
  · intro p hp
    simp only [hg' p hp]
    exact hlabels p hp
  · intro p hp
    refine openTabs_map hp fun q hq => ?_
    rw [hg' q hq]
    exact htabs q hq

end garble

end OramPro.BMR
