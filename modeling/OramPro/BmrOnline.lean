import OramPro.BmrOffline

/-!
# The online phase

On every wire the parties hold the masked value, and for each of them the label that belongs to
it. The table row that the masked values select gives the next label.
-/
namespace OramPro.BMR

open Netlist

/-! ## Plain values -/

def PlainRel (x : ℕ → Bool) (g : Gate) : Prop := x g.out = g.value x

lemma foldlM_ok {σ G ε : Type} (f : σ → G → σ) (gs : List G) (s : σ) :
    gs.foldlM (fun s g => (.ok (f s g) : Except ε σ)) s = .ok (gs.foldl f s) := by
  induction gs generalizing s with
  | nil => rfl
  | cons g gs ih => exact ih (f s g)

lemma value_congr {g : Gate} {v v' : ℕ → Bool} (h : ∀ a ∈ g.ins, v a = v' a) :
    g.value v = g.value v' := by
  cases g with
  | AND a b w => simp_all [Gate.value, Gate.ins]
  | XOR a b w => simp_all [Gate.value, Gate.ins]
  | NOT a w => simp_all [Gate.value, Gate.ins]

lemma plain_spec {cf : Circuit} (hcf : cf.Topological) (x : ℕ → Bool) :
    (∀ w < cf.in_size, cf.plain x w = x w) ∧ ∀ g ∈ cf.gates, PlainRel (cf.plain x) g := by
  obtain ⟨hkeep, hrel⟩ := hcf.order.foldl_fix (f := fun g v => g.value v) (fun _ _ _ => value_congr) x
  exact ⟨fun w hw => hkeep w (Finset.mem_range.mpr hw),hrel⟩

/-! ## The selected row -/

section row
variable {c : Config} {cf : Circuit} {hash : Hash} {d : Draw} {ob : ℕ → Bool} {off : ℕ → Offline}

lemma getIdex_eq (h10 : c.players_num ≤ 10) {p : ℕ} (hp : p < c.players_num) : getIdex p = p :=
  Nat.mod_eq_of_lt (by omega)

lemma side_toNat {x : Block × Block} {R : Block} (h : x.2 = x.1 ^^^ R) (b : Bool) :
    side x b.toNat = if b then x.1 ^^^ R else x.1 := by
  cases b
  · rfl
  · exact h

/-- The row of the masked values: the hashes of all parties over the receiver's output label. -/
lemma joined_row (hs : Sound c cf hash d ob off) (h10 : c.players_num ≤ 10) {e : Entry}
    (ha : e.in0 < cf.num_wire) (hb : e.in1 < cf.num_wire) (hw : e.out < cf.num_wire)
    (hj : e.receiver < c.players_num) (la lb : Bool) :
    (xorAll c.players_num fun q => (tableOf hash d q (off q).opened_bits.val (pairs (off q).Ks) e).t
      (lb.toNat*2+la.toNat)) =
      (xorAll c.players_num fun q => hash (side (pairs (off q).Ks e.in0) la.toNat)
        (side (pairs (off q).Ks e.in1) lb.toNat) e.gate e.receiver) ^^^
      side (pairs (off e.receiver).Ks e.out)
        (((ob e.in0 ^^ la) && (ob e.in1 ^^ lb)) ^^ ob e.out).toNat := by
  have hmod : (lb.toNat*2+la.toNat)%2 = la.toNat := by cases la <;> cases lb <;> rfl
  have hdiv : (lb.toNat*2+la.toNat)/2 = lb.toNat := by cases la <;> cases lb <;> rfl
  rw [← xorAll_single hj (side (pairs (off e.receiver).Ks e.out) _), ← xorAll_xor]
  refine xorAll_congr fun q hq => ?_
  have hsbit : ((off q).opened_bits.val e.in0 ^^^ BitVec.ofNat 8 la.toNat) &&&
      ((off q).opened_bits.val e.in1 ^^^ BitVec.ofNat 8 lb.toNat) ^^^ (off q).opened_bits.val e.out =
      bit (((ob e.in0 ^^ la) && (ob e.in1 ^^ lb)) ^^ ob e.out) := by
    rw [hs.opened q hq _ ha, hs.opened q hq _ hb, hs.opened q hq _ hw, ofNat_toNat, ofNat_toNat,
      bit_xor, bit_xor, bit_and, bit_xor]
  simp only [tableOf, hmod, hdiv, hsbit, bit_ne_zero, getIdex_eq h10 hq]
  by_cases he : q = e.receiver
  · subst he
    rw [if_pos rfl, if_pos rfl, side_toNat (hs.offset _ hj _ hw)]
    split
    · rw [BitVec.xor_assoc]
    · rfl
  · rw [if_neg he, if_neg he, xor_zero]

end row

/-! ## Evaluation -/

section eval
variable {c : Config} {cf : Circuit} {hash : Hash} {d : Draw} {ob l : ℕ → Bool} {off : ℕ → Offline}
  {p : ℕ}

def joined (c : Config) (hash : Hash) (d : Draw) (off : ℕ → Offline) (e : Entry) : GcTable :=
  ⟨fun k => xorAll c.players_num fun q =>
    (tableOf hash d q (off q).opened_bits.val (pairs (off q).Ks) e).t k⟩

/-- Wire `w` carries the masked value `l w` and its labels. -/
structure Wire (c : Config) (off : ℕ → Offline) (l : ℕ → Bool) (s : Eval) (w : ℕ) : Prop where
  bit : s.Lambda_bits.val w = bit (l w)
  label : ∀ j < c.players_num, (s.Ks_pickeds j).val w = side (pairs (off j).Ks w) (l w).toNat

structure Sized (c : Config) (cf : Circuit) (s : Eval) : Prop where
  bits : s.Lambda_bits.size = cf.num_wire
  labels : ∀ j < c.players_num, (s.Ks_pickeds j).size = cf.num_wire

lemma hash_fold {s : Eval} (hs : Sized c cf s) {a b i j : ℕ} (ha : a < cf.num_wire)
    (hb : b < cf.num_wire) {n : ℕ} (hn : n ≤ c.players_num) :
    (List.range n).foldlM (fun temp k => do
      return temp ^^^ hash (← (s.Ks_pickeds k).get (0+a)) (← (s.Ks_pickeds k).get (0+b)) i j) 0 =
      .ok (xorAll n fun k => hash ((s.Ks_pickeds k).val a) ((s.Ks_pickeds k).val b) i j) := by
  induction n with
  | zero => rfl
  | succ n ih =>
    have hsize := hs.labels n (by omega)
    rw [List.range_succ, List.foldlM_append, ih (by omega), ok_bind, List.foldlM_cons]
    simp (disch := omega) only [zero_add, ok_bind, Buf.get_ok]
    rw [xorAll_succ, BitVec.xor_comm]
    rfl

/-- The state of `evalGate` for an `AND` gate before receiver `j`. -/
structure AndAt (c : Config) (cf : Circuit) (off : ℕ → Offline) (l : ℕ → Bool) (p w : ℕ) (s0 : Eval)
    (j : ℕ) (s : Eval) : Prop where
  itr : s.itr_tab = s0.itr_tab+j
  sized : Sized c cf s
  bitFrame : ∀ x ≠ w, s.Lambda_bits.val x = s0.Lambda_bits.val x
  labelFrame : ∀ k < c.players_num, ∀ x ≠ w, (s.Ks_pickeds k).val x = (s0.Ks_pickeds k).val x
  judged : p < j → s.Lambda_bits.val w = bit (l w)
  label : ∀ k < j, (s.Ks_pickeds k).val w = side (pairs (off k).Ks w) (l w).toNat

lemma Sized.set {s : Eval} (hs : Sized c cf s) {L : Buf Byte} (hL : L.size = cf.num_wire) {j w t : ℕ}
    (x : Block) :
    Sized c cf ⟨L,Function.update s.Ks_pickeds j ((s.Ks_pickeds j).put w x),t⟩ := by
  refine ⟨hL,fun k hk => ?_⟩
  by_cases hkj : k = j
  · subst hkj
    simp [hs.labels k hk]
  · simp [Function.update_of_ne hkj, hs.labels k hk]

lemma AndAt.next {s0 s : Eval} {w j : ℕ} (h : AndAt c cf off l p w s0 j s) {L : Buf Byte}
    (hL : L.size = cf.num_wire) (hframe : ∀ x ≠ w, L.val x = s.Lambda_bits.val x)
    (hbit : p < j+1 → L.val w = bit (l w)) :
    AndAt c cf off l p w s0 (j+1) ⟨L,Function.update s.Ks_pickeds j
      ((s.Ks_pickeds j).put w (side (pairs (off j).Ks w) (l w).toNat)),s.itr_tab+1⟩ where
  itr := by simp only [h.itr, Nat.add_assoc]
  sized := h.sized.set hL _
  bitFrame x hx := (hframe x hx).trans (h.bitFrame x hx)
  labelFrame k hk x hx := by
    by_cases hkj : k = j
    · subst hkj
      simp [Buf.put_of_ne hx, h.labelFrame k hk x hx]
    · simp [Function.update_of_ne hkj, h.labelFrame k hk x hx]
  judged := hbit
  label k hk := by
    by_cases hkj : k = j
    · subst hkj
      simp
    · simp [Function.update_of_ne hkj, h.label k (by omega)]

/-- The hashes under the held labels cancel those of the row. -/
lemma rowLabel_ok (hs : Sound c cf hash d ob off) (h10 : c.players_num ≤ 10) {s : Eval}
    (hsize : Sized c cf s) {a b w i j : ℕ} (ha : a < cf.num_wire) (hb : b < cf.num_wire)
    (hw : w < cf.num_wire) (hwa : Wire c off l s a) (hwb : Wire c off l s b)
    (hl : l w = (((ob a ^^ l a) && (ob b ^^ l b)) ^^ ob w)) (hj : j < c.players_num)
    {tabs : List GcTable} (htab : tabs[s.itr_tab]? = some (joined c hash d off ⟨a,b,w,i,j⟩)) :
    rowLabel c hash tabs 0 a b i s j = .ok (side (pairs (off j).Ks w) (l w).toNat) := by
  have hbits := hsize.bits
  have hitr : s.itr_tab < tabs.length := (List.getElem?_eq_some_iff.mp htab).1
  have htabD : (Buf.ofList tabs ⟨fun _ => 0⟩).val s.itr_tab = joined c hash d off ⟨a,b,w,i,j⟩ := by
    exact (List.getD_eq_getElem?_getD ..).trans (by rw [htab, Option.getD_some])
  have hrow : (l b).toNat*2+(l a).toNat < 4 := by
    cases l a <;> cases l b <;> decide
  have hheld : (xorAll c.players_num fun k =>
      hash ((s.Ks_pickeds k).val a) ((s.Ks_pickeds k).val b) i j) = xorAll c.players_num fun k =>
      hash (side (pairs (off k).Ks a) (l a).toNat) (side (pairs (off k).Ks b) (l b).toNat) i j :=
    xorAll_congr fun k hk => by rw [hwa.label k hk, hwb.label k hk]
  have hjoined : (joined c hash d off ⟨a,b,w,i,j⟩).t ((l b).toNat*2+(l a).toNat) = _ :=
    joined_row (e := ⟨a,b,w,i,j⟩) hs h10 ha hb hw hj (l a) (l b)
  rw [rowLabel, hash_fold hsize ha hb le_rfl, ok_bind, Buf.get_ok hitr]
  simp (disch := omega) only [zero_add, ok_bind, Buf.get_ok, hwa.bit, hwb.bit, bit_toNat, htabD]
  rw [hheld, hjoined, ← hl, BitVec.xor_comm, ← BitVec.xor_assoc, BitVec.xor_self]
  exact congrArg Except.ok (zero_xor _)

/-- The own label is one of the two labels of the wire, and they differ. -/
lemma judge_ok (hs : Sound c cf hash d ob off) (hp : p < c.players_num) (hR : d.R p ≠ 0) {w : ℕ}
    (hw : w < cf.num_wire) {L : Buf Byte} (hL : L.size = cf.num_wire) (b : Bool) :
    judge (d.R p) (off p).Ks 0 w (side (pairs (off p).Ks w) b.toNat) L = .ok (L.put w (bit b)) := by
  have hKs := hs.sizeKs p hp
  have hne : (pairs (off p).Ks w).1 ^^^ d.R p ≠ (pairs (off p).Ks w).1 := by
    intro h
    apply hR
    have h2 := congrArg (fun x => (pairs (off p).Ks w).1 ^^^ x) h
    simp only [← BitVec.xor_assoc, BitVec.xor_self] at h2
    exact (zero_xor _).symm.trans h2
  rw [judge, zero_add, Buf.get_ok (by omega), ok_bind, Buf.set_ok (by omega), Buf.set_ok (by omega),
    side_toNat (hs.offset p hp w hw)]
  cases b
  · exact if_pos rfl
  · exact (if_neg hne).trans (if_pos rfl)

lemma andStep_ok (hs : Sound c cf hash d ob off) (h10 : c.players_num ≤ 10)
    (hp : p < c.players_num) (hR : d.R p ≠ 0) {s0 s : Eval} {a b w i j : ℕ} (ha : a < cf.num_wire)
    (hb : b < cf.num_wire) (hw : w < cf.num_wire) (hane : a ≠ w) (hbne : b ≠ w)
    (hwa : Wire c off l s0 a) (hwb : Wire c off l s0 b)
    (hl : l w = (((ob a ^^ l a) && (ob b ^^ l b)) ^^ ob w)) (hj : j < c.players_num)
    (h : AndAt c cf off l p w s0 j s)
    (htab : (off p).tabs[s.itr_tab]? = some (joined c hash d off ⟨a,b,w,i,j⟩)) :
    ∃ s', andStep c hash (d.R p) p (off p).Ks (off p).tabs 0 a b w i s j = .ok s' ∧
      AndAt c cf off l p w s0 (j+1) s' := by
  have hkeep : ∀ x ≠ w, Wire c off l s0 x → Wire c off l s x := fun x hx hwx =>
    ⟨(h.bitFrame x hx).trans hwx.bit,fun k hk => (h.labelFrame k hk x hx).trans (hwx.label k hk)⟩
  have hlab := h.sized.labels j hj
  rw [andStep, rowLabel_ok hs h10 h.sized ha hb hw (hkeep a hane hwa) (hkeep b hbne hwb) hl hj htab,
    ok_bind, zero_add, Buf.set_ok (by omega), ok_bind, getIdex_eq h10 hp]
  by_cases hpj : p = j
  · subst hpj
    rw [if_pos rfl, judge_ok hs hp hR hw h.sized.bits]
    exact ⟨_,rfl,h.next h.sized.bits (fun x hx => Buf.put_of_ne hx _) fun _ => Buf.put_self _⟩
  · rw [if_neg hpj]
    exact ⟨_,rfl,h.next h.sized.bits (fun _ _ => rfl) fun hlt => h.judged (by omega)⟩

lemma andGate_ok (hs : Sound c cf hash d ob off) (h10 : c.players_num ≤ 10)
    (hp : p < c.players_num) (hR : d.R p ≠ 0) {s0 : Eval} (hsize : Sized c cf s0) {a b w i : ℕ}
    (ha : a < cf.num_wire) (hb : b < cf.num_wire) (hw : w < cf.num_wire) (hane : a ≠ w)
    (hbne : b ≠ w) (hwa : Wire c off l s0 a) (hwb : Wire c off l s0 b)
    (hl : l w = (((ob a ^^ l a) && (ob b ^^ l b)) ^^ ob w))
    (htab : ∀ j < c.players_num,
      (off p).tabs[s0.itr_tab+j]? = some (joined c hash d off ⟨a,b,w,i,j⟩)) {n : ℕ}
    (hn : n ≤ c.players_num) :
    ∃ s', (List.range n).foldlM (andStep c hash (d.R p) p (off p).Ks (off p).tabs 0 a b w i) s0 =
      .ok s' ∧ AndAt c cf off l p w s0 n s' := by
  have hstart : AndAt c cf off l p w s0 0 s0 := ⟨rfl,hsize,fun _ _ => rfl,fun _ _ _ _ => rfl,
    fun h => absurd h (by omega),fun k hk => absurd hk (by omega)⟩
  exact CountLoop.foldlM_range hstart fun j hj s hat => andStep_ok hs h10 hp hR ha hb hw hane hbne hwa hwb hl
    (by omega) hat (hat.itr ▸ htab j (by omega))

lemma freeLabels_ok {w : ℕ} (label : Buf Block → Except Fault Block) (v : ℕ → Block)
    {K : ℕ → Buf Block} (hw : ∀ j < c.players_num, w < (K j).size)
    (hlabel : ∀ j < c.players_num, label (K j) = .ok (v j)) :
    ∃ K', freeLabels c 0 w label K = .ok K' ∧
      ∀ j < c.players_num, K' j = (K j).put w (v j) := by
  have hfold : ∃ K', freeLabels c 0 w label K = .ok K' ∧
      ∀ j, K' j = if j < c.players_num then (K j).put w (v j) else K j := by
    refine CountLoop.foldlM_range
      (P := fun n (K' : ℕ → Buf Block) => ∀ j, K' j = if j < n then (K j).put w (v j) else K j)
      (fun j => (if_neg (by omega)).symm) fun n hn K' hK' => ?_
    have hsame : K' n = K n := (hK' n).trans (if_neg (by omega))
    refine ⟨Function.update K' n ((K n).put w (v n)),?_,fun j => ?_⟩
    · rw [hsame, hlabel n hn, ok_bind, zero_add, Buf.set_ok (hw n hn)]
      rfl
    · by_cases hj : j = n
      · subst hj
        rw [Function.update_self, if_pos (by omega)]
      · rw [Function.update_of_ne hj, hK' j]
        exact if_congr (by omega) rfl rfl
  obtain ⟨K', hrun, hK'⟩ := hfold
  exact ⟨K',hrun,fun j hj => (hK' j).trans (if_pos hj)⟩

def MaskedRel (ob l : ℕ → Bool) : Gate → Prop
  | .AND a b w => l w = (((ob a ^^ l a) && (ob b ^^ l b)) ^^ ob w)
  | .XOR a b w => l w = (l a ^^ l b)
  | .NOT a w => l w = l a

def masked (x ob : ℕ → Bool) (w : ℕ) : Bool := x w ^^ ob w

lemma masked_rel {x : ℕ → Bool} {g : Gate} (hx : PlainRel x g) (hob : OpenRel ob g) :
    MaskedRel ob (masked x ob) g := by
  cases g with
  | AND a b w =>
    simp only [PlainRel, Gate.out, Gate.value] at hx
    simp only [MaskedRel, masked, hx]
    cases x a <;> cases x b <;> cases ob a <;> cases ob b <;> rfl
  | XOR a b w =>
    simp only [PlainRel, OpenRel, Gate.out, Gate.value] at hx hob
    simp only [MaskedRel, masked, hx, hob]
    cases x a <;> cases x b <;> cases ob a <;> cases ob b <;> rfl
  | NOT a w =>
    simp only [PlainRel, OpenRel, Gate.out, Gate.value] at hx hob
    simp only [MaskedRel, masked, hx, hob]
    cases x a <;> cases ob a <;> rfl

/-- The state of the evaluation when the wires in `D` are done and the gates `gs` are left. -/
structure At (c : Config) (cf : Circuit) (hash : Hash) (d : Draw) (off : ℕ → Offline)
    (l : ℕ → Bool) (p : ℕ) (s : Eval) (D : Finset ℕ) (gs : List (Gate × ℕ)) : Prop where
  sized : Sized c cf s
  below : ∀ w ∈ D, w < cf.num_wire
  wires : ∀ w ∈ D, Wire c off l s w
  gates : ∀ g ∈ gs, g.1 ∈ cf.gates
  tabs : (off p).tabs.drop s.itr_tab = (gs.flatMap (entries c.players_num)).map (joined c hash d off)

/-- A gate that takes no table keeps what is done and adds its own wire. -/
lemma At.free {s : Eval} {D : Finset ℕ} {g : Gate × ℕ} {gs : List (Gate × ℕ)}
    (h : At c cf hash d off l p s D (g :: gs)) (hnew : g.1.out ∉ D) (hlt : g.1.out < cf.num_wire)
    (hnone : entries c.players_num g = []) {v : ℕ → Block}
    (hv : ∀ j < c.players_num, v j = side (pairs (off j).Ks g.1.out) (l g.1.out).toNat)
    {K : ℕ → Buf Block} (hK : ∀ j < c.players_num, K j = (s.Ks_pickeds j).put g.1.out (v j)) :
    At c cf hash d off l p ⟨s.Lambda_bits.put g.1.out (bit (l g.1.out)),K,s.itr_tab⟩
      (insert g.1.out D) gs where
  sized := ⟨h.sized.bits,fun j hj => by simp only [hK j hj]; exact h.sized.labels j hj⟩
  below := Finset.forall_mem_insert _ _ _ |>.mpr ⟨hlt,h.below⟩
  wires := by
    refine Finset.forall_mem_insert _ _ _ |>.mpr ⟨⟨Buf.put_self _,fun j hj => ?_⟩,fun x hx => ?_⟩
    · simp only [hK j hj, Buf.put_self, hv j hj]
    · have hne : x ≠ g.1.out := fun he => hnew (he ▸ hx)
      refine ⟨(Buf.put_of_ne hne _).trans (h.wires x hx).bit,fun j hj => ?_⟩
      simp only [hK j hj, Buf.put_of_ne hne, (h.wires x hx).label j hj]
  gates g' hg' := h.gates g' (List.mem_cons_of_mem g hg')
  tabs := by
    have ht := h.tabs
    rwa [List.flatMap_cons, hnone] at ht

lemma side_xor {R : Block} {x y z : Block × Block} (hx : x.2 = x.1 ^^^ R) (hy : y.2 = y.1 ^^^ R)
    (hz : z.2 = z.1 ^^^ R) (h : z.1 = x.1 ^^^ y.1) (a b : Bool) :
    side x a.toNat ^^^ side y b.toNat = side z (a ^^ b).toNat := by
  rw [side_toNat hx, side_toNat hy, side_toNat hz, h]
  cases a
  · cases b
    · rfl
    · exact (BitVec.xor_assoc _ _ _).symm
  · cases b
    · change x.1 ^^^ R ^^^ y.1 = x.1 ^^^ y.1 ^^^ R
      rw [BitVec.xor_assoc, BitVec.xor_comm R, BitVec.xor_assoc]
    · change x.1 ^^^ R ^^^ (y.1 ^^^ R) = x.1 ^^^ y.1
      rw [BitVec.xor_comm y.1, BitVec.xor_assoc, ← BitVec.xor_assoc R, BitVec.xor_self,
        BitVec.zero_xor]

lemma At.and {s0 s : Eval} {D : Finset ℕ} {a b w i : ℕ} {gs : List (Gate × ℕ)}
    (h : At c cf hash d off l p s0 D ((.AND a b w,i) :: gs)) (hp : p < c.players_num)
    (hnew : w ∉ D) (hlt : w < cf.num_wire) (hs : AndAt c cf off l p w s0 c.players_num s) :
    At c cf hash d off l p s (insert w D) gs where
  sized := hs.sized
  below := Finset.forall_mem_insert _ _ _ |>.mpr ⟨hlt,h.below⟩
  wires := by
    refine Finset.forall_mem_insert _ _ _ |>.mpr ⟨⟨hs.judged hp,hs.label⟩,fun x hx => ?_⟩
    have hne : x ≠ w := fun he => hnew (he ▸ hx)
    exact ⟨(hs.bitFrame x hne).trans (h.wires x hx).bit,
      fun j hj => (hs.labelFrame j hj x hne).trans ((h.wires x hx).label j hj)⟩
  gates g hg := h.gates g (List.mem_cons_of_mem _ hg)
  tabs := by
    have ht := congrArg (List.drop c.players_num) h.tabs
    rw [List.drop_drop, ← hs.itr, List.flatMap_cons, List.map_append] at ht
    rw [ht]
    exact List.drop_left' (by simp [entries])

lemma evalAnd_ok (hs : Sound c cf hash d ob off) (h10 : c.players_num ≤ 10)
    (hp : p < c.players_num) (hR : d.R p ≠ 0) {s : Eval} {D : Finset ℕ} {a b w i : ℕ}
    (hl : MaskedRel ob l (.AND a b w)) {gs : List (Gate × ℕ)}
    (h : At c cf hash d off l p s D ((.AND a b w,i) :: gs)) (ha : a ∈ D) (hb : b ∈ D) (hnew : w ∉ D)
    (hlt : w < cf.num_wire) :
    ∃ s', evalGate c hash (d.R p) p (off p).Ks (off p).tabs 0 s (.AND a b w,i) = .ok s' ∧
      At c cf hash d off l p s' (insert w D) gs := by
  have htab : ∀ j < c.players_num,
      (off p).tabs[s.itr_tab+j]? = some (joined c hash d off ⟨a,b,w,i,j⟩) := by
    intro j hj
    have hlen : j < (entries c.players_num (.AND a b w,i)).length := by simpa [entries] using hj
    rw [← List.getElem?_drop, h.tabs, List.flatMap_cons, List.map_append,
      List.getElem?_append_left (by simpa using hlen)]
    simp [entries, hj]
  obtain ⟨s', hrun, hat⟩ := andGate_ok hs h10 hp hR h.sized (h.below a ha) (h.below b hb) hlt
    (fun he => hnew (he ▸ ha)) (fun he => hnew (he ▸ hb)) (h.wires a ha) (h.wires b hb) hl htab
    le_rfl
  exact ⟨s',hrun,h.and hp hnew hlt hat⟩

lemma evalXor_ok (hs : Sound c cf hash d ob off) {s : Eval} {D : Finset ℕ} {a b w i : ℕ}
    (hl : MaskedRel ob l (.XOR a b w)) {gs : List (Gate × ℕ)}
    (h : At c cf hash d off l p s D ((.XOR a b w,i) :: gs)) (ha : a ∈ D) (hb : b ∈ D) (hnew : w ∉ D)
    (hlt : w < cf.num_wire) :
    ∃ s', evalGate c hash (d.R p) p (off p).Ks (off p).tabs 0 s (.XOR a b w,i) = .ok s' ∧
      At c cf hash d off l p s' (insert w D) gs := by
  have hg := h.gates _ List.mem_cons_self
  have hbits := h.sized.bits
  have hlab := h.sized.labels
  have hla := h.below a ha
  have hlb := h.below b hb
  obtain ⟨K, hrun, hK⟩ := freeLabels_ok (fun k => return (← k.get (0+a)) ^^^ (← k.get (0+b)))
    (fun j => (s.Ks_pickeds j).val a ^^^ (s.Ks_pickeds j).val b)
    (fun j hj => (hlab j hj).symm ▸ hlt) fun j hj => by
      rw [zero_add, zero_add, Buf.get_ok (hlab j hj ▸ hla), Buf.get_ok (hlab j hj ▸ hlb)]
      rfl
  refine ⟨_,?_,h.free hnew hlt rfl (fun j hj => ?_) hK⟩
  · simp (disch := omega) only [evalGate, zero_add, Buf.get_ok, Buf.set_ok, ok_bind]
    simp only [zero_add] at hrun
    rw [hrun, (h.wires a ha).bit, (h.wires b hb).bit, bit_xor, ← hl]
    rfl
  · have hoff := hs.offset j hj
    rw [(h.wires a ha).label j hj, (h.wires b hb).label j hj,
      side_xor (hoff a hla) (hoff b hlb) (hoff w hlt) (hs.labelRel j hj _ hg).1, ← hl]
    rfl

lemma evalNot_ok (hs : Sound c cf hash d ob off) {s : Eval} {D : Finset ℕ} {a w i : ℕ}
    (hl : MaskedRel ob l (.NOT a w)) {gs : List (Gate × ℕ)}
    (h : At c cf hash d off l p s D ((.NOT a w,i) :: gs)) (ha : a ∈ D) (hnew : w ∉ D)
    (hlt : w < cf.num_wire) :
    ∃ s', evalGate c hash (d.R p) p (off p).Ks (off p).tabs 0 s (.NOT a w,i) = .ok s' ∧
      At c cf hash d off l p s' (insert w D) gs := by
  have hg := h.gates _ List.mem_cons_self
  have hbits := h.sized.bits
  have hlab := h.sized.labels
  have hla := h.below a ha
  obtain ⟨K, hrun, hK⟩ := freeLabels_ok (fun k => k.get (0+a)) (fun j => (s.Ks_pickeds j).val a)
    (fun j hj => (hlab j hj).symm ▸ hlt) fun j hj => by
      rw [zero_add, Buf.get_ok (hlab j hj ▸ hla)]
  refine ⟨_,?_,h.free hnew hlt rfl (fun j hj => ?_) hK⟩
  · simp (disch := omega) only [evalGate, zero_add, Buf.get_ok, Buf.set_ok, ok_bind]
    simp only [zero_add] at hrun
    rw [hrun, (h.wires a ha).bit, ← hl]
    rfl
  · have hpair : pairs (off j).Ks w = pairs (off j).Ks a := hs.labelRel j hj _ hg
    rw [(h.wires a ha).label j hj, ← hl]
    simp only [Gate.out, hpair]

lemma evalGate_ok (hs : Sound c cf hash d ob off) (h10 : c.players_num ≤ 10)
    (hp : p < c.players_num) (hR : d.R p ≠ 0) (hl : ∀ g ∈ cf.gates, MaskedRel ob l g) {s : Eval}
    {D : Finset ℕ} {g : Gate × ℕ} {gs : List (Gate × ℕ)} (h : At c cf hash d off l p s D (g :: gs))
    (hin : ∀ a ∈ g.1.ins, a ∈ D) (hnew : g.1.out ∉ D) (hlt : g.1.out < cf.num_wire) :
    ∃ s', evalGate c hash (d.R p) p (off p).Ks (off p).tabs 0 s g = .ok s' ∧
      At c cf hash d off l p s' (insert g.1.out D) gs := by
  have hlg := hl g.1 (h.gates g List.mem_cons_self)
  obtain ⟨g, i⟩ := g
  cases g with
  | AND a b w =>
    obtain ⟨ha, hb⟩ : a ∈ D ∧ b ∈ D := by simpa [Gate.ins] using hin
    exact evalAnd_ok hs h10 hp hR hlg h ha hb hnew hlt
  | XOR a b w =>
    obtain ⟨ha, hb⟩ : a ∈ D ∧ b ∈ D := by simpa [Gate.ins] using hin
    exact evalXor_ok hs hlg h ha hb hnew hlt
  | NOT a w =>
    have ha : a ∈ D := by simpa [Gate.ins] using hin
    exact evalNot_ok hs hlg h ha hnew hlt

lemma eval_ok (hcf : cf.Topological) (hs : Sound c cf hash d ob off) (h10 : c.players_num ≤ 10)
    (hp : p < c.players_num) (hR : d.R p ≠ 0) (hl : ∀ g ∈ cf.gates, MaskedRel ob l g) {s : Eval}
    (hsize : Sized c cf s) (hitr : s.itr_tab = 0) (hin : ∀ w < cf.in_size, Wire c off l s w) :
    ∃ s', cf.gates.zipIdx.foldlM (evalGate c hash (d.R p) p (off p).Ks (off p).tabs 0) s = .ok s' ∧
      Sized c cf s' ∧ ∀ w < cf.num_wire, Wire c off l s' w := by
  have hstart : At c cf hash d off l p s (Finset.range cf.in_size) cf.gates.zipIdx := by
    refine ⟨hsize,range_lt hcf,fun w hw => hin w (Finset.mem_range.mp hw),fun g hg => ?_,?_⟩
    · exact List.fst_mem_of_mem_zipIdx hg
    · rw [hitr, List.drop_zero, hs.tabs p hp]
      rfl
  have hstep : ∀ s D (g : Gate × ℕ) gs, At c cf hash d off l p s D (g :: gs) →
      (∀ a ∈ g.1.ins, a ∈ D) → g.1.out ∉ D → g.1.out < cf.num_wire →
      ∃ s', evalGate c hash (d.R p) p (off p).Ks (off p).tabs 0 s g = .ok s' ∧
        At c cf hash d off l p s' (insert g.1.out D) gs :=
    fun s D g gs h hin hnew hlt => evalGate_ok hs h10 hp hR hl h hin hnew hlt
  obtain ⟨s', D', hrun, hat, hall⟩ := (hcf.order.zipIdx 0).foldlM_track hstep hstart
  exact ⟨s',hrun,hat.sized,fun w hw => hat.wires w (hall w hw)⟩

end eval

end OramPro.BMR
