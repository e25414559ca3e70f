import OramPro.BmrOnline

/-!
# Runs of `BMR`

The inputs reach every party masked, every party sends the labels that belong to them, and from
there the evaluation is right on every wire. The player's number is read off one digit of its
name, so an eleventh player has no place among the labels.
-/
namespace OramPro.BMR

open Netlist

section offline
variable {c : Config} {cf : Circuit} {hash : Hash} {d : Draw} {n : ℕ}

lemma mod_two (x : Byte) : x%2 = bit (x%2 ≠ 0) := by
  have h : (x%2).toNat = x.toNat%2 := by simp [BitVec.toNat_umod]
  rcases Nat.mod_two_eq_zero_or_one x.toNat with h0 | h1
  · have hz : x%2 = 0 := BitVec.eq_of_toNat_eq (h.trans h0)
    rw [hz]
    rfl
  · have ho : x%2 = 1 := BitVec.eq_of_toNat_eq (h.trans h1)
    rw [ho]
    rfl

lemma xorAll_bits (f : ℕ → Bool) : ∃ b, xorAll n (fun p => bit (f p)) = bit b := by
  induction n with
  | zero => exact ⟨false,rfl⟩
  | succ n ih =>
    obtain ⟨b, hb⟩ := ih
    exact ⟨f n ^^ b,by rw [xorAll_succ, hb, bit_xor]⟩

lemma offline_ok (c hash d) (hcf : cf.Topological) :
    ∃ off ob, offline c hash d cf = .ok off ∧ Sound c cf hash d ob off := by
  have hlab : ∀ p, ∃ Ks, (List.range cf.in_size).foldlM (inputLabel d p 0 0 0)
      ⟨cf.num_wire*2,fun _ => 0⟩ = .ok Ks ∧ Ks.size = cf.num_wire*2 ∧
      ∀ w < cf.in_size, (pairs Ks w).2 = (pairs Ks w).1 ^^^ d.R p :=
    fun p => inputLabel_fold hcf.inputs rfl
  choose K0 hK0 hsize hR using hlab
  have hbit : ∀ w < cf.num_wire, ∃ b,
      xorAll c.players_num (fun p => d.maskbits p w%2) = bit b := by
    intro w _
    obtain ⟨b, hb⟩ := xorAll_bits (n := c.players_num) fun p => d.maskbits p w%2 ≠ 0
    exact ⟨b,(xorAll_congr fun p _ => mod_two _).trans hb⟩
  obtain ⟨m, hm, hsound⟩ := offline_sound hash hcf
    (fun p => ⟨cf.num_wire,fun w => d.maskbits p w%2⟩) (fun _ => rfl) hbit (fun p _ => hsize p)
    fun p _ => hR p
  obtain ⟨masks, hmasks, hmEq⟩ := collect_ok fun p (_ : p < c.players_num) => hm p
  obtain ⟨garbled, hgarbled, hsound⟩ := hsound masks hmEq
  have hrun : ∀ p < c.players_num, (do
      let Ks ← (List.range cf.in_size).foldlM (inputLabel d p 0 0 0) ⟨cf.num_wire*2,fun _ => 0⟩
      cf.gates.zipIdx.foldlM (garbleGate c hash d p 0 0 (openBits c p masks)) ⟨Ks,[]⟩) =
        .ok (garbled p) := by
    intro p hp
    rw [hK0 p, ok_bind, hgarbled p hp]
  obtain ⟨g', hcol, hg'⟩ := collect_ok hrun
  obtain ⟨ob, hob⟩ := hsound g' hg'
  refine ⟨_,ob,?_,hob⟩
  rw [offline, hmasks, ok_bind, hcol]
  rfl

end offline

/-! ## Inputs -/

/-- The holders cover the inputs, and hold the bits of `x` for their ranges. -/
structure Assigns (c : Config) (cf : Circuit) (holder : List Holder) (data : ℕ → List Byte)
    (x : ℕ → Bool) : Prop where
  player : ∀ h ∈ holder, h.player < c.players_num
  range : ∀ h ∈ holder, h.first ≤ h.last ∧ h.last ≤ cf.in_size
  data : ∀ h ∈ holder, data h.player =
    (List.range (h.last-h.first)).map fun i => bit (x (h.first+i))
  cover : ∀ w < cf.in_size, ∃ h ∈ holder, h.first ≤ w ∧ w < h.last

section inputs
variable {c : Config} {cf : Circuit} {hash : Hash} {d : Draw} {x ob : ℕ → Bool} {off : ℕ → Offline}
  {holder : List Holder} {data : ℕ → List Byte} {l : ℕ → Bool}

lemma setBits_ok {bits : List (Byte × ℕ)} {L : Buf Byte}
    (hbits : ∀ e ∈ bits, e.2 < L.size ∧ e.1 = bit (l e.2)) :
    ∃ L', setBits L bits = .ok L' ∧ L'.size = L.size ∧
      ∀ w, (L.val w = bit (l w) ∨ ∃ e ∈ bits, e.2 = w) → L'.val w = bit (l w) := by
  induction bits generalizing L with
  | nil => exact ⟨L,rfl,rfl,fun w hw => hw.resolve_right fun ⟨_, he, _⟩ => nomatch he⟩
  | cons e bits ih =>
    obtain ⟨hlt, he⟩ := hbits e List.mem_cons_self
    obtain ⟨L', hrun, hsize, hval⟩ := ih (L := L.put e.2 e.1) fun e' he' =>
      hbits e' (List.mem_cons_of_mem e he')
    refine ⟨L',?_,hsize,fun w hw => hval w ?_⟩
    · rw [setBits, List.foldlM_cons, Buf.set_ok hlt]
      exact hrun
    · by_cases hwe : w = e.2
      · subst hwe
        exact .inl ((Buf.put_self _).trans he)
      · rcases hw with hw | ⟨e', he', rfl⟩
        · exact .inl ((Buf.put_of_ne hwe _).trans hw)
        · rcases List.mem_cons.mp he' with rfl | he'
          · exact absurd rfl hwe
          · exact .inr ⟨e',he',rfl⟩

lemma holderBits_ok {opened : Buf Byte} {h : Holder} (hsize : h.last ≤ opened.size)
    (hob : ∀ w < opened.size, opened.val w = bit (ob w)) {bytes : List Byte}
    (hbytes : bytes = (List.range (h.last-h.first)).map fun i => bit (x (h.first+i))) :
    ∃ bits, holderBits opened bytes h = .ok bits ∧
      (∀ e ∈ bits, e.2 < h.last ∧ e.1 = bit (x e.2 ^^ ob e.2)) ∧
      ∀ w, h.first ≤ w → w < h.last → ∃ e ∈ bits, e.2 = w := by
  have hmem : ∀ e ∈ bytes.zipIdx h.first, h.first ≤ e.2 ∧ e.2 < h.last ∧ e.1 = bit (x e.2) := by
    intro e he
    rw [List.mem_zipIdx_iff_le_and_getElem?_sub] at he
    obtain ⟨hle, hget⟩ := he
    rw [hbytes, List.getElem?_map, Option.map_eq_some_iff] at hget
    obtain ⟨i, hi, hx⟩ := hget
    obtain ⟨hlt, hi⟩ := List.getElem?_eq_some_iff.mp hi
    rw [List.getElem_range] at hi
    rw [List.length_range] at hlt
    refine ⟨hle,by omega,?_⟩
    rw [← hx, ← hi, Nat.add_sub_cancel' hle]
  have hlen : bytes.length = h.last-h.first := by simp [hbytes]
  refine ⟨(bytes.zipIdx h.first).map fun e => (e.1 ^^^ opened.val e.2,e.2),?_,?_,?_⟩
  · rw [holderBits, if_pos hlen]
    refine mapM_ok fun e he => ?_
    rw [Buf.get_ok ((hmem e he).2.1.trans_le hsize)]
    rfl
  · intro e he
    obtain ⟨e', he', rfl⟩ := List.mem_map.mp he
    obtain ⟨-, hlt, hval⟩ := hmem e' he'
    exact ⟨hlt,by rw [hval, hob _ (hlt.trans_le hsize), bit_xor]⟩
  · intro w hfirst hlast
    refine ⟨(bit (x w) ^^^ opened.val w,w),List.mem_map.mpr ⟨(bit (x w),w),?_,rfl⟩,rfl⟩
    rw [List.mem_zipIdx_iff_le_and_getElem?_sub, hbytes, List.getElem?_map]
    refine ⟨hfirst,?_⟩
    rw [List.getElem?_range (by omega), Option.map_some, Nat.add_sub_cancel' hfirst]

lemma setInputs_ok {bitsOf : Holder → Except Fault (List (Byte × ℕ))} {W : ℕ}
    (hbits : ∀ h ∈ holder, ∃ bits, bitsOf h = .ok bits ∧ (∀ e ∈ bits, e.2 < W ∧ e.1 = bit (l e.2)) ∧
      ∀ w, h.first ≤ w → w < h.last → ∃ e ∈ bits, e.2 = w) {L : Buf Byte} (hL : L.size = W) :
    ∃ L', holder.foldlM (fun L h => do setBits L (← bitsOf h)) L = .ok L' ∧ L'.size = W ∧
      ∀ w, (L.val w = bit (l w) ∨ ∃ h ∈ holder, h.first ≤ w ∧ w < h.last) →
        L'.val w = bit (l w) := by
  induction holder generalizing L with
  | nil => exact ⟨L,rfl,hL,fun w hw => hw.resolve_right fun ⟨_, hh, _⟩ => nomatch hh⟩
  | cons h hold ih =>
    obtain ⟨bits, hrun, hval, hcover⟩ := hbits h List.mem_cons_self
    obtain ⟨L1, hset, hL1, hkeep⟩ := setBits_ok (L := L) fun e he =>
      ⟨(hval e he).1.trans_le hL.ge,(hval e he).2⟩
    obtain ⟨L', hrest, hL', hdone⟩ := ih (fun h' hh' => hbits h' (List.mem_cons_of_mem h hh'))
      (hL1.trans hL)
    refine ⟨L',?_,hL',fun w hw => hdone w ?_⟩
    · rw [List.foldlM_cons, hrun, ok_bind, hset]
      exact hrest
    · rcases hw with hw | ⟨h', hh', hrange⟩
      · exact .inl (hkeep w (.inl hw))
      · rcases List.mem_cons.mp hh' with rfl | hh'
        · exact .inl (hkeep w (.inr (hcover w hrange.1 hrange.2)))
        · exact .inr ⟨h',hh',hrange⟩

lemma inputs_ok (hcf : cf.Topological) (hs : Sound c cf hash d ob off)
    (hx : Assigns c cf holder data x) :
    ∃ L, holder.foldlM (fun L h => do
        setBits L (← holderBits (off h.player).opened_bits (data h.player) h))
        ⟨cf.num_wire,fun _ => 0⟩ = .ok L ∧
      L.size = cf.num_wire ∧ ∀ w < cf.in_size, L.val w = bit (x w ^^ ob w) := by
  have hbits : ∀ h ∈ holder, ∃ bits,
      holderBits (off h.player).opened_bits (data h.player) h = .ok bits ∧
      (∀ e ∈ bits, e.2 < cf.num_wire ∧ e.1 = bit (x e.2 ^^ ob e.2)) ∧
      ∀ w, h.first ≤ w → w < h.last → ∃ e ∈ bits, e.2 = w := by
    intro h hh
    have hp := hx.player h hh
    have hlast := (hx.range h hh).2.trans hcf.inputs
    obtain ⟨bits, hrun, hval, hcover⟩ := holderBits_ok (h := h) ((hs.size _ hp).symm ▸ hlast)
      (fun w hw => hs.opened _ hp w (hs.size _ hp ▸ hw)) (hx.data h hh)
    exact ⟨bits,hrun,fun e he => ⟨(hval e he).1.trans_le hlast,(hval e he).2⟩,hcover⟩
  obtain ⟨L, hrun, hL, hval⟩ := setInputs_ok (l := fun w => x w ^^ ob w) hbits
    (L := ⟨cf.num_wire,fun _ => 0⟩) rfl
  exact ⟨L,hrun,hL,fun w hw => hval w (.inr (hx.cover w hw))⟩

lemma pickLabels_ok {Ks : Buf Block} {L : Buf Byte} {n W : ℕ} (hn : n ≤ W) (hKs : Ks.size = W*2)
    (hL : L.size = W) (hl : ∀ w < n, L.val w = bit (l w)) :
    pickLabels n Ks L = .ok ((List.range n).map fun i => side (pairs Ks i) (l i).toNat) := by
  refine mapM_ok fun i hi => ?_
  have hi := List.mem_range.mp hi
  have hlt : (l i).toNat < 2 := Bool.toNat_lt _
  rw [Buf.get_ok (by omega), ok_bind, hl i hi, bit_toNat, Buf.get_ok (by omega)]
  cases l i <;> rfl

lemma gather_foldl (f : ℕ → Buf Block) {ps : List ℕ} (hps : ∀ q ∈ ps, getIdex q = q)
    (K : ℕ → Buf Block) (j : ℕ) :
    ps.foldl (fun K q => Function.update K (getIdex q) (f q)) K j = if j ∈ ps then f j else K j := by
  induction ps generalizing K with
  | nil => rfl
  | cons q ps ih =>
    rw [List.foldl_cons, ih fun q' hq' => hps q' (List.mem_cons_of_mem q hq'),
      hps q List.mem_cons_self]
    by_cases hj : j ∈ ps
    · rw [if_pos hj, if_pos (List.mem_cons_of_mem q hj)]
    · rw [if_neg hj]
      by_cases hjq : j = q
      · subst hjq
        rw [Function.update_self, if_pos List.mem_cons_self]
      · rw [Function.update_of_ne hjq, if_neg fun h => (List.mem_cons.mp h).elim hjq hj]

/-- With at most ten players the labels of every party find their place. -/
lemma gather_ok (h10 : c.players_num ≤ 10) {p : ℕ} (hp : p < c.players_num) (size : ℕ)
    (sent : ℕ → List Block) {j : ℕ} (hj : j < c.players_num) :
    gather c p size sent j = ⟨size,fun i => (sent j).getD i 0⟩ := by
  have hmem : ∀ q, q ∈ p :: c.others p ↔ q < c.players_num := by
    intro q
    rw [List.mem_cons, Config.others, List.mem_filter, c.perm.mem_iff, List.mem_range]
    by_cases hq : q = p <;> simp [hq, hp]
  rw [gather, gather_foldl (fun q => ⟨size,fun i => (sent q).getD i 0⟩)
    fun q hq => getIdex_eq h10 ((hmem q).mp hq), if_pos ((hmem j).mpr hj)]

lemma gather_none (p size : ℕ) (sent : ℕ → List Block) {j : ℕ} (hj : 10 ≤ j) :
    (gather c p size sent j).size = 0 := by
  have hfold : ∀ (ps : List ℕ) (K : ℕ → Buf Block), (K j).size = 0 →
      (ps.foldl (fun K q => Function.update K (getIdex q) ⟨size,fun i => (sent q).getD i 0⟩) K
        j).size = 0 := by
    intro ps
    induction ps with
    | nil => exact fun K h => h
    | cons q ps ih =>
      intro K h
      have hne : j ≠ getIdex q := by
        have := Nat.mod_lt q (by omega : 10 > 0)
        rw [getIdex]
        omega
      exact ih _ ((congrArg Buf.size (Function.update_of_ne hne _ _)).trans h)
  exact hfold _ _ rfl

end inputs

/-! ## The whole run -/

section run
variable {c : Config} {cf : Circuit} {hash : Hash} {d : Draw} {x ob : ℕ → Bool} {off : ℕ → Offline}
  {ev : ℕ → Eval} {holder : List Holder} {data : ℕ → List Byte}

/-- With at most ten players every wire gets its masked value and its labels. -/
lemma online_ok (hcf : cf.Topological) (hs : Sound c cf hash d ob off) (h10 : c.players_num ≤ 10)
    (hR : ∀ p < c.players_num, d.R p ≠ 0) (hx : Assigns c cf holder data x) :
    ∃ ev, online c hash d cf off holder data = .ok ev ∧ ∀ p < c.players_num, Sized c cf (ev p) ∧
      ∀ w < cf.num_wire, Wire c off (masked (cf.plain x) ob) (ev p) w := by
  obtain ⟨hplain, hgates⟩ := plain_spec hcf x
  have hl : ∀ g ∈ cf.gates, MaskedRel ob (masked (cf.plain x) ob) g :=
    fun g hg => masked_rel (hgates g hg) (hs.openRel g hg)
  obtain ⟨L, hLrun, hLsize, hLval⟩ := inputs_ok hcf hs hx
  have hLmasked : ∀ w < cf.in_size, L.val w = bit (masked (cf.plain x) ob w) :=
    fun w hw => by rw [hLval w hw, masked, hplain w hw]
  obtain ⟨Lambda, hLambda, hLeq⟩ := collect_ok fun p (_ : p < c.players_num) => hLrun
  have hpick : ∀ q < c.players_num, pickLabels cf.in_size (off q).Ks (Lambda q) =
      .ok ((List.range cf.in_size).map fun i =>
        side (pairs (off q).Ks i) (masked (cf.plain x) ob i).toNat) := by
    intro q hq
    rw [hLeq q hq]
    exact pickLabels_ok hcf.inputs (hs.sizeKs q hq) hLsize hLmasked
  obtain ⟨sent, hsent, hsentEq⟩ := collect_ok hpick
  have heval : ∀ p < c.players_num, ∃ s : Eval,
      cf.gates.zipIdx.foldlM (evalGate c hash (d.R p) p (off p).Ks (off p).tabs 0)
        ⟨Lambda p,gather c p cf.num_wire sent,0⟩ = .ok s ∧
      Sized c cf s ∧ ∀ w < cf.num_wire, Wire c off (masked (cf.plain x) ob) s w := by
    intro p hp
    have hsize : Sized c cf ⟨Lambda p,gather c p cf.num_wire sent,0⟩ :=
      ⟨(congrArg Buf.size (hLeq p hp)).trans hLsize,fun j hj => by
        simp only [gather_ok h10 hp cf.num_wire sent hj]⟩
    have hin : ∀ w < cf.in_size, Wire c off (masked (cf.plain x) ob)
        ⟨Lambda p,gather c p cf.num_wire sent,0⟩ w := by
      refine fun w hw => ⟨?_,fun j hj => ?_⟩
      · simp only [hLeq p hp, hLmasked w hw]
      · simp [gather_ok h10 hp cf.num_wire sent hj, hsentEq j hj, hw]
    exact eval_ok hcf hs h10 hp (hR p hp) hl hsize rfl hin
  obtain ⟨ev, hev, hwires⟩ := collect_spec heval
  refine ⟨ev,?_,hwires⟩
  rw [online, hLambda, ok_bind, hsent, ok_bind]
  exact hev

lemma update_size {K : ℕ → Buf Block} {k w : ℕ} {v : Block} {b : Buf Block}
    (h : (K k).set w v = .ok b) (j : ℕ) : (Function.update K k b j).size = (K j).size := by
  by_cases hj : j = k
  · subst hj
    rw [Function.update_self, Buf.set_size h]
  · rw [Function.update_of_ne hj]

lemma freeLabels_size {o w : ℕ} {label : Buf Block → Except Fault Block} {K K' : ℕ → Buf Block}
    (h : freeLabels c o w label K = .ok K') (j : ℕ) : (K' j).size = (K j).size := by
  refine foldlM_keeps (I := fun K' => (K' j).size = (K j).size) (fun K1 k K2 hone hK1 => ?_) h rfl
  obtain ⟨v, -, hone⟩ := ok_of_bind hone
  obtain ⟨b, hset, hone⟩ := ok_of_bind hone
  obtain rfl := Except.ok.inj hone
  exact (update_size hset j).trans hK1

lemma evalGate_size {R : Block} {p : ℕ} {Ks : Buf Block} {tabs : List GcTable} {s s' : Eval}
    {g : Gate × ℕ} (h : evalGate c hash R p Ks tabs 0 s g = .ok s') (j : ℕ) :
    (s'.Ks_pickeds j).size = (s.Ks_pickeds j).size := by
  obtain ⟨g, i⟩ := g
  cases g with
  | AND a b w =>
    refine foldlM_keeps (I := fun s' => (s'.Ks_pickeds j).size = (s.Ks_pickeds j).size)
      (fun s1 k s2 hone hs1 => ?_) h rfl
    obtain ⟨v, -, hone⟩ := ok_of_bind hone
    obtain ⟨b, hset, hone⟩ := ok_of_bind hone
    have hlast : ∃ L, s2 = ⟨L,Function.update s1.Ks_pickeds k b,s1.itr_tab+1⟩ := by
      dsimp only at hone
      split at hone
      all_goals
        obtain ⟨L, -, hone⟩ := ok_of_bind hone
        exact ⟨L,(Except.ok.inj hone).symm⟩
    obtain ⟨L, rfl⟩ := hlast
    exact (update_size hset j).trans hs1
  | XOR a b w =>
    obtain ⟨x, -, h⟩ := ok_of_bind h
    obtain ⟨y, -, h⟩ := ok_of_bind h
    obtain ⟨L, -, h⟩ := ok_of_bind h
    obtain ⟨K, hK, h⟩ := ok_of_bind h
    obtain rfl := Except.ok.inj h
    exact freeLabels_size hK j
  | NOT a w =>
    obtain ⟨x, -, h⟩ := ok_of_bind h
    obtain ⟨L, -, h⟩ := ok_of_bind h
    obtain ⟨K, hK, h⟩ := ok_of_bind h
    obtain rfl := Except.ok.inj h
    exact freeLabels_size hK j

/-- The eleventh party's labels have no room in any run. -/
lemma online_none (h : online c hash d cf off holder data = .ok ev) {p : ℕ} (hp : p < c.players_num)
    {j : ℕ} (hj : 10 ≤ j) : ((ev p).Ks_pickeds j).size = 0 := by
  obtain ⟨Lambda, -, h⟩ := ok_of_bind h
  obtain ⟨sent, -, h⟩ := ok_of_bind h
  have hrun := collect_inv h p hp
  refine foldlM_keeps (I := fun s => (s.Ks_pickeds j).size = 0)
    (fun s g s' hone hs => (evalGate_size hone j).trans hs) hrun ?_
  exact gather_none p cf.num_wire sent hj

lemma online_empty (hcf : cf.Topological) (hs : Sound c cf hash d ob off) (hW : cf.num_wire = 0)
    (hx : Assigns c cf holder data x) : ∃ ev, online c hash d cf off holder data = .ok ev := by
  have hgates : cf.gates = [] := by
    refine List.eq_nil_iff_forall_not_mem.mpr fun g hg => ?_
    have hlt := (hcf.order.lt (range_lt hcf) hg).1
    omega
  have hin : cf.in_size = 0 := by
    have hle := hcf.inputs
    omega
  obtain ⟨L, hLrun, -, -⟩ := inputs_ok hcf hs hx
  obtain ⟨Lambda, hLambda, -⟩ := collect_ok fun p (_ : p < c.players_num) => hLrun
  obtain ⟨sent, hsent, -⟩ := collect_ok (f := fun q => pickLabels cf.in_size (off q).Ks (Lambda q))
    (n := c.players_num) (g := fun _ => []) fun q _ => by rw [hin]; rfl
  obtain ⟨ev, hev, -⟩ := collect_ok (n := c.players_num) (f := fun p =>
    cf.gates.zipIdx.foldlM (evalGate c hash (d.R p) p (off p).Ks (off p).tabs 0)
      ⟨Lambda p,gather c p cf.num_wire sent,0⟩)
    (g := fun p => ⟨Lambda p,gather c p cf.num_wire sent,0⟩) fun p _ => by rw [hgates]; rfl
  refine ⟨ev,?_⟩
  rw [online, hLambda, ok_bind, hsent, ok_bind]
  exact hev

/-- Every party has the plain values and every party's labels. -/
structure Correct (c : Config) (cf : Circuit) (d : Draw) (x : ℕ → Bool) (off : ℕ → Offline)
    (ev : ℕ → Eval) : Prop where
  value : ∀ p < c.players_num, ∀ w < cf.num_wire, ∃ L o, (ev p).Lambda_bits.get w = .ok L ∧
    (off p).opened_bits.get w = .ok o ∧ L ^^^ o = bit (cf.plain x w)
  label : ∀ p < c.players_num, ∀ j < c.players_num, ∀ w < cf.num_wire, ∃ L k,
    (ev p).Lambda_bits.get w = .ok L ∧ (off j).Ks.get (w*2) = .ok k ∧
    ((ev p).Ks_pickeds j).get w = .ok (if L = 0 then k else k ^^^ d.R j)

/-- A run of `offline` and `online` is correct exactly when the players have different digits, or
there is no wire. -/
theorem online_correct (hcf : cf.Topological) (hR : ∀ p < c.players_num, d.R p ≠ 0)
    (hx : Assigns c cf holder data x) :
    (∃ off ev, offline c hash d cf = .ok off ∧ online c hash d cf off holder data = .ok ev ∧
      Correct c cf d x off ev) ↔ c.players_num ≤ 10 ∨ cf.num_wire = 0 := by
  refine ⟨fun ⟨off, ev, _, hon, hcor⟩ => ?_,fun h => ?_⟩
  · by_contra hne
    obtain ⟨hn, hW⟩ : 10 < c.players_num ∧ 0 < cf.num_wire := by omega
    obtain ⟨L, k, -, -, hget⟩ := hcor.label 0 (by omega) 10 hn 0 hW
    have hlt := Buf.lt_of_get hget
    rw [online_none hon (by omega) le_rfl] at hlt
    omega
  obtain ⟨off, ob, hoff, hs⟩ := offline_ok c hash d hcf
  by_cases hW : cf.num_wire = 0
  · obtain ⟨ev, hev⟩ := online_empty hcf hs hW hx
    exact ⟨off,ev,hoff,hev,fun _ _ w hw => absurd hw (by omega),
      fun _ _ _ _ w hw => absurd hw (by omega)⟩
  obtain ⟨ev, hev, hwire⟩ := online_ok hcf hs (h.resolve_right hW) hR hx
  refine ⟨off,ev,hoff,hev,fun p hp w hw => ?_,fun p hp j hj w hw => ?_⟩
  · obtain ⟨hsize, hwires⟩ := hwire p hp
    refine ⟨_,_,Buf.get_ok (hsize.bits.symm ▸ hw),Buf.get_ok ((hs.size p hp).symm ▸ hw),?_⟩
    rw [(hwires w hw).bit, hs.opened p hp w hw, bit_xor, masked, Bool.xor_assoc, Bool.xor_self,
      Bool.xor_false]
  · obtain ⟨hsize, hwires⟩ := hwire p hp
    have hKs : w*2 < (off j).Ks.size := by
      rw [hs.sizeKs j hj]
      omega
    refine ⟨_,_,Buf.get_ok (hsize.bits.symm ▸ hw),Buf.get_ok hKs,?_⟩
    rw [Buf.get_ok ((hsize.labels j hj).symm ▸ hw), (hwires w hw).label j hj, (hwires w hw).bit,
      side_toNat (hs.offset j hj w hw)]
    cases masked (cf.plain x) ob w <;> rfl

/-- One `AND` gate, an input from each of the first two players. -/
def andCircuit : Circuit := ⟨3,1,1,1,[.AND 0 1 2]⟩

def andHolder : List Holder := [⟨0,0,1⟩,⟨1,1,2⟩]

def plainDraw : Draw := ⟨fun _ _ => 1,fun p => BitVec.ofNat 128 (p+1),fun p _ w => BitVec.ofNat 128 (p+w)⟩

lemma andCircuit_topological : andCircuit.Topological := ⟨by decide,by decide,by decide⟩

lemma and_assigns {c : Config} (hc : 2 ≤ c.players_num) :
    Assigns c andCircuit andHolder (fun _ => [1]) fun _ => true := by
  refine ⟨?_,by decide,by decide,by decide⟩
  intro h hh
  simp only [andHolder, List.mem_cons, List.not_mem_nil, or_false] at hh
  rcases hh with rfl | rfl <;> dsimp only <;> omega

def twoPlayers : Config := ⟨2,[0,1],by decide,by decide⟩

/-- The names in order, `player10` after `player1`. -/
def elevenPlayers : Config := ⟨11,[0,1,10,2,3,4,5,6,7,8,9],by decide,by decide⟩

theorem online_correct_two : ∃ off ev, offline twoPlayers (fun k l i j => k ^^^ l ^^^ i ^^^ j)
    plainDraw andCircuit = .ok off ∧ online twoPlayers (fun k l i j => k ^^^ l ^^^ i ^^^ j)
      plainDraw andCircuit off andHolder (fun _ => [1]) = .ok ev ∧
    Correct twoPlayers andCircuit plainDraw (fun _ => true) off ev :=
  (online_correct andCircuit_topological (by decide) (and_assigns (by decide))).mpr
    (.inl (by decide))

/-- Eleven players have no correct run of one `AND` gate. -/
theorem eleven_players_fail : andCircuit.Topological ∧ (∀ p < 11, plainDraw.R p ≠ 0) ∧
    Assigns elevenPlayers andCircuit andHolder (fun _ => [1]) (fun _ => true) ∧
    ¬∃ off ev, offline elevenPlayers (fun _ _ _ _ => 0) plainDraw andCircuit = .ok off ∧
      online elevenPlayers (fun _ _ _ _ => 0) plainDraw andCircuit off andHolder (fun _ => [1]) =
        .ok ev ∧ Correct elevenPlayers andCircuit plainDraw (fun _ => true) off ev := by
  refine ⟨andCircuit_topological,by decide,and_assigns (by decide),?_⟩
  rintro ⟨off, ev, -, hon, hcor⟩
  obtain ⟨L, k, -, -, hget⟩ := hcor.label 0 (by decide) 10 (by decide) 0 (by decide)
  have hlt := Buf.lt_of_get hget
  rw [online_none hon (by decide) le_rfl] at hlt
  cases hlt

end run

end OramPro.BMR
