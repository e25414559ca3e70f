import OramPro.BmrBatch

/-!
# Which batches are right

One instance runs like `offline()` and `online(holder, data)`, whatever shares of the masks an
owner has dealt. From two instances on they overlap.
-/
namespace OramPro.BMR

open Netlist

/-! ## Shared masks -/

section masks
variable {c : Config} {d : BatchDraw} {cf : Circuit} {owner : ℕ}

lemma share_open (ho : owner < c.players_num) (data : ℕ → Byte) (i : ℕ) :
    (xorAll c.players_num fun p => share c d p owner data i) = data i := by
  have hothers := foldl_others c ho fun q => if q = owner then (0 : Byte) else d.seed q i
  rw [if_pos rfl] at hothers
  have hseed : (c.others owner).foldl (fun x q => x ^^^ d.seed q i) 0 =
      (c.others owner).foldl (fun x q => x ^^^ if q = owner then 0 else d.seed q i) 0 := by
    refine List.foldl_ext _ _ _ fun x q hq => ?_
    have hne : q ≠ owner := by simpa using (List.mem_filter.mp hq).2
    rw [if_neg hne]
  have hown : share c d owner owner data i =
      data i ^^^ xorAll c.players_num fun q => if q = owner then 0 else d.seed q i := by
    rw [share, if_pos rfl, foldl_xor_from, hseed, hothers]
  have hsum : ∀ p, share c d p owner data i =
      (if p = owner then share c d owner owner data i else 0) ^^^
        if p = owner then 0 else d.seed p i := by
    intro p
    by_cases hp : p = owner
    · subst hp
      rw [if_pos rfl, if_pos rfl, xor_zero]
    · rw [if_neg hp, if_neg hp, zero_xor, share, if_neg hp]
  rw [xorAll_congr fun p _ => hsum p, xorAll_xor, xorAll_single ho, hown, BitVec.xor_assoc,
    BitVec.xor_self, BitVec.xor_zero]

lemma maskGates_fold {p : ℕ} {gates : List Gate} {m m' : Buf Byte}
    (h : gates.foldlM (maskGate p 0) m = .ok m') :
    gates.foldlM (maskGates p 0) ⟨m,m⟩ = .ok ⟨m',m'⟩ := by
  induction gates generalizing m with
  | nil =>
    obtain rfl := Except.ok.inj h
    rfl
  | cons g gates ih =>
    rw [List.foldlM_cons] at h
    obtain ⟨m1, hone, hrest⟩ := ok_of_bind h
    rw [List.foldlM_cons, maskGates, hone]
    exact ih hrest

end masks

/-! ## Labels -/

section labels
variable {c : Config} {cf : Circuit}

lemma blockAt_mul (l : List Block) (i : ℕ) : blockAt l (16*i) = l.getD i 0 := by
  have hbyte : ∀ k < 16, byteAt l (16*i+k) = (l.getD i 0 >>> (8*k)).setWidth 8 := by
    intro k hk
    have hdiv : (16*i+k)/16 = i := by omega
    have hmod : (16*i+k)%16 = k := by omega
    rw [byteAt, hdiv, hmod]
  have hbits : ∀ n ≤ 16, ∀ j, ((List.range n).foldl (fun x k =>
      x ||| (byteAt l (16*i+k)).setWidth 128 <<< (8*k)) (0 : Block)).getLsbD j =
        (decide (j < 8*n) && (l.getD i 0).getLsbD j) := by
    intro n
    induction n with
    | zero => intro _ j; simp
    | succ n ih =>
      intro hn j
      rw [List.range_succ, List.foldl_append, List.foldl_cons, List.foldl_nil, BitVec.getLsbD_or,
        ih (by omega), hbyte n (by omega)]
      simp only [BitVec.getLsbD_shiftLeft, BitVec.getLsbD_setWidth, BitVec.getLsbD_ushiftRight]
      by_cases h1 : j < 8*n
      · have h2 : j < 8*(n+1) := by omega
        simp [h1, h2]
      · by_cases h2 : j < 8*(n+1)
        · have h3 : 8*n+(j-8*n) = j := by omega
          have h4 : j-8*n < 8 := by omega
          have h5 : j < 128 := by omega
          have h6 : j-8*n < 128 := by omega
          simp [h1, h2, h3, h4, h5, h6]
        · have h4 : ¬j-8*n < 8 := by omega
          simp [h1, h2, h4]
  refine BitVec.eq_of_getLsbD_eq fun j hj => ?_
  rw [blockAt, hbits 16 le_rfl]
  simp [hj]

lemma otherLabels_one (hcf : cf.Topological) (sent : List Block) :
    ∃ K, otherLabels cf 1 sent = .ok K ∧ K.size = cf.num_wire ∧
      ∀ i < cf.in_size, K.val i = sent.getD i 0 := by
  obtain ⟨K, hrun, hsize, hval⟩ := foldlM_set_range (b := ⟨cf.num_wire*1,fun _ => 0⟩)
    (by simpa using hcf.inputs) fun i => sent.getD i (0 : Block)
  refine ⟨K,?_,hsize.trans (mul_one _),hval⟩
  rw [otherLabels, foldlM_range_one]
  simp only [zero_mul, zero_add, blockAt_mul]
  exact hrun

lemma ownLabels_one (hcf : cf.Topological) (sent : List Block) :
    ∃ K, ownLabels cf 1 sent = .ok K ∧ K.size = cf.num_wire ∧
      ∀ i < cf.in_size, K.val i = sent.getD i 0 := by
  have hsame : ownLabels cf 1 sent = otherLabels cf 1 sent := by
    rw [ownLabels, otherLabels, foldlM_range_one, foldlM_range_one]
    simp only [zero_mul, zero_add, add_zero, blockAt_mul]
  rw [hsame]
  exact otherLabels_one hcf sent

/-- With at most ten players the labels of one instance find their places. -/
lemma gatherRows_one (hcf : cf.Topological) (h10 : c.players_num ≤ 10) {p : ℕ}
    (hp : p < c.players_num) (sent : ℕ → List Block) :
    ∃ K, gatherRows c cf 1 p sent = .ok K ∧ ∀ j < c.players_num, (K j).size = cf.num_wire ∧
      ∀ i < cf.in_size, (K j).val i = (sent j).getD i 0 := by
  obtain ⟨own, hown, hownSize, hownVal⟩ := ownLabels_one hcf (sent p)
  have hother := fun q => otherLabels_one hcf (sent q)
  choose other hrun hsize hval using hother
  have hidx : ∀ q ∈ c.others p, getIdex q = q := fun q hq =>
    getIdex_eq h10 (List.mem_range.mp (c.perm.mem_iff.mp (List.mem_of_mem_filter hq)))
  refine ⟨(c.others p).foldl (fun K q => Function.update K (getIdex q) (other q))
    (Function.update (fun _ => ⟨0,fun _ => 0⟩) (getIdex p) own),?_,fun j hj => ?_⟩
  · rw [gatherRows, hown, ok_bind]
    simp only [hrun, ok_bind]
    exact foldlM_ok (fun (K : ℕ → Buf Block) q => Function.update K (getIdex q) (other q)) _ _
  · rw [gather_foldl other hidx]
    by_cases hjp : j = p
    · subst hjp
      have hnot : j ∉ c.others j := by simp [Config.others]
      rw [if_neg hnot, getIdex_eq h10 hp, Function.update_self]
      exact ⟨hownSize,hownVal⟩
    · have hmem : j ∈ c.others p := by
        rw [Config.others, List.mem_filter, c.perm.mem_iff, List.mem_range]
        simp [hj, hjp]
      rw [if_pos hmem]
      exact ⟨hsize j,hval j⟩

end labels

/-! ## One instance -/

/-- The holders cover the inputs, and hold the bits of every instance for their ranges. -/
structure BatchAssigns (c : Config) (cf : Circuit) (lens : ℕ) (holder : List Holder)
    (datas : ℕ → List (List Byte)) (x : ℕ → ℕ → Bool) : Prop where
  player : ∀ h ∈ holder, h.player < c.players_num
  range : ∀ h ∈ holder, h.first ≤ h.last ∧ h.last ≤ cf.in_size
  datas : ∀ h ∈ holder, datas h.player = (List.range lens).map fun k =>
    (List.range (h.last-h.first)).map fun i => bit (x k (h.first+i))
  cover : ∀ w < cf.in_size, ∃ h ∈ holder, h.first ≤ w ∧ w < h.last

section one
variable {c : Config} {cf : Circuit} {hash : Hash} {d : BatchDraw} {x : ℕ → ℕ → Bool}
  {ob : ℕ → Bool} {off : ℕ → BatchOffline} {holder : List Holder} {datas : ℕ → List (List Byte)}

lemma offlineBatch_one (hash d) (hcf : cf.Topological) {owner : ℕ} (ho : owner < c.players_num) :
    ∃ off ob, offlineBatch c hash d (some owner) cf 1 = .ok off ∧
      Sound c cf hash d.toDraw ob (fun p => (off p).toOffline) ∧
      (∀ p < c.players_num, (off p).Amaskbits.size = cf.num_wire) ∧
      ∀ w < cf.num_wire, (xorAll c.players_num fun p => (off p).Amaskbits.val w) = bit (ob w) := by
  have hlab : ∀ p, ∃ Ks, startLabels d p cf 1 = .ok Ks ∧ Ks.size = cf.num_wire*2 ∧
      ∀ w < cf.in_size, (pairs Ks w).2 = (pairs Ks w).1 ^^^ d.R p := by
    intro p
    rw [startLabels, foldlM_range_one]
    simp only [mul_zero, zero_mul, one_mul]
    exact inputLabel_fold hcf.inputs rfl
  choose K0 hK0 hKsize hR using hlab
  have hsize : ∀ p, (startMasks c d p cf 1 (some owner)).size = cf.num_wire := fun p => one_mul _
  have hbit : ∀ w < cf.num_wire, ∃ b, (xorAll c.players_num fun p =>
      (startMasks c d p cf 1 (some owner)).val w) = bit b := fun w _ =>
    ⟨_,(share_open ho (fun i => d.maskbits owner i%2) w).trans (mod_two _)⟩
  obtain ⟨m, hm, hsound⟩ := offline_sound hash hcf _ hsize hbit (fun p _ => hKsize p) fun p _ => hR p
  have hmasks : ∀ p < c.players_num, (List.range 1).foldlM (fun s k =>
      cf.gates.foldlM (maskGates p (cf.num_gate*k)) s)
      ⟨startMasks c d p cf 1 (some owner),startAmasks c d p cf 1 (some owner)⟩ =
        .ok ⟨m p,m p⟩ := by
    intro p _
    rw [foldlM_range_one, mul_zero]
    exact maskGates_fold (hm p)
  obtain ⟨masks, hcol, hEq⟩ := collect_ok hmasks
  obtain ⟨garbled, hgarbled, hsound⟩ := hsound (fun q => (masks q).maskbits) fun p hp =>
    congrArg Masks.maskbits (hEq p hp)
  have hgarble : ∀ p < c.players_num, (do
      let Ks ← startLabels d p cf 1
      (List.range 1).foldlM (fun s w => cf.gates.zipIdx.foldlM (garbleGate c hash d.toDraw p
        (w*cf.num_gate) w (openBits c p fun q => (masks q).maskbits)) s) ⟨Ks,[]⟩) =
        .ok (garbled p) := by
    intro p hp
    rw [hK0 p, ok_bind, foldlM_range_one, zero_mul]
    exact hgarbled p hp
  obtain ⟨g', hcol', hg'⟩ := collect_ok hgarble
  obtain ⟨ob, hob⟩ := hsound g' hg'
  have hsame : ∀ p < c.players_num, (masks p).Amaskbits = (masks p).maskbits :=
    fun p hp => by rw [hEq p hp]
  refine ⟨fun p => ⟨⟨openBits c p fun q => (masks q).maskbits,(g' p).Ks,
    openTabs c p fun q => (g' q).tabs⟩,(masks p).Amaskbits⟩,ob,?_,hob,fun p hp => ?_,fun w hw => ?_⟩
  · rw [offlineBatch, hcol, ok_bind]
    dsimp only
    rw [hcol']
    rfl
  · exact (congrArg Buf.size (hsame p hp)).trans (hob.size p hp)
  · refine Eq.trans (xorAll_congr fun q hq => ?_) ((foldl_others c c.pos fun q =>
      (masks q).maskbits.val w).symm.trans (hob.opened 0 c.pos w hw))
    exact congrArg (fun m => m.val w) (hsame q hq)

lemma holderRows_one {opened : Buf Byte} {h : Holder} (hsize : h.last ≤ opened.size)
    (hob : ∀ w < opened.size, opened.val w = bit (ob w)) {rows : List (List Byte)}
    (hrows : rows = (List.range 1).map fun k =>
      (List.range (h.last-h.first)).map fun i => bit (x k (h.first+i))) :
    ∃ bits, holderRows cf 1 opened rows h = .ok bits ∧
      (∀ e ∈ bits, e.2 < h.last ∧ e.1 = bit (x 0 e.2 ^^ ob e.2)) ∧
      ∀ w, h.first ≤ w → w < h.last → ∃ e ∈ bits, e.2 = w := by
  have hmem : ∀ i ∈ List.range' h.first (h.last-h.first), h.first ≤ i ∧ i < h.last := by
    intro i hi
    rw [List.mem_range'_1] at hi
    omega
  have hrow : (List.range' h.first (h.last-h.first)).mapM (fun i => do
      let row ← (Buf.ofList rows []).get 0
      let y ← (Buf.ofList row 0).get (i-h.first)
      return (y ^^^ (← opened.get (0*cf.num_gate+i)),0*cf.num_gate+i)) =
      .ok ((List.range' h.first (h.last-h.first)).map fun i => (bit (x 0 i ^^ ob i),i)) := by
    refine mapM_ok fun i hi => ?_
    obtain ⟨hfirst, hlast⟩ := hmem i hi
    subst hrows
    have hlt : i-h.first < h.last-h.first := by omega
    have hi' : h.first+(i-h.first) = i := by omega
    have hy : (Buf.ofList ((List.range (h.last-h.first)).map fun i => bit (x 0 (h.first+i)))
        (0 : Byte)).get (i-h.first) = .ok (bit (x 0 i)) := by
      rw [Buf.get_ok (by simpa [Buf.ofList] using hlt)]
      simp [Buf.ofList, hlt, hi']
    rw [Buf.get_ok (by simp [Buf.ofList]), ok_bind]
    change (Buf.ofList ((List.range (h.last-h.first)).map fun i => bit (x 0 (h.first+i)))
        (0 : Byte)).get (i-h.first) >>= _ = _
    rw [hy, ok_bind, zero_mul, zero_add, Buf.get_ok (hlast.trans_le hsize), ok_bind,
      hob _ (hlast.trans_le hsize), bit_xor]
    rfl
  refine ⟨(List.range' h.first (h.last-h.first)).map fun i => (bit (x 0 i ^^ ob i),i),?_,?_,?_⟩
  · rw [holderRows, List.range_one, List.mapM_cons, hrow]
    simp
  · intro e he
    obtain ⟨i, hi, rfl⟩ := List.mem_map.mp he
    exact ⟨(hmem i hi).2,rfl⟩
  · intro w hfirst hlast
    exact ⟨_,List.mem_map.mpr ⟨w,List.mem_range'_1.mpr (by omega),rfl⟩,rfl⟩

lemma inputRows_one (hcf : cf.Topological) (hs : Sound c cf hash d.toDraw ob fun p => (off p).toOffline)
    (hx : BatchAssigns c cf 1 holder datas x) :
    ∃ L, holder.foldlM (fun L h => do
        setBits L (← holderRows cf 1 (off h.player).opened_bits (datas h.player) h))
        ⟨1*cf.num_wire,fun _ => 0⟩ = .ok L ∧
      L.size = cf.num_wire ∧ ∀ w < cf.in_size, L.val w = bit (x 0 w ^^ ob w) := by
  have hbits : ∀ h ∈ holder, ∃ bits,
      holderRows cf 1 (off h.player).opened_bits (datas h.player) h = .ok bits ∧
      (∀ e ∈ bits, e.2 < cf.num_wire ∧ e.1 = bit (x 0 e.2 ^^ ob e.2)) ∧
      ∀ w, h.first ≤ w → w < h.last → ∃ e ∈ bits, e.2 = w := by
    intro h hh
    have hp := hx.player h hh
    have hlast := (hx.range h hh).2.trans hcf.inputs
    obtain ⟨bits, hrun, hval, hcover⟩ := holderRows_one (h := h)
      ((hs.size _ hp).symm ▸ hlast) (fun w hw => hs.opened _ hp w (hs.size _ hp ▸ hw))
      (hx.datas h hh)
    exact ⟨bits,hrun,fun e he => ⟨(hval e he).1.trans_le hlast,(hval e he).2⟩,hcover⟩
  obtain ⟨L, hrun, hL, hval⟩ := setInputs_ok (l := fun w => x 0 w ^^ ob w) hbits
    (L := ⟨1*cf.num_wire,fun _ => 0⟩) (one_mul _)
  exact ⟨L,hrun,hL,fun w hw => hval w (.inr (hx.cover w hw))⟩

lemma pickRows_one {l : ℕ → Bool} {Ks : Buf Block} {L : Buf Byte} {W : ℕ} (hn : cf.in_size ≤ W)
    (hKs : Ks.size = W*2) (hL : L.size = W) (hl : ∀ w < cf.in_size, L.val w = bit (l w)) :
    pickRows cf 1 Ks L =
      .ok ((List.range cf.in_size).map fun i => side (pairs Ks i) (l i).toNat) := by
  have hpick := pickLabels_ok hn hKs hL hl
  rw [pickLabels] at hpick
  rw [pickRows, List.range_one, List.mapM_cons]
  simp only [zero_mul, add_zero]
  rw [hpick]
  simp

/-- With at most ten players the evaluation of one instance is right on every wire. -/
lemma evalRows_one (hcf : cf.Topological) (hs : Sound c cf hash d.toDraw ob fun p => (off p).toOffline)
    (h10 : c.players_num ≤ 10) (hR : ∀ p < c.players_num, d.R p ≠ 0) {Lambda : ℕ → Buf Byte}
    (hsize : ∀ p < c.players_num, (Lambda p).size = cf.num_wire) {y : ℕ → Bool}
    (hval : ∀ p < c.players_num, ∀ w < cf.in_size, (Lambda p).val w = bit (y w ^^ ob w)) :
    ∃ ev, evalRows c hash d cf 1 off Lambda = .ok ev ∧ ∀ p < c.players_num, Sized c cf (ev p) ∧
      ∀ w < cf.num_wire, (ev p).Lambda_bits.val w = bit (masked (cf.plain y) ob w) := by
  obtain ⟨hplain, hgates⟩ := plain_spec hcf y
  have hl : ∀ g ∈ cf.gates, MaskedRel ob (masked (cf.plain y) ob) g :=
    fun g hg => masked_rel (hgates g hg) (hs.openRel g hg)
  have hmasked : ∀ p < c.players_num, ∀ w < cf.in_size,
      (Lambda p).val w = bit (masked (cf.plain y) ob w) :=
    fun p hp w hw => by rw [hval p hp w hw, masked, hplain w hw]
  obtain ⟨sent, hsent, hsentEq⟩ := collect_ok fun q hq =>
    pickRows_one hcf.inputs (hs.sizeKs q hq) (hsize q hq) (hmasked q hq)
  have heval : ∀ p < c.players_num, ∃ s : Eval, (do
      let Ks_pickeds ← gatherRows c cf 1 p sent
      (List.range 1).foldlM (fun s w => cf.gates.zipIdx.foldlM (evalGate c hash (d.R p) p
        (off p).Ks (off p).tabs (w*cf.num_gate)) s) ⟨Lambda p,Ks_pickeds,0⟩) = .ok s ∧
      Sized c cf s ∧ ∀ w < cf.num_wire, s.Lambda_bits.val w = bit (masked (cf.plain y) ob w) := by
    intro p hp
    obtain ⟨K, hK, hKval⟩ := gatherRows_one hcf h10 hp sent
    have hsz : Sized c cf ⟨Lambda p,K,0⟩ := ⟨hsize p hp,fun j hj => (hKval j hj).1⟩
    have hin : ∀ w < cf.in_size, Wire c (fun p => (off p).toOffline) (masked (cf.plain y) ob)
        ⟨Lambda p,K,0⟩ w := by
      refine fun w hw => ⟨hmasked p hp w hw,fun j hj => ?_⟩
      simp [(hKval j hj).2 w hw, hsentEq j hj, hw]
    obtain ⟨s, hrun, hsize', hwires⟩ := eval_ok hcf hs h10 hp (hR p hp) hl hsz rfl hin
    refine ⟨s,?_,hsize',fun w hw => (hwires w hw).bit⟩
    rw [hK, ok_bind, foldlM_range_one, zero_mul]
    exact hrun
  obtain ⟨ev, hev, hbits⟩ := collect_spec heval
  refine ⟨ev,?_,hbits⟩
  rw [evalRows, hsent, ok_bind]
  exact hev

/-- The outputs in the clear. -/
def Circuit.plainOutputs (cf : Circuit) (y : ℕ → Bool) : List Byte :=
  (outWires cf).map fun i => bit (cf.plain y i)

lemma outWires_lt (hcf : cf.Topological) : ∀ i ∈ outWires cf, i < cf.num_wire := by
  intro i hi
  have hout := hcf.outputs
  rw [outWires, List.mem_range'_1] at hi
  omega

lemma flipOut_fold (cf : Circuit) {p : ℕ} {Lambda A : Buf Byte} {l : ℕ → Bool} {W : ℕ}
    (hL : Lambda.size = W) (hl : ∀ w < W, Lambda.val w = bit (l w)) {is : List ℕ} (his : is.Nodup) (hW : ∀ i ∈ is, i < W)
    {m : ℕ → Byte} (hA : A.size = W) (hm : ∀ i ∈ is, A.val i = m i) (out : List Byte) :
    ∃ s, is.foldlM (fun s i => do
        let A ← flipOut p (0*cf.num_gate+i) Lambda s.1
        return (A,s.2++[← A.get (0*cf.num_gate+i)])) (A,out) = .ok s ∧
      s.2 = out++is.map fun i => m i ^^^ if p = 0 then bit (l i) else 0 := by
  induction is generalizing A out with
  | nil => exact ⟨(A,out),rfl,(List.append_nil _).symm⟩
  | cons i is ih =>
    obtain ⟨hi, hnd⟩ := List.nodup_cons.mp his
    have hlt := hW i List.mem_cons_self
    have hAi := hm i List.mem_cons_self
    have hflip : ∃ A', flipOut p i Lambda A = .ok A' ∧ A'.size = W ∧
        (∀ j ≠ i, A'.val j = A.val j) ∧ A'.val i = m i ^^^ if p = 0 then bit (l i) else 0 := by
      rw [flipOut]
      by_cases hp : p = 0
      · rw [if_pos hp, if_pos hp, Buf.get_ok (hL ▸ hlt), ok_bind, hl i hlt]
        cases hli : l i
        · exact ⟨A,rfl,hA,fun _ _ => rfl,hAi.trans (xor_zero _).symm⟩
        · refine ⟨A.put i (A.val i ^^^ 1),?_,hA,fun j hj => Buf.put_of_ne hj _,?_⟩
          · rw [if_pos (by decide), Buf.get_ok (hA ▸ hlt), ok_bind, Buf.set_ok (hA ▸ hlt)]
          · rw [Buf.put_self, hAi]
            rfl
      · rw [if_neg hp, if_neg hp]
        exact ⟨A,rfl,hA,fun _ _ => rfl,hAi.trans (xor_zero _).symm⟩
    obtain ⟨A', hrun, hA', hframe, hval⟩ := hflip
    obtain ⟨s, hrest, hout⟩ := ih hnd (fun j hj => hW j (List.mem_cons_of_mem i hj)) hA'
      (fun j hj => (hframe j fun he => hi (he ▸ hj)).trans (hm j (List.mem_cons_of_mem i hj)))
      (out++[A'.val i])
    refine ⟨s,?_,?_⟩
    · simp only [zero_mul, zero_add] at hrest ⊢
      rw [List.foldlM_cons, hrun, ok_bind, Buf.get_ok (hA'.symm ▸ hlt), ok_bind]
      exact hrest
    · rw [hout, List.map_cons, hval, List.append_assoc]
      rfl

end one

/-! ## The whole run -/

section run
variable (c : Config) (hash : Hash) (d : BatchDraw) (owner : Option ℕ) (cf : Circuit) (lens : ℕ)
  (holder : List Holder) (datas : ℕ → List (List Byte)) (x : ℕ → ℕ → Bool)

/-- `Lambda_bits` holds the masked inputs of every instance. -/
def InputsSet (off : ℕ → BatchOffline) (Lambda : ℕ → Buf Byte) : Prop :=
  ∀ p < c.players_num, (Lambda p).size = lens*cf.num_wire ∧ ∀ k < lens, ∀ i < cf.in_size,
    (Lambda p).val (k*cf.num_gate+i) = bit (x k i) ^^^ (off p).opened_bits.val (k*cf.num_gate+i)

/-- The whole of a batch: no access fails, nothing is thrown, both `online` functions give the plain
outputs of every instance; those of `online(verify)` are shared. -/
def BatchCorrect : Prop :=
  ∃ off, offlineBatch c hash d owner cf lens = .ok off ∧
    (∃ out, onlineBatch c hash d cf lens off holder datas = .ok out ∧
      ∀ p < c.players_num, out p = (List.range lens).map fun k => cf.plainOutputs (x k)) ∧
    ∀ Lambda, InputsSet c cf lens x off Lambda →
      ∃ res, onlineVerify c hash d cf lens off Lambda = .ok res ∧
        ∀ n < lens*cf.n3, some (xorAll c.players_num fun p => (res p).getD n 0) =
          ((List.range lens).flatMap fun k => cf.plainOutputs (x k))[n]?

variable {c hash d cf holder datas x}

lemma onlineBatch_one {off : ℕ → BatchOffline} {ob : ℕ → Bool} (hcf : cf.Topological)
    (hs : Sound c cf hash d.toDraw ob fun p => (off p).toOffline) (h10 : c.players_num ≤ 10)
    (hR : ∀ p < c.players_num, d.R p ≠ 0) (hx : BatchAssigns c cf 1 holder datas x) :
    ∃ out, onlineBatch c hash d cf 1 off holder datas = .ok out ∧
      ∀ p < c.players_num, out p = (List.range 1).map fun k => cf.plainOutputs (x k) := by
  obtain ⟨L, hL, hLsize, hLval⟩ := inputRows_one hcf hs hx
  obtain ⟨Lambda, hcol, hEq⟩ := collect_ok fun p (_ : p < c.players_num) => hL
  have hsize : ∀ p < c.players_num, (Lambda p).size = cf.num_wire :=
    fun p hp => by rw [hEq p hp]; exact hLsize
  have hset : ∀ p < c.players_num, ∀ w < cf.in_size, (Lambda p).val w = bit (x 0 w ^^ ob w) :=
    fun p hp => by rw [hEq p hp]; exact hLval
  obtain ⟨ev, hev, hval⟩ := evalRows_one hcf hs h10 hR hsize hset
  have hout : ∀ p < c.players_num, ((List.range 1).mapM fun w => (outWires cf).mapM fun i => do
      return (← (ev p).Lambda_bits.get (w*cf.num_gate+i)) ^^^
        (← (off p).opened_bits.get (w*cf.num_gate+i))) =
      .ok ((List.range 1).map fun k => cf.plainOutputs (x k)) := by
    intro p hp
    refine mapM_ok fun w hw => ?_
    obtain rfl : w = 0 := by simpa using hw
    refine mapM_ok fun i hi => ?_
    have hlt := outWires_lt hcf i hi
    obtain ⟨hsize, hbits⟩ := hval p hp
    rw [zero_mul, zero_add, Buf.get_ok (hsize.bits.symm ▸ hlt), ok_bind,
      Buf.get_ok ((hs.size p hp).symm ▸ hlt), ok_bind, hbits i hlt, hs.opened p hp i hlt, bit_xor,
      masked, Bool.xor_assoc, Bool.xor_self, Bool.xor_false]
    rfl
  obtain ⟨out, hrun, houtEq⟩ := collect_ok hout
  refine ⟨out,?_,houtEq⟩
  rw [onlineBatch, hcol, ok_bind, hev, ok_bind]
  exact hrun

lemma onlineVerify_one {off : ℕ → BatchOffline} {ob : ℕ → Bool} {Lambda : ℕ → Buf Byte}
    (hcf : cf.Topological) (hs : Sound c cf hash d.toDraw ob fun p => (off p).toOffline)
    (h10 : c.players_num ≤ 10) (hR : ∀ p < c.players_num, d.R p ≠ 0)
    (hAsize : ∀ p < c.players_num, (off p).Amaskbits.size = cf.num_wire)
    (hA : ∀ w < cf.num_wire, xorAll c.players_num (fun p => (off p).Amaskbits.val w) = bit (ob w))
    (hLambda : InputsSet c cf 1 x off Lambda) :
    ∃ res, onlineVerify c hash d cf 1 off Lambda = .ok res ∧
      ∀ n < 1*cf.n3, some (xorAll c.players_num fun p => (res p).getD n 0) =
        ((List.range 1).flatMap fun k => cf.plainOutputs (x k))[n]? := by
  have hsize : ∀ p < c.players_num, (Lambda p).size = cf.num_wire :=
    fun p hp => (hLambda p hp).1.trans (one_mul _)
  have hset : ∀ p < c.players_num, ∀ w < cf.in_size,
      (Lambda p).val w = bit (x 0 w ^^ ob w) := by
    intro p hp w hw
    have h := (hLambda p hp).2 0 Nat.one_pos w hw
    rwa [zero_mul, zero_add, hs.opened p hp w (hw.trans_le hcf.inputs), bit_xor] at h
  obtain ⟨ev, hev, hval⟩ := evalRows_one hcf hs h10 hR hsize hset
  have hret : ∀ p < c.players_num, ∃ out : List Byte, (do
      let s ← (List.range 1).foldlM (fun s w => (outWires cf).foldlM (fun s i => do
        let A ← flipOut p (w*cf.num_gate+i) (ev p).Lambda_bits s.1
        return (A,s.2++[← A.get (w*cf.num_gate+i)])) s) ((off p).Amaskbits,([] : List Byte))
      return s.2 : Except Fault (List Byte)) = .ok out ∧
      out = (outWires cf).map fun i => (off p).Amaskbits.val i ^^^
        if p = 0 then bit (masked (cf.plain (x 0)) ob i) else 0 := by
    intro p hp
    obtain ⟨hsz, hbits⟩ := hval p hp
    have hnodup : (outWires cf).Nodup := List.nodup_range'
    obtain ⟨s, hrun, hout⟩ := flipOut_fold cf (p := p) hsz.bits hbits hnodup (outWires_lt hcf)
      (hAsize p hp) (fun _ _ => rfl) []
    refine ⟨s.2,?_,hout⟩
    rw [foldlM_range_one, hrun]
    rfl
  obtain ⟨res, hrun, hEq⟩ := collect_spec hret
  refine ⟨res,?_,fun n hn => ?_⟩
  · rw [onlineVerify, hev, ok_bind]
    exact hrun
  · rw [one_mul] at hn
    have hlt := outWires_lt hcf (cf.num_wire-cf.n3+n) (by rw [outWires, List.mem_range'_1]; omega)
    have hshare : ∀ p < c.players_num, (res p).getD n 0 =
        (off p).Amaskbits.val (cf.num_wire-cf.n3+n) ^^^
          if p = 0 then bit (masked (cf.plain (x 0)) ob (cf.num_wire-cf.n3+n)) else 0 := by
      intro p hp
      rw [hEq p hp]
      simp [outWires, hn]
    rw [xorAll_congr hshare, xorAll_xor, hA _ hlt, xorAll_single c.pos, bit_xor, masked,
      Bool.xor_comm, Bool.xor_assoc, Bool.xor_self, Bool.xor_false]
    simp [Circuit.plainOutputs, outWires, hn]

lemma batchCorrect_one (hcf : cf.Topological) {o : ℕ} (ho : o < c.players_num)
    (h10 : c.players_num ≤ 10) (hR : ∀ p < c.players_num, d.R p ≠ 0)
    (hx : BatchAssigns c cf 1 holder datas x) :
    BatchCorrect c hash d (some o) cf 1 holder datas x := by
  obtain ⟨off, ob, hoff, hs, hAsize, hA⟩ := offlineBatch_one (c := c) hash d hcf ho
  exact ⟨off,hoff,onlineBatch_one hcf hs h10 hR hx,
    fun Lambda hLambda => onlineVerify_one hcf hs h10 hR hAsize hA hLambda⟩

/-- Without gates the stride is zero, and all instances are one. -/
lemma instances_shared (hgates : cf.gates = []) {lens : ℕ} {off : ℕ → BatchOffline}
    {out : ℕ → List (List Byte)} (h : onlineBatch c hash d cf lens off holder datas = .ok out) {p : ℕ}
    (hp : p < c.players_num) {f : ℕ → List Byte} (hout : out p = (List.range lens).map f) {k k' : ℕ}
    (hk : k < lens) (hk' : k' < lens) : f k = f k' := by
  obtain ⟨Lambda, -, h⟩ := ok_of_bind h
  obtain ⟨ev, -, h⟩ := ok_of_bind h
  have hrow := collect_inv h p hp
  rw [hout] at hrow
  have h1 := mapM_inv hrow k (List.mem_range.mpr hk)
  have h2 := mapM_inv hrow k' (List.mem_range.mpr hk')
  have hstride : cf.num_gate = 0 := by rw [Circuit.num_gate, hgates, List.length_nil]
  rw [hstride, mul_zero] at h1 h2
  exact Except.ok.inj (h1.symm.trans h2)

lemma gatherRows_none {lens p : ℕ} {sent : ℕ → List Block} {K : ℕ → Buf Block}
    (h : gatherRows c cf lens p sent = .ok K) {j : ℕ} (hj : 10 ≤ j) : (K j).size = 0 := by
  have hne : ∀ q, j ≠ getIdex q := by
    intro q
    have hlt := Nat.mod_lt q (by omega : 10 > 0)
    rw [getIdex]
    omega
  obtain ⟨own, -, h⟩ := ok_of_bind h
  refine foldlM_keeps (I := fun K => (K j).size = 0) (fun K1 q K2 hone hK1 => ?_) h ?_
  · obtain ⟨b, -, hone⟩ := ok_of_bind hone
    obtain rfl := Except.ok.inj hone
    rwa [Function.update_of_ne (hne q)]
  · rw [Function.update_of_ne (hne p)]

lemma freeLabels_none {o w : ℕ} {label : Buf Block → Except Fault Block} {K K' : ℕ → Buf Block}
    (h : freeLabels c o w label K = .ok K') {j : ℕ} (hj : j < c.players_num) : (K j).size ≠ 0 := by
  intro hK
  obtain ⟨K1, K2, hK1, hone⟩ := foldlM_visits (I := fun K => (K j).size = 0)
    (fun K1 k K2 hone hK1 => by
      obtain ⟨v, -, hone⟩ := ok_of_bind hone
      obtain ⟨b, hset, hone⟩ := ok_of_bind hone
      obtain rfl := Except.ok.inj hone
      exact (update_size hset j).trans hK1) (List.mem_range.mpr hj) h hK
  obtain ⟨v, -, hone⟩ := ok_of_bind hone
  obtain ⟨b, hset, -⟩ := ok_of_bind hone
  have hlt := Buf.lt_of_set hset
  omega

/-- One input that is an output. -/
def wireCircuit : Circuit := ⟨1,1,0,1,[]⟩

def notCircuit : Circuit := ⟨2,1,0,1,[.NOT 0 1]⟩

lemma notCircuit_topological : notCircuit.Topological := ⟨by decide,by decide,by decide⟩

def oneDraw : BatchDraw := ⟨⟨fun _ _ => 0,fun _ => 1,fun _ _ _ => 0⟩,fun _ _ => 0⟩

lemma oneDraw_ne_zero (p : ℕ) : oneDraw.R p ≠ 0 := by
  have h : (1 : Block) ≠ 0 := by decide
  exact h

lemma first_assigns (c : Config) (cf : Circuit) (hin : cf.in_size = 1) (lens : ℕ) (x : ℕ → ℕ → Bool) :
    BatchAssigns c cf lens [⟨0,0,1⟩] (fun _ => (List.range lens).map fun k => [bit (x k 0)]) x := by
  refine ⟨?_,?_,?_,?_⟩
  · simpa using c.pos
  · simp [hin]
  · simp
  · intro w hw
    exact ⟨_,List.mem_singleton_self _,Nat.zero_le w,hin ▸ hw⟩

/-- Eleven players have no correct run of one `NOT` gate, and without an owner there is none either. -/
lemma not_correct_inv {owner : Option ℕ}
    (h : BatchCorrect c hash d owner notCircuit 1 holder datas x) :
    c.players_num ≤ 10 ∧ owner.isSome = true := by
  obtain ⟨off, hoff, ⟨out, hout, -⟩, -⟩ := h
  constructor
  · by_contra hne
    obtain ⟨Lambda, -, hout⟩ := ok_of_bind hout
    obtain ⟨ev, hev, -⟩ := ok_of_bind hout
    obtain ⟨sent, -, hev⟩ := ok_of_bind hev
    obtain ⟨K, hK, hrun⟩ := ok_of_bind (collect_inv hev 0 c.pos)
    rw [foldlM_range_one] at hrun
    obtain ⟨s, hone, -⟩ := ok_of_bind hrun
    obtain ⟨b, -, hone⟩ := ok_of_bind hone
    obtain ⟨L, -, hone⟩ := ok_of_bind hone
    obtain ⟨K', hfree, -⟩ := ok_of_bind hone
    exact freeLabels_none hfree (by omega : 10 < c.players_num) (gatherRows_none hK le_rfl)
  · cases owner with
    | some o => rfl
    | none =>
      obtain ⟨masks, hmasks, -⟩ := ok_of_bind hoff
      have hrun := collect_inv hmasks 0 c.pos
      rw [foldlM_range_one] at hrun
      obtain ⟨s, hone, -⟩ := ok_of_bind hrun
      obtain ⟨m, -, hone⟩ := ok_of_bind hone
      obtain ⟨A, hA, -⟩ := ok_of_bind hone
      obtain ⟨v, hget, -⟩ := ok_of_bind hA
      exact absurd (Buf.lt_of_get hget) (Nat.not_lt_zero _)

/-- The batches that are right for every circuit, all randomness and all inputs: single instances
of at most ten players, whose masks an owner has dealt. -/
theorem batch_correct (c : Config) {lens : ℕ} (hlens : 1 ≤ lens) {owner : Option ℕ}
    (howner : ∀ o ∈ owner, o < c.players_num) :
    (∀ (cf : Circuit) (hash : Hash) (d : BatchDraw) (holder : List Holder)
      (datas : ℕ → List (List Byte)) (x : ℕ → ℕ → Bool), cf.Topological →
      (∀ p < c.players_num, d.R p ≠ 0) → BatchAssigns c cf lens holder datas x →
      BatchCorrect c hash d owner cf lens holder datas x) ↔
    lens = 1 ∧ c.players_num ≤ 10 ∧ owner.isSome = true := by
  constructor
  · intro h
    have hone : lens = 1 := by
      by_contra hne
      have hwire := h wireCircuit (fun _ _ _ _ => 0) oneDraw [⟨0,0,1⟩] _ (fun k _ => k = 1)
        ⟨by decide,by decide,by decide⟩ (fun p _ => oneDraw_ne_zero p) (first_assigns c _ rfl lens _)
      obtain ⟨off, -, ⟨out, hrun, hout⟩, -⟩ := hwire
      have hsame := instances_shared rfl hrun c.pos (hout 0 c.pos) (by omega : 0 < lens)
        (by omega : 1 < lens)
      exact absurd hsame (by decide)
    subst hone
    exact ⟨rfl,not_correct_inv (h notCircuit (fun _ _ _ _ => 0) oneDraw [⟨0,0,1⟩] _ (fun _ _ => true)
      notCircuit_topological (fun p _ => oneDraw_ne_zero p) (first_assigns c _ rfl 1 _))⟩
  · rintro ⟨rfl, h10, hsome⟩ cf hash d holder datas x hcf hR hx
    obtain ⟨o, rfl⟩ := Option.isSome_iff_exists.mp hsome
    exact batchCorrect_one hcf (howner o rfl) h10 hR hx

theorem batch_correct_two : BatchCorrect twoPlayers (fun k l i j => k ^^^ l ^^^ i ^^^ j) oneDraw
    (some 0) andCircuit 1 andHolder (fun _ => [[1]]) fun _ _ => true :=
  (batch_correct twoPlayers le_rfl (by decide)).mpr ⟨rfl,by decide,rfl⟩ andCircuit _ oneDraw andHolder
    (fun _ => [[1]]) (fun _ _ => true) andCircuit_topological (fun p _ => oneDraw_ne_zero p)
    ⟨(and_assigns (by decide)).player,by decide,by decide,by decide⟩

/-- Two instances of one `NOT` gate: the second gets the output of the first as its input. -/
theorem batch_of_two_wrong : notCircuit.Topological ∧ (∀ p < 2, oneDraw.R p ≠ 0) ∧
    BatchAssigns twoPlayers notCircuit 2 [⟨0,0,1⟩] (fun _ => [[0],[0]]) (fun _ _ => false) ∧
    ¬BatchCorrect twoPlayers (fun _ _ _ _ => 0) oneDraw (some 0) notCircuit 2 [⟨0,0,1⟩]
      (fun _ => [[0],[0]]) fun _ _ => false := by
  refine ⟨notCircuit_topological,fun p _ => oneDraw_ne_zero p,
    first_assigns twoPlayers notCircuit rfl 2 fun _ _ => false,?_⟩
  rintro ⟨off, hoff, ⟨out, hout, heq⟩, -⟩
  have hrun : (do
      let off ← offlineBatch twoPlayers (fun _ _ _ _ => 0) oneDraw (some 0) notCircuit 2
      let out ← onlineBatch twoPlayers (fun _ _ _ _ => 0) oneDraw notCircuit 2 off [⟨0,0,1⟩]
        fun _ => [[0],[0]]
      return out 0) = .ok [[1],[0]] := by
    decide +kernel
  rw [hoff, ok_bind, hout, ok_bind] at hrun
  have h0 : out 0 = [[1],[0]] := Except.ok.inj hrun
  have h1 := heq 0 (by decide)
  rw [h0] at h1
  revert h1
  decide

end run

end OramPro.BMR
