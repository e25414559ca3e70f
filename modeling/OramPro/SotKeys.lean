import OramPro.SotAlign

/-!
# The transfer with its own keys

The two lists of a key pair of `SOT` agree away from the point. At the point they differ by a word that the draws
of the pair fix: `generateTreeEq` scales the bytes that the PRF yields at the last node, the lists hold multiples
of the seed of that node.
-/
namespace OramPro.SotKeys
open Csot (suc pre)

abbrev Party := Csot.Party

/-! ## The lists of a key pair -/

/-- `mpz_get_ui` of an entry of the list. An `mpz_class` starts with 0. -/
def entry (f : Fss) (k : ServerKeyEq) (lens i : ℕ) : BitVec 64 :=
  BitVec.ofNat 64 ((evaluateEqMpz f k lens).getD i 0)

/-- The difference of the lists at the point. -/
def gap (f : Fss) (a b : BitVec 64) (rop : ℕ) (r : RootDraw) (lv : ℕ → LevelDraw) : Word :=
  let st := path f.prg (pathBits f.numBits a) r lv (f.numBits-1)
  let w := (generateTreeEq f a b rop r lv).1.w
  BitVec.ofNat 32 (import16 st.key0*w%f.prime)-BitVec.ofNat 32 (import16 st.key1*w%f.prime)

section lists
variable {f : Fss} {a b : BitVec 64} {rop : ℕ} {r : RootDraw} {lv : ℕ → LevelDraw}

lemma entry_leaf (hn : 2 ≤ f.numBits) (h29 : f.numBits ≤ 29) (k : ServerKeyEq) {lens x : ℕ}
    (hl : lens ≤ 2^f.numBits) (hx : x < lens) : (entry f k lens x).setWidth 32 =
      BitVec.ofNat 32 (import16 (nodeAt f.prg k.toTreeKey (f.numBits-1) x).1*k.w%f.prime) := by
  have hR : 2^(f.numBits-1) ≤ arraySlots :=
    (Nat.pow_le_pow_right (by norm_num) (by omega : f.numBits-1 ≤ 28)).trans (by norm_num [arraySlots])
  have hlist : (evaluateEqMpz f k lens).getD x 0 =
      import16 (nodeAt f.prg k.toTreeKey (f.numBits-1) x).1*k.w%f.prime := by
    rw [evaluateEqMpz, evaluateEqScan_res hn hR (by omega) hl]
    simp [hx, leafAt]
  rw [entry, hlist, BitVec.setWidth_ofNat_of_le (by norm_num)]

/-- The lists of a pair differ by the gap at the point and agree elsewhere. -/
lemma entry_sub (hn : 2 ≤ f.numBits) (h29 : f.numBits ≤ 29) {lens x : ℕ} (hl : lens ≤ 2^f.numBits)
    (hx : x < lens) :
    (entry f (generateTreeEq f a b rop r lv).1 lens x).setWidth 32
        -(entry f (generateTreeEq f a b rop r lv).2 lens x).setWidth 32 =
      if x = a.toNat%2^f.numBits then gap f a b rop r lv else 0 := by
  have e0 : (generateTreeEq f a b rop r lv).1.toTreeKey = treeKey f.prg (pathBits f.numBits a) r lv false := rfl
  have e1 : (generateTreeEq f a b rop r lv).2.toTreeKey = treeKey f.prg (pathBits f.numBits a) r lv true := rfl
  have hw : (generateTreeEq f a b rop r lv).2.w = (generateTreeEq f a b rop r lv).1.w := rfl
  rw [entry_leaf hn h29 _ hl hx, entry_leaf hn h29 _ hl hx, e0, e1, hw, ← prefixOf_leaf (by omega) (by omega) a]
  split
  · next he =>
    rw [he, nodeAt_path, nodeAt_path]
    rfl
  · next hne =>
    have hlt : x < 2^(f.numBits-1+1) := by
      rw [Nat.sub_add_cancel (by omega)]
      omega
    rw [nodeAt_off_path f.prg _ r lv hlt hne, sub_self]

end lists

/-! ## Weighted transfers -/

/-- Replicated data, and keys of which both lists share a multiple of a point function. -/
structure Weighted (data_lens : Word) (data0 data1 : Party → ℕ → Word) (k : Sot.Keys) (times : ℕ)
    (g : Party → ℕ → Word) : Prop where
  pos : 0 < data_lens.toNat
  lt : data_lens.toNat < 2^16
  rep : ∀ j, ∀ i < data_lens.toNat, data1 (suc j) i = data0 (pre j) i
  point : ∀ j, ∀ t < times, (k.filis j t).toNat < data_lens.toNat
  lists : ∀ j, ∀ t < times, ∀ i < data_lens.toNat,
    (k.list0 j t i).setWidth 32-(k.list1 j t i).setWidth 32 = if i = (k.filis j t).toNat then g j t else 0

section weighted
variable {data_lens : Word} {data0 data1 : Party → ℕ → Word} {k : Sot.Keys} {times t : ℕ}
  {g : Party → ℕ → Word} {d : Party → Word} {x : ℕ}

/-- The lists of an owner pick a multiple of the entry out of the data that its neighbours share. -/
lemma Weighted.owner_sum (h : Weighted data_lens data0 data1 k times g) (ht : t < times) {j : Party}
    (hd : ((d j).toNat : ZMod data_lens.toNat) = (x : ℕ)-(k.filis j t).toNat) :
    (∑ i ∈ Finset.range data_lens.toNat,
        Sot.rotated data_lens (data1 (suc j)) (d j) i*(k.list0 j t i).setWidth 32)
        -∑ i ∈ Finset.range data_lens.toNat,
          Sot.rotated data_lens (data0 (pre j)) (d j) i*(k.list1 j t i).setWidth 32 =
      data0 (pre j) (x%data_lens.toNat)*g j t := by
  have hterm : ∀ i ∈ Finset.range data_lens.toNat,
      Sot.rotated data_lens (data1 (suc j)) (d j) i*(k.list0 j t i).setWidth 32
        -Sot.rotated data_lens (data0 (pre j)) (d j) i*(k.list1 j t i).setWidth 32 =
      if i = (k.filis j t).toNat then Sot.rotated data_lens (data0 (pre j)) (d j) i*g j t else 0 := by
    intro i hi
    have hrep : Sot.rotated data_lens (data1 (suc j)) (d j) i =
        Sot.rotated data_lens (data0 (pre j)) (d j) i := h.rep j _ (Nat.mod_lt _ h.pos)
    rw [hrep, ← mul_sub, h.lists j t ht i (Finset.mem_range.mp hi), mul_ite, mul_zero]
  have hplace : ((k.filis j t).toNat+(d j).toNat)%data_lens.toNat = x%data_lens.toNat := by
    rw [← ZMod.natCast_eq_natCast_iff', Nat.cast_add, hd]
    ring
  rw [← Finset.sum_sub_distrib, Finset.sum_congr rfl hterm, Finset.sum_ite_eq',
    if_pos (Finset.mem_range.mpr (h.point j t ht)), Sot.rotated, hplace]

lemma Weighted.total (h : Weighted data_lens data0 data1 k times g) (ht : t < times)
    (hd : ∀ j, ((d j).toNat : ZMod data_lens.toNat) = (x : ℕ)-(k.filis j t).toNat) :
    ∑ p, Sot.partSum data_lens data0 data1 k t d p = ∑ j, data0 (pre j) (x%data_lens.toNat)*g j t := by
  have h0 := h.owner_sum ht (hd 0)
  have h1 := h.owner_sum ht (hd 1)
  have h2 := h.owner_sum ht (hd 2)
  rw [Fin.sum_univ_three, Fin.sum_univ_three]
  simp only [Sot.partSum, Sot.Keys.sks, Sot.Keys.gks, suc, pre, Fin.isValue, Fin.reduceAdd, zero_add]
    at h0 h1 h2 ⊢
  linear_combination h0+h1+h2

variable (prf : Fin 3 → Block → Block)

lemma Weighted.single (h : Weighted data_lens data0 data1 k times g) (ht : t < times) {idex : Party → Word}
    (hidex : ∀ p, (idex p).toNat < data_lens.toNat) (members : Party → Sot.Deltas) :
    ∑ p, Sot.onlineParts prf data_lens data0 data1 k idex t members p =
      ∑ j, data0 (pre j) (Sot.index data_lens idex)*g j t := by
  have hopen := Sot.opened_cast prf h.pos h.lt hidex (fun p => h.point p t ht)
  have hpart : ∀ p, Sot.onlineParts prf data_lens data0 data1 k idex t members p =
      Sot.partSum data_lens data0 data1 k t (Sot.opened prf data_lens k idex t) p := by
    intro p
    rw [Sot.onlineParts, Sot.online_2, Sot.exchanged_delta _ _ _ _ _ _ _ _ (.inl rfl),
      Sot.exchanged_delta _ _ _ _ _ _ _ _ (.inr rfl)]
    exact Sot.single_sum h.lt (fun i => (hopen i).1) p
  simp only [hpart]
  exact h.total ht fun j => (hopen j).2

lemma Weighted.batch (h : Weighted data_lens data0 data1 k times g) (ht : t < times)
    {idex : Party → ℕ → Word} (hidex : ∀ p, (idex p t).toNat < data_lens.toNat)
    (stack : Party → ℕ → ℕ → Word) :
    ∑ p, Sot.batch prf data_lens data0 data1 k idex stack t p =
      ∑ j, data0 (pre j) (Sot.index data_lens fun p => idex p t)*g j t := by
  have hopen := Sot.opened_cast prf h.pos h.lt hidex (fun p => h.point p t ht)
  have hpart : ∀ p, Sot.batch prf data_lens data0 data1 k idex stack t p =
      Sot.partSum data_lens data0 data1 k t (Sot.opened prf data_lens k (fun p => idex p t) t) p :=
    fun p => Sot.batchSum_eq h.lt (Sot.batchRecv_delta prf data_lens k t idex stack p _ (.inl rfl))
      (Sot.batchRecv_delta prf data_lens k t idex stack p _ (.inr rfl)) fun i => (hopen i).1
  simp only [hpart]
  exact h.total ht fun j => (hopen j).2

end weighted

/-! ## After an offline phase -/

/-- The points and the lists that the players have in a state. -/
def keys (o : SotAlign.Object) (st : SotAlign.State) : Sot.Keys where
  filis p t := (st p).filis.getD t 0
  list0 j t := ((st (suc j)).sks[t]?).elim (fun _ => 0) fun k => entry o.myfss k o.data_lens.toNat
  list1 j t := ((st (pre j)).gks[t]?).elim (fun _ => 0) fun k => entry o.myfss k o.data_lens.toNat

def drawGap (o : SotAlign.Object) (d : SotAlign.Draw) : Word :=
  gap o.myfss ((d.point o).setWidth 64) 1 d.rop d.root d.lv

section run
variable {o : SotAlign.Object} {st : SotAlign.State} {c : SotAlign.Call}

lemma filis_run (hfit : SotAlign.Fits o st c) (j : Party) {t : ℕ} (ht : t < c.times) :
    (keys o (c.run o st)).filis j t = (c.draw j t).point o := by
  have hread := hfit j t ht
  simp only [keys, SotAlign.run_eq, List.getD_eq_getElem?_getD, hread, Option.getD_some]

lemma lists_run (j : Party) {t : ℕ} (ht : t < c.times) :
    (keys o (c.run o st)).list0 j t = entry o.myfss ((c.draw j t).keys o).1 o.data_lens.toNat ∧
      (keys o (c.run o st)).list1 j t = entry o.myfss ((c.draw j t).keys o).2 o.data_lens.toNat := by
  obtain ⟨h0, h1⟩ := SotAlign.halves_get o st j ht
  simp only [keys, h0, h1, Option.elim_some, and_self]

/-- The levels of the keys suffice for the points and fit in the buffer. -/
lemma levels (h3 : 3 ≤ o.data_lens.toNat) :
    2 ≤ o.myfss.numBits ∧ o.myfss.numBits ≤ 29 ∧ o.data_lens.toNat ≤ 2^o.myfss.numBits := by
  have hlt := o.lt
  obtain ⟨hle, -, hmin⟩ := logn_spec (by omega : o.data_lens.toNat ≤ 2^32)
  have hsmall : logn o.data_lens.toNat ≤ 16 := hmin 16 (by norm_num) hlt.le
  refine ⟨?_,hsmall.trans (by norm_num),hle⟩
  by_contra hn
  have hpow : 2^o.myfss.numBits ≤ 2^1 := Nat.pow_le_pow_right (by norm_num) (by omega)
  have hdata : o.data_lens.toNat ≤ 2^o.myfss.numBits := hle
  omega

lemma weighted_run (h3 : 3 ≤ o.data_lens.toNat) (hfit : SotAlign.Fits o st c) {data0 data1 : Party → ℕ → Word}
    (hrep : ∀ j, ∀ i < o.data_lens.toNat, data1 (suc j) i = data0 (pre j) i) :
    Weighted o.data_lens data0 data1 (keys o (c.run o st)) c.times fun j t => drawGap o (c.draw j t) where
  pos := o.pos
  lt := o.lt
  rep := hrep
  point j t ht := by
    rw [filis_run hfit j ht]
    exact SotAlign.point_lt o _
  lists j t ht i hi := by
    obtain ⟨h2, h29, hlen⟩ := levels h3
    have hpoint := SotAlign.point_lt o (c.draw j t)
    rw [filis_run hfit j ht, (lists_run j ht).1, (lists_run j ht).2, SotAlign.Draw.keys, entry_sub h2 h29 hlen hi,
      SotAlign.low_bits (hpoint.trans_le hlen)]
    rfl

end run

/-- After an offline phase whose points are read at their positions every form of the transfer opens the entry of
every owner's data times the gap of the owner's key. -/
theorem transfer_weighted (o : SotAlign.Object) (h3 : 3 ≤ o.data_lens.toNat) (st : SotAlign.State)
    (c : SotAlign.Call) (hfit : SotAlign.Fits o st c) (prf : Fin 3 → Block → Block)
    (data0 data1 : Party → ℕ → Word)
    (hrep : ∀ j, ∀ i < o.data_lens.toNat, data1 (suc j) i = data0 (pre j) i) :
    let k := keys o (c.run o st)
    let value := fun t x => ∑ j, data0 (pre j) x*drawGap o (c.draw j t)
    ∀ t < c.times,
      (∀ (idex : Party → Word) (stack members : Party → Sot.Deltas), (∀ p, (idex p).toNat < o.data_lens.toNat) →
        ∑ p, Sot.online prf o.data_lens data0 data1 k idex t stack p = value t (Sot.index o.data_lens idex) ∧
          ∑ p, Sot.onlineParts prf o.data_lens data0 data1 k idex t members p =
            value t (Sot.index o.data_lens idex)) ∧
      ∀ (idex : Party → ℕ → Word) (stack : Party → ℕ → ℕ → Word),
        (∀ p, (idex p t).toNat < o.data_lens.toNat) →
        ∑ p, Sot.batch prf o.data_lens data0 data1 k idex stack t p =
          value t (Sot.index o.data_lens fun p => idex p t) := by
  intro k value t ht
  have hkeys := weighted_run h3 hfit hrep
  exact ⟨fun idex stack members hidex => ⟨hkeys.single prf ht hidex stack,hkeys.single prf ht hidex members⟩,
    fun idex stack hidex => hkeys.batch prf ht hidex stack⟩

lemma three_pos : 0 < (3 : Word).toNat := by decide

lemma three_lt : (3 : Word).toNat < 2^16 := by decide

/-- Three entries and one key of every owner. -/
def threeObject : SotAlign.Object := { SotAlign.pairObject with data_lens := 3, pos := three_pos, lt := three_lt }

def onePoint : SotAlign.Call := ⟨.offline,1,fun _ _ => ⟨1,0,⟨0,1,0,0,0⟩,fun _ => ⟨0,0,0,0,0⟩⟩⟩

/-- The entry is 30 and every gap is 896738173. -/
theorem transfer_weighted_three : ∑ p, Sot.online (fun _ tmp => tmp) 3 Sot.twoEntries Sot.twoEntries1
    (keys threeObject (onePoint.run threeObject SotAlign.init)) (fun _ => 1) 0 (fun _ _ _ => 0) p = 1132341414 := by
  have hrep : ∀ j, ∀ i < threeObject.data_lens.toNat, Sot.twoEntries1 (suc j) i = Sot.twoEntries (pre j) i := by
    intro j i _
    fin_cases j <;> rfl
  have h := (transfer_weighted threeObject (by decide) SotAlign.init onePoint (SotAlign.fits_of_empty fun _ => rfl)
    (fun _ tmp => tmp) Sot.twoEntries Sot.twoEntries1 hrep 0 (by decide)).1 (fun _ => 1) (fun _ _ _ => 0)
    (fun _ _ _ => 0) (by decide)
  refine h.1.trans ?_
  decide +kernel

/-- A key transfers every entry of every data exactly when the three gaps are 1. -/
theorem every_entry_iff (o : SotAlign.Object) (h3 : 3 ≤ o.data_lens.toNat) (st : SotAlign.State)
    (c : SotAlign.Call) (hfit : SotAlign.Fits o st c) (prf : Fin 3 → Block → Block) {t : ℕ} (ht : t < c.times) :
    (∀ (data0 data1 : Party → ℕ → Word) (idex : Party → Word) (members : Party → Sot.Deltas),
      (∀ j, ∀ i < o.data_lens.toNat, data1 (suc j) i = data0 (pre j) i) →
      (∀ p, (idex p).toNat < o.data_lens.toNat) →
      ∑ p, Sot.onlineParts prf o.data_lens data0 data1 (keys o (c.run o st)) idex t members p =
        ∑ p, data0 p (Sot.index o.data_lens idex)) ↔ ∀ j, drawGap o (c.draw j t) = 1 := by
  constructor
  · intro h j
    -- the entries of one player alone
    let data0 : Party → ℕ → Word := fun p _ => if p = pre j then 1 else 0
    have hrep : ∀ j, ∀ i < o.data_lens.toNat, data0 (pre (pre (suc j))) i = data0 (pre j) i := by
      intro j i _
      have hj : pre (pre (suc j)) = pre j := by fin_cases j <;> rfl
      rw [hj]
    have hkeys : Weighted o.data_lens data0 (fun p => data0 (pre (pre p))) (keys o (c.run o st)) c.times
        fun j t => drawGap o (c.draw j t) := weighted_run h3 hfit hrep
    have hzero : ∀ p, ((fun _ => 0 : Party → Word) p).toNat < o.data_lens.toNat := fun _ => o.pos
    have hopen := h data0 (fun p => data0 (pre (pre p))) (fun _ => 0) (fun _ _ _ => 0) hrep hzero
    rw [hkeys.single prf ht hzero, Fin.sum_univ_three, Fin.sum_univ_three] at hopen
    fin_cases j <;> simpa [data0, pre] using hopen
  · intro h data0 data1 idex members hrep hidex
    rw [(weighted_run h3 hfit hrep).single prf ht hidex]
    simp only [h, mul_one]
    rw [Fin.sum_univ_three, Fin.sum_univ_three]
    simp only [pre, Fin.isValue, Fin.reduceAdd, zero_add]
    ring

end OramPro.SotKeys
