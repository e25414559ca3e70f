import OramPro.ThrPcIc
import OramPro.ThreeParty

/-!
# Selection by comparison

`CSOT` with `T = R = uint32_t` and `L = 32`. Every player owns one interval gate; the other two
evaluate it on its masked difference and multiply the bit shares with the masked blocks.
-/
namespace OramPro.Csot
open ThrPcIc

abbrev Party := Fin 3

def suc (p : Party) : Party := p+1
def pre (p : Party) : Party := p+2

/-! ## Masks -/

/-- A use of the keys `n_0`, `n_1`, `n_2`: key `k` belongs to player `k` and its successor. -/
abbrev Draw := Fin 3 × Block

/-- The block `tmp`: the session number and one byte for the index. -/
def input (sid : Word) (i : ℕ) : Block := sid.setWidth 128|||((BitVec.ofNat 8 i).setWidth 128)<<<32

/-- The keys of the two masks `w0` and `w1` at a player. -/
def w0 (p : Party) (tmp : Block) : Draw := (p,tmp)
def w1 (p : Party) (tmp : Block) : Draw := (p+2,tmp)

structure Masked where
  draws : List Draw
  word : Word

section online
variable (prf : Fin 3 → Block → Block)

def mask (d : Draw) : Word := (prf d.1 d.2).setWidth 32

/-- `deltas[i][p]`. -/
def deltaShare (m : Bool → Word) (rou sid : Word) (p i : Party) : Masked :=
  let a := w0 p (input sid i)
  let b := w1 p (input sid i)
  let delta := m true-m false-mask prf a+mask prf b
  ⟨[a,b],if i = p then delta+rou else delta⟩

/-- `blocks[p][i]`. -/
def blockShare (block : Bool → Word) (sid mod : Word) (p : Party) (i : Bool) : Masked :=
  let a := w0 p (input sid i.toNat)
  let b := w1 p (input sid i.toNat)
  ⟨[a,b],if mod ≠ 0 then (block i+mask prf a%mod+mod-mask prf b%mod)%mod
    else block i+mask prf a-mask prf b⟩

/-! ## Messages -/

structure Local where
  deltas : Party → Party → Word
  blocks : Party → Bool → Word

def Local.setDelta (st : Local) (i j : Party) (v : Word) : Local :=
  { st with deltas := Function.update st.deltas i (Function.update (st.deltas i) j v) }

def toPre (st : Local) (p : Party) : Word × Word × (Bool → Word) :=
  (st.deltas p p,st.deltas (suc p) p,st.blocks p)

def toSuc (st : Local) (p : Party) : Word × Word := (st.deltas p p,st.deltas (pre p) p)

/-- What the predecessor's and the successor's messages overwrite. -/
def recv (st : Local) (p : Party) (fromSuc : Word × Word × (Bool → Word)) (fromPre : Word × Word) : Local :=
  let st := (st.setDelta (suc p) (suc p) fromSuc.1).setDelta (pre p) (suc p) fromSuc.2.1
  let st := { st with blocks := Function.update st.blocks (suc p) fromSuc.2.2 }
  (st.setDelta (pre p) (pre p) fromPre.1).setDelta (suc p) (pre p) fromPre.2

/-! ## Offline -/

/-- `tao`; the shift binds weaker than the subtractions. -/
def tao (L : ℕ) : Word := 1<<<(L-1-1)

/-- The modulus of the gates, `(uint32_t)1 << L`, taken as 0. -/
def fullWidth : Word := 0

/-- What the owners draw in `offline`, with their access structures. -/
structure Setup where
  f : Party → Fss
  rou : Party → Word
  draw : Party → IcDraw

/-- The keys of the gate of `o`. -/
def icKeys (s : Setup) (o : Party) : IcKey × IcKey :=
  twopc_ic_off (s.f o) 0 (tao 32) fullWidth (s.rou o) (s.draw o)

/-- `ic[o]->twopc_ic` at player `p`. -/
def gate (s : Setup) (p o : Party) (R : Word) : Word :=
  if p = suc o then twopc_ic (s.f o) 0 (tao 32) fullWidth false (icKeys s o).1 R
  else twopc_ic (s.f o) 0 (tao 32) fullWidth true (icKeys s o).2 R

/-! ## Online -/

def selectStep (mod : Word) (blocks : Party → Bool → Word) (beta : Bool → Word) (p : Party) (res : Word)
    (qk : Bool × Bool) : Word :=
  let block := blocks (if qk.1 then suc p else p) qk.2
  let b := beta (!qk.1)
  if mod ≠ 0 then
    if qk.2 then (res+mod-block*(b%mod)%mod)%mod else (res+block*(b%mod))%mod
  else res+(if qk.2 then -1 else 1)*block*b

def combine (mod : Word) (blocks : Party → Bool → Word) (beta : Bool → Word) (p : Party) : Word :=
  [(false,false),(false,true),(true,false),(true,true)].foldl (selectStep mod blocks beta p) (blocks p true)

/-- `online_1` at a player. -/
def online_1 (s : Setup) (block m : Bool → Word) (sid mod : Word) (st : Local) (p : Party) : Local where
  deltas i := Function.update (st.deltas i) p (deltaShare prf m (s.rou p) sid p i).word
  blocks := Function.update st.blocks p fun i => (blockShare prf block sid mod p i).word

def delta (st : Local) (i : Party) : Word := st.deltas i 0+st.deltas i 1+st.deltas i 2

/-- `online_2` at a player after the messages. -/
def online_2 (s : Setup) (mod : Word) (st : Local) (p : Party) : Word :=
  let beta := fun b => if b then gate s p (suc p) (delta st (suc p)) else gate s p (pre p) (delta st (pre p))
  combine mod st.blocks beta p

variable (s : Setup) (block m : Party → Bool → Word) (sid mod : Word)

/-- The arrays of a player after `online_1` of all players and their messages. -/
def exchanged (st : Party → Local) (p : Party) : Local :=
  let st := fun p => online_1 prf s (block p) (m p) sid mod (st p) p
  recv (st p) p (toPre (st (suc p)) (suc p)) (toSuc (st (pre p)) (pre p))

/-- `online_2` after `online_1`, on the members of the objects. -/
def onlineParts (members : Party → Local) (p : Party) : Word :=
  online_2 s mod (exchanged prf s block m sid mod members p) p

/-- `online`, the same steps on arrays of the call itself. -/
def online (stack : Party → Local) (p : Party) : Word :=
  online_2 s mod (exchanged prf s block m sid mod stack p) p

end online

/-! ## The exchange -/

section exchange
variable (prf : Fin 3 → Block → Block) (s : Setup) (block m : Party → Bool → Word) (sid mod : Word)
  (st : Party → Local)

/-- The masked difference of the gate of `i`. -/
def opened (i : Party) : Word :=
  ∑ j, (deltaShare prf (m j) (s.rou j) sid j i).word

def maskedBlock (p : Party) (i : Bool) : Word := (blockShare prf (block p) sid mod p i).word

lemma exchanged_delta (p i : Party) (hi : i = suc p ∨ i = pre p) :
    delta (exchanged prf s block m sid mod st p) i = opened prf s m sid i := by
  rw [opened, Fin.sum_univ_three]
  rcases hi with rfl | rfl <;> fin_cases p <;>
    simp [delta, exchanged, recv, Local.setDelta, toPre, toSuc, online_1, suc, pre]

lemma exchanged_blocks (p : Party) :
    (exchanged prf s block m sid mod st p).blocks p = maskedBlock prf block sid mod p ∧
      (exchanged prf s block m sid mod st p).blocks (suc p) = maskedBlock prf block sid mod (suc p) := by
  fin_cases p <;>
    exact ⟨rfl,rfl⟩

/-- The masks cancel in the sum over the players. -/
lemma opened_eq (i : Party) :
    opened prf s m sid i = (∑ p, m p true)-(∑ p, m p false)+s.rou i := by
  rw [opened, Fin.sum_univ_three, Fin.sum_univ_three, Fin.sum_univ_three]
  fin_cases i <;> simp [deltaShare, w0, w1] <;> ring

lemma maskedBlock_sum (i : Bool) :
    ∑ p, maskedBlock prf block sid 0 p i = ∑ p, block p i := by
  rw [Fin.sum_univ_three, Fin.sum_univ_three]
  simp [maskedBlock, blockShare, w0, w1]
  ring

lemma onlineParts_eq (p : Party) :
    onlineParts prf s block m sid mod st p =
      combine mod (maskedBlock prf block sid mod)
        (fun b => if b then gate s p (suc p) (opened prf s m sid (suc p))
          else gate s p (pre p) (opened prf s m sid (pre p))) p := by
  obtain ⟨hown, hnext⟩ := exchanged_blocks prf s block m sid mod st p
  rw [onlineParts, online_2, exchanged_delta _ _ _ _ _ _ _ _ _ (.inl rfl),
    exchanged_delta _ _ _ _ _ _ _ _ _ (.inr rfl), combine, combine]
  simp only [List.foldl_cons, List.foldl_nil, selectStep, hown, hnext, Bool.false_eq_true, if_false, if_true]

end exchange

/-! ## Selection of words -/

section select
variable {prf : Fin 3 → Block → Block} {s : Setup} {block m : Party → Bool → Word} {sid : Word}

def difference (m : Party → Bool → Word) : Word := (∑ p, m p true)-∑ p, m p false

/-- What the comparison should select. -/
def selected (block m : Party → Bool → Word) : Word :=
  if (difference m).toNat < 2^31 then ∑ p, block p false else ∑ p, block p true

lemma combine_sum {blocks : Party → Bool → Word} {g : Party → Party → Word} {b : Word}
    (hg : ∀ o, g (suc o) o+g (pre o) o = b) :
    ∑ p, combine 0 blocks (fun c => if c then g p (suc p) else g p (pre p)) p =
      (∑ p, blocks p true)+b*((∑ p, blocks p false)-∑ p, blocks p true) := by
  have h0 : g 1 0+g 2 0 = b := hg 0
  have h1 : g 2 1+g 0 1 = b := hg 1
  have h2 : g 0 2+g 1 2 = b := hg 2
  rw [Fin.sum_univ_three, Fin.sum_univ_three, Fin.sum_univ_three]
  simp only [combine, List.foldl_cons, List.foldl_nil, selectStep, ne_eq, not_true_eq_false, if_false,
    if_true, Bool.false_eq_true, Bool.not_false, Bool.not_true, suc, pre]
  simp only [Fin.isValue, Fin.reduceAdd]
  linear_combination (blocks 2 false-blocks 2 true)*h0+(blocks 0 false-blocks 0 true)*h1
    +(blocks 1 false-blocks 1 true)*h2

/-- The two shares of a gate add up to the bit of the interval. -/
lemma gate_bit (hn : ∀ o, (s.f o).numBits = 32) (o : Party) :
    gate s (suc o) o (opened prf s m sid o)+gate s (pre o) o (opened prf s m sid o) =
      bit (difference m ≤ tao 32) := by
  have hne : ¬pre o = suc o := by fin_cases o <;> decide
  have hopen : opened prf s m sid o = difference m+s.rou o := opened_eq prf s m sid o
  rw [gate, gate, if_pos rfl, if_neg hne, hopen]
  exact gate_sum (hn o) (s.rou o) (difference m) (s.draw o)

lemma onlineParts_sum (hn : ∀ o, (s.f o).numBits = 32) (st : Party → Local) :
    ∑ p, onlineParts prf s block m sid 0 st p =
      if difference m ≤ tao 32 then ∑ p, block p false else ∑ p, block p true := by
  have hsum := @combine_sum (maskedBlock prf block sid 0)
    (fun p o => gate s p o (opened prf s m sid o)) _ (gate_bit hn)
  simp only [onlineParts_eq]
  rw [hsum, maskedBlock_sum, maskedBlock_sum, bit]
  split
  · ring
  · ring

/-- Both forms of the protocol select exactly when the difference is not between `2^30` and `2^31`,
or the blocks are equal. -/
theorem select_iff (prf : Fin 3 → Block → Block) (s : Setup) (block m : Party → Bool → Word) (sid : Word)
    (stack members : Party → Local) (hn : ∀ o, (s.f o).numBits = 32) :
    (∑ p, online prf s block m sid 0 stack p = selected block m ∧
        ∑ p, onlineParts prf s block m sid 0 members p = selected block m) ↔
      (¬(2^30 < (difference m).toNat ∧ (difference m).toNat < 2^31) ∨
        ∑ p, block p false = ∑ p, block p true) := by
  have hforms : ∑ p, online prf s block m sid 0 stack p =
      ∑ p, onlineParts prf s block m sid 0 stack p := rfl
  have htao : difference m ≤ tao 32 ↔ (difference m).toNat ≤ 2^30 := Iff.rfl
  rw [hforms, onlineParts_sum hn, onlineParts_sum hn, and_self, selected]
  simp only [htao]
  by_cases hle : (difference m).toNat ≤ 2^30
  · rw [if_pos hle, if_pos (by omega)]
    exact ⟨fun _ => .inl (by omega),fun _ => rfl⟩
  · rw [if_neg hle]
    by_cases hlt : (difference m).toNat < 2^31
    · rw [if_pos hlt]
      constructor
      · exact fun h => .inr h.symm
      · rintro (h | h)
        · omega
        · exact h.symm
    · rw [if_neg hlt]
      exact ⟨fun _ => .inl (by omega),fun _ => rfl⟩

end select

/-! ### Keys drawn as zeros -/

def zeroKeys (rou z0 : Word) : Setup where
  f _ := ⟨fun _ _ => 0,32,0⟩
  rou _ := rou
  draw _ := ⟨⟨⟨0,0,0,0,0⟩,fun _ => ⟨0,0,0,0,0⟩,⟨0,0⟩,fun _ => ⟨0,0⟩⟩,z0⟩

/-- `a` for index 0 and `b` for index 1, held by the first player. -/
def byFirst (a b : Word) (p : Party) (i : Bool) : Word := if p = 0 then (if i then b else a) else 0

def noArrays : Local := ⟨fun _ _ => 0,fun _ _ => 0⟩

theorem select_ten :
    (∀ o, ((zeroKeys 5 0).f o).numBits = 32) ∧
      ∑ p, online (fun _ _ => 0) (zeroKeys 5 0) (byFirst 120 1333) (byFirst 0 10) 0 0 (fun _ => noArrays) p =
        selected (byFirst 120 1333) (byFirst 0 10) :=
  ⟨fun _ => rfl,((select_iff (fun _ _ => 0) (zeroKeys 5 0) (byFirst 120 1333) (byFirst 0 10) 0 (fun _ => noArrays)
    (fun _ => noArrays) fun _ => rfl).mpr (.inl (by decide))).1⟩

/-- The difference `2^30+1` selects block 1. -/
theorem select_wrong :
    ∑ p, online (fun _ _ => 0) (zeroKeys 5 0) (byFirst 120 1333) (byFirst 0 (2^30+1)) 0 0
        (fun _ => noArrays) p ≠ selected (byFirst 120 1333) (byFirst 0 (2^30+1)) := by
  intro h
  have hparts : ∑ p, onlineParts (fun _ _ => 0) (zeroKeys 5 0) (byFirst 120 1333) (byFirst 0 (2^30+1)) 0 0
      (fun _ => noArrays) p = _ := h
  rw [onlineParts_sum fun _ => rfl] at hparts
  revert hparts
  decide

end OramPro.Csot
