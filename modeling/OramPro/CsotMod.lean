import OramPro.Csot

/-!
# Selection modulo a number of entries

With `mod` the masked blocks are residues, and every bit share is reduced on its own. Where two bit
shares wrap around `2^32`, the reduced shares no longer add up to the bit.
-/
namespace OramPro.Csot
open ThrPcIc

section residues
variable {mod : Word}

lemma cast_umod (x : Word) : ((x%mod).toNat : ZMod mod.toNat) = (x.toNat : ZMod mod.toNat) := by
  rw [BitVec.toNat_umod, ZMod.natCast_mod]

lemma umod_lt (h0 : 0 < mod.toNat) (x : Word) : (x%mod).toNat < mod.toNat := by
  rw [BitVec.toNat_umod]
  exact Nat.mod_lt _ h0

lemma toNat_add_sub {x y : Word} (hmod : mod.toNat < 2^16) (hx : x.toNat < 2^17) (hy : y.toNat ≤ mod.toNat) :
    (x+mod-y).toNat = x.toNat+mod.toNat-y.toNat := by
  bv_omega

lemma cast_add_sub {x y : Word} (hmod : mod.toNat < 2^16) (hx : x.toNat < 2^17) (hy : y.toNat ≤ mod.toNat) :
    ((x+mod-y).toNat : ZMod mod.toNat) = (x.toNat : ZMod mod.toNat)-(y.toNat : ZMod mod.toNat) := by
  rw [toNat_add_sub hmod hx hy, Nat.cast_sub (by omega), Nat.cast_add, ZMod.natCast_self, add_zero]

lemma toNat_mul_residues {x y : Word} (hmod : mod.toNat < 2^16) (hx : x.toNat < mod.toNat)
    (hy : y.toNat < mod.toNat) :
    (x*y).toNat = x.toNat*y.toNat ∧ x.toNat*y.toNat ≤ (2^16-1)*(2^16-1) := by
  have hle : x.toNat*y.toNat ≤ (2^16-1)*(2^16-1) := Nat.mul_le_mul (by omega) (by omega)
  refine ⟨?_,hle⟩
  rw [BitVec.toNat_mul, Nat.mod_eq_of_lt (by omega)]

end residues

/-! ## The result as a residue -/

section combine
variable {mod : Word} {blocks : Party → Bool → Word} {beta : Bool → Word} {p : Party}

lemma selectStep_cast (hmod : mod.toNat < 2^16) (h0 : 0 < mod.toNat)
    (hb : ∀ p i, (blocks p i).toNat < mod.toNat) {res : Word} (hres : res.toNat < mod.toNat) (q k : Bool) :
    let block := blocks (if q then suc p else p) k
    (selectStep mod blocks beta p res (q,k)).toNat < mod.toNat ∧
      ((selectStep mod blocks beta p res (q,k)).toNat : ZMod mod.toNat) =
        res.toNat+(if k then -1 else 1)*(block.toNat*(beta (!q)).toNat) := by
  intro block
  have hne : mod ≠ 0 := by
    rintro rfl
    exact lt_irrefl 0 h0
  have hblock : block.toNat < mod.toNat := hb _ _
  have hbeta := umod_lt h0 (beta (!q))
  obtain ⟨hmul, hle⟩ := toNat_mul_residues hmod hblock hbeta
  rw [selectStep, if_pos hne]
  cases k
  · have hadd : (res+block*(beta (!q)%mod)).toNat = res.toNat+block.toNat*(beta (!q)%mod).toNat := by
      rw [BitVec.toNat_add, hmul, Nat.mod_eq_of_lt (by omega)]
    refine ⟨umod_lt h0 _,?_⟩
    simp only [Bool.false_eq_true, if_false]
    rw [cast_umod, hadd, Nat.cast_add, Nat.cast_mul, cast_umod]
    ring
  · refine ⟨umod_lt h0 _,?_⟩
    simp only [if_true]
    rw [cast_umod, cast_add_sub hmod (by omega) (umod_lt h0 _).le, cast_umod, hmul, Nat.cast_mul, cast_umod]
    ring

lemma combine_cast (beta : Bool → Word) (p : Party) (hmod : mod.toNat < 2^16) (h0 : 0 < mod.toNat)
    (hb : ∀ p i, (blocks p i).toNat < mod.toNat) :
    ((combine mod blocks beta p).toNat : ZMod mod.toNat) =
      (blocks p true).toNat
        +((blocks p false).toNat-(blocks p true).toNat)*(beta true).toNat
        +((blocks (suc p) false).toNat-(blocks (suc p) true).toNat)*(beta false).toNat := by
  obtain ⟨h1, e1⟩ := selectStep_cast (p := p) hmod h0 hb (hb p true) false false
  obtain ⟨h2, e2⟩ := selectStep_cast (p := p) hmod h0 hb h1 false true
  obtain ⟨h3, e3⟩ := selectStep_cast (p := p) hmod h0 hb h2 true false
  obtain ⟨-, e4⟩ := selectStep_cast (p := p) hmod h0 hb h3 true true
  refine e4.trans ?_
  rw [e3, e2, e1]
  simp only [Bool.not_false, Bool.not_true, Bool.false_eq_true, if_false, if_true]
  ring

end combine

/-! ## Selection -/

section select
variable {prf : Fin 3 → Block → Block} {s : Setup} {block m : Party → Bool → Word} {sid mod : Word}

/-- The share of the gate of `o` at player `p`. -/
def share (prf : Fin 3 → Block → Block) (s : Setup) (m : Party → Bool → Word) (sid : Word)
    (p o : Party) : Word :=
  gate s p o (opened prf s m sid o)

def carry (prf : Fin 3 → Block → Block) (s : Setup) (m : Party → Bool → Word) (sid : Word)
    (o : Party) : ℕ :=
  ((share prf s m sid (suc o) o).toNat+(share prf s m sid (pre o) o).toNat)/2^32

def selectedMod (block m : Party → Bool → Word) : ℕ :=
  if (difference m).toNat < 2^31 then ∑ p, (block p false).toNat else ∑ p, (block p true).toNat

lemma share_toNat (hgate : ∀ o, share prf s m sid (suc o) o+share prf s m sid (pre o) o =
      bit ((difference m).toNat < 2^31)) (o : Party) :
    (share prf s m sid (suc o) o).toNat+(share prf s m sid (pre o) o).toNat =
      (if (difference m).toNat < 2^31 then 1 else 0)+2^32*carry prf s m sid o := by
  have hmod := congrArg BitVec.toNat (hgate o)
  have hbit : (bit ((difference m).toNat < 2^31)).toNat =
      if (difference m).toNat < 2^31 then 1 else 0 := by
    rw [bit]
    split <;> rfl
  rw [BitVec.toNat_add, hbit] at hmod
  rw [← hmod, carry]
  exact (Nat.mod_add_div _ _).symm

/-- A masked block is a residue, and its masks cancel in the sum. -/
lemma maskedBlock_cast (hmod : mod.toNat < 2^16) (h0 : 0 < mod.toNat)
    (hblock : ∀ p i, (block p i).toNat < mod.toNat) (p : Party) (i : Bool) :
    (maskedBlock prf block sid mod p i).toNat < mod.toNat ∧
      ((maskedBlock prf block sid mod p i).toNat : ZMod mod.toNat) =
        (block p i).toNat+(mask prf (w0 p (input sid i.toNat))).toNat
          -(mask prf (w1 p (input sid i.toNat))).toNat := by
  have hne : mod ≠ 0 := by
    rintro rfl
    exact lt_irrefl 0 h0
  have ha := umod_lt h0 (mask prf (w0 p (input sid i.toNat)))
  have hb := umod_lt h0 (mask prf (w1 p (input sid i.toNat)))
  have hp := hblock p i
  have hadd : (block p i+mask prf (w0 p (input sid i.toNat))%mod).toNat =
      (block p i).toNat+(mask prf (w0 p (input sid i.toNat))%mod).toNat := by
    rw [BitVec.toNat_add, Nat.mod_eq_of_lt (by omega)]
  rw [maskedBlock, blockShare]
  simp only [if_pos hne]
  refine ⟨umod_lt h0 _,?_⟩
  rw [cast_umod, cast_add_sub hmod (by omega) hb.le, hadd, Nat.cast_add, cast_umod, cast_umod]

lemma maskedBlock_total (hmod : mod.toNat < 2^16) (h0 : 0 < mod.toNat)
    (hblock : ∀ p i, (block p i).toNat < mod.toNat) (i : Bool) :
    ((∑ p, (maskedBlock prf block sid mod p i).toNat : ℕ) : ZMod mod.toNat) =
      (∑ p, (block p i).toNat : ℕ) := by
  rw [Fin.sum_univ_three, Fin.sum_univ_three]
  push_cast
  rw [(maskedBlock_cast hmod h0 hblock 0 i).2, (maskedBlock_cast hmod h0 hblock 1 i).2,
    (maskedBlock_cast hmod h0 hblock 2 i).2]
  simp only [w0, w1, Fin.isValue, Fin.reduceAdd]
  ring

/-- The difference of the masked blocks of a player, once for every gate of its successor whose
shares wrap around. -/
def overshoot (prf : Fin 3 → Block → Block) (s : Setup) (block m : Party → Bool → Word) (sid mod : Word) : ℤ :=
  2^32*∑ p, (carry prf s m sid (suc p) : ℤ)*
    ((maskedBlock prf block sid mod p false).toNat-(maskedBlock prf block sid mod p true).toNat)

lemma onlineParts_total (hmod : mod.toNat < 2^16) (h0 : 0 < mod.toNat)
    (hblock : ∀ p i, (block p i).toNat < mod.toNat)
    (hgate : ∀ o, share prf s m sid (suc o) o+share prf s m sid (pre o) o =
      bit ((difference m).toNat < 2^31)) (members : Party → Local) :
    ((∑ p, (onlineParts prf s block m sid mod members p).toNat : ℕ) : ZMod mod.toNat) =
      (selectedMod block m : ℕ)+(overshoot prf s block m sid mod : ℤ) := by
  have hb : ∀ p i, (maskedBlock prf block sid mod p i).toNat < mod.toNat :=
    fun p i => (maskedBlock_cast hmod h0 hblock p i).1
  have hres := fun p => combine_cast (fun b => if b then share prf s m sid p (suc p)
    else share prf s m sid p (pre p)) p hmod h0 hb
  have hparts : ∀ p, onlineParts prf s block m sid mod members p = combine mod (maskedBlock prf block sid mod)
      (fun b => if b then share prf s m sid p (suc p) else share prf s m sid p (pre p)) p :=
    fun p => onlineParts_eq prf s block m sid mod members p
  obtain ⟨b, hbit, hselect⟩ : ∃ b : ℕ, (if (difference m).toNat < 2^31 then 1 else 0) = b ∧
      (selectedMod block m : ZMod mod.toNat) =
        (∑ p, (maskedBlock prf block sid mod p true).toNat : ℕ)
          +b*((∑ p, (maskedBlock prf block sid mod p false).toNat : ℕ)
            -(∑ p, (maskedBlock prf block sid mod p true).toNat : ℕ)) := by
    refine ⟨_,rfl,?_⟩
    rw [maskedBlock_total hmod h0 hblock, maskedBlock_total hmod h0 hblock, selectedMod]
    split
    · rw [Nat.cast_one]
      ring
    · rw [Nat.cast_zero]
      ring
  have hcast := fun o => congrArg (Nat.cast : ℕ → ZMod mod.toNat) (share_toNat hgate o)
  simp only [hbit] at hcast
  have h1 := hcast 0
  have h2 := hcast 1
  have h3 := hcast 2
  rw [hselect, overshoot]
  simp only [hparts, Fin.sum_univ_three]
  push_cast
  rw [hres, hres, hres]
  simp only [suc, pre, Fin.isValue, Fin.reduceAdd, zero_add, Bool.false_eq_true, if_false, if_true] at h1 h2 h3 ⊢
  push_cast at h1 h2 h3
  generalize maskedBlock prf block sid mod = B at *
  linear_combination ((B 2 false).toNat-(B 2 true).toNat)*h1
    +((B 0 false).toNat-(B 0 true).toNat)*h2+((B 1 false).toNat-(B 1 true).toNat)*h3

lemma total_iff (hmod : mod.toNat < 2^16) (h0 : 0 < mod.toNat)
    (hblock : ∀ p i, (block p i).toNat < mod.toNat)
    (hgate : ∀ o, share prf s m sid (suc o) o+share prf s m sid (pre o) o =
      bit ((difference m).toNat < 2^31)) (members : Party → Local) :
    (∑ p, (onlineParts prf s block m sid mod members p).toNat)%mod.toNat =
        selectedMod block m%mod.toNat ↔
      (mod.toNat : ℤ) ∣ overshoot prf s block m sid mod := by
  rw [← ZMod.natCast_eq_natCast_iff', onlineParts_total hmod h0 hblock hgate, add_eq_left,
    ZMod.intCast_zmod_eq_zero_iff_dvd]

end select

/-- Modulo `N` the protocol selects exactly when what the wrap-arounds of the bit shares add is a
multiple of `N`. -/
theorem select_mod_iff (prf : Fin 3 → Block → Block) (s : Setup) (block m : Party → Bool → Word)
    (sid mod : Word) (members : Party → Local) (h2 : 2 ≤ mod.toNat) (hmod : mod.toNat < 2^16)
    (hblock : ∀ p i, (block p i).toNat < mod.toNat)
    (hgate : ∀ o, share prf s m sid (suc o) o+share prf s m sid (pre o) o =
      bit ((difference m).toNat < 2^31)) :
    (∑ p, (onlineParts prf s block m sid mod members p).toNat)%mod.toNat =
        selectedMod block m%mod.toNat ↔
      (mod.toNat : ℤ) ∣ overshoot prf s block m sid mod :=
  total_iff hmod (by omega) hblock hgate members

section examples
variable {z0 : Word}

lemma gates_ten (o : Party) :
    share (fun _ _ => 0) (zeroKeys 5 z0) (byFirst 0 10) 0 (suc o) o
        +share (fun _ _ => 0) (zeroKeys 5 z0) (byFirst 0 10) 0 (pre o) o =
      bit ((difference (byFirst 0 10)).toNat < 2^31) :=
  (gate_bit (fun _ => rfl) o).trans (bit_congr (by decide))

end examples

/-- Modulo a power of two every wrap-around vanishes. -/
theorem select_mod_two :
    (∀ p i, (byFirst 1 0 p i).toNat < (2 : Word).toNat) ∧
      (∑ p, (onlineParts (fun _ _ => 0) (zeroKeys 5 2) (byFirst 1 0) (byFirst 0 10) 0 2
        (fun _ => noArrays) p).toNat)%(2 : Word).toNat =
          selectedMod (byFirst 1 0) (byFirst 0 10)%(2 : Word).toNat := by
  have hblock : ∀ p i, (byFirst 1 0 p i).toNat < (2 : Word).toNat := by decide
  refine ⟨hblock,(select_mod_iff (fun _ _ => 0) (zeroKeys 5 2) (byFirst 1 0) (byFirst 0 10) 0 2
    (fun _ => noArrays) (by decide) (by decide) hblock gates_ten).mpr ?_⟩
  exact Dvd.dvd.mul_right (by decide) _

/-- The shares 2 and -1 of the bit 1: modulo 3 they are 2 and 0. -/
theorem select_mod_three_wrong :
    (∀ o, share (fun _ _ => 0) (zeroKeys 5 2) (byFirst 0 10) 0 (suc o) o
        +share (fun _ _ => 0) (zeroKeys 5 2) (byFirst 0 10) 0 (pre o) o =
      bit ((difference (byFirst 0 10)).toNat < 2^31)) ∧
    (∑ p, (onlineParts (fun _ _ => 0) (zeroKeys 5 2) (byFirst 1 0) (byFirst 0 10) 0 3
        (fun _ => noArrays) p).toNat)%(3 : Word).toNat ≠
      selectedMod (byFirst 1 0) (byFirst 0 10)%(3 : Word).toNat := by
  refine ⟨gates_ten,?_⟩
  decide +kernel

end OramPro.Csot
