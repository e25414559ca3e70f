import OramPro.NetShare
import OramPro.SignCompare

/-!
# The batch version of the comparison

`Sign::online` of `sign.h` for a batch. All lists lie in one buffer, the `u` of all values before the
`v`; player 1 fills its buffer, player 2 sends its own as `malloc` gave it, and a prefix is revealed.
-/
namespace OramPro.SignBatch
open SignCompare (u_j v_j check_list mod67)
open NetShare (Vectors RevealCt)

abbrev Byte := BitVec 8
abbrev Party := Fin 3

local instance neZeroParties : NeZero 3 := ⟨by decide⟩

section program
variable {w : ℕ}

/-- `u_j[i].rb[j]` for lists of `w+1` entries. -/
def entry (w : ℕ) (buffer : ℕ → Byte) (i j : ℕ) : Byte := buffer (i*(w+1)+j)

/-- The bytes that `RevealCt` is called with; `sizeof(T)` is `w/8`. -/
def revealed (w batch : ℕ) : ℕ := 2*batch*(6*(w/8)+1)

variable (s : ℕ → SignCompare.Input w) (batch : ℕ)

/-- The buffer of player 1 after its loops. -/
def filled (buffer : ℕ → Byte) (k : ℕ) : Byte :=
  let i := k/(w+1)
  let j := k%(w+1)
  if i < batch then u_j true (s i).m_sigmas ((s i).rls true) (s i).delta (s i).w_j j
  else if i < 2*batch then
    let i := i-batch
    v_j true (s i).m_sigmas ((s i).rls true) (s i).w_j (s i).w_j_p j
  else buffer k

variable (net : Vectors) (buffer : Party → ℕ → Byte)

/-- `u_j` of player 0 when it calls `check_list`. -/
def opened : ℕ → Byte :=
  RevealCt net 67 (fun p => if p = 1 then filled s batch (buffer 1) else buffer p) (revealed w batch) 0

def u (i j : ℕ) : Byte := entry w (opened s batch net buffer) i j

def v (i j : ℕ) : Byte := entry w (opened s batch net buffer) (i+batch) j

/-- What player 0 answers to the opened lists. -/
def backmessage (r_z_p : BitVec w) (u v : ℕ → Byte) : BitVec w :=
  if check_list u v (w+1) then -r_z_p else -r_z_p+1

end program

/-! ## What memory has to hold -/

/-- Bytes that are the same modulo 67. -/
lemma mod67_inj (a b : ℕ) : mod67 a = mod67 b ↔ (a : ZMod 67) = b := by
  rw [← BitVec.toNat_inj, SignCompare.mod67_toNat, SignCompare.mod67_toNat, ZMod.natCast_eq_natCast_iff']

section agreement
variable {w : ℕ}

section element
variable (s : SignCompare.Input w)

/-- The share that player 2 has of the running sum: its shares of the bits of the mask, with the sign
turned where a bit of `sigma` is set. -/
def half (j : ℕ) : ZMod 67 :=
  let m := fun k => (1-2*(s.m_sigmas k).toNat)*((s.rls false k).toNat : ZMod 67)
  (∑ k ∈ Finset.range j, m k)-m j

/-- The number of differences up to position `j`, less one if there is one at `j`, and one more. -/
def count (j : ℕ) : ℕ := (∑ k ∈ Finset.range j, s.differ k)+1-s.differ j

lemma temp_half {j : ℕ} (hj : j ≤ w) :
    ((SignCompare.temp false s.m_sigmas (s.rls false) j).toNat : ZMod 67) = half s j := by
  have hm : ∀ k ≤ w, ((SignCompare.m_j false s.m_sigmas (s.rls false) k).toNat : ZMod 67) =
      (1-2*(s.m_sigmas k).toNat)*((s.rls false k).toNat : ZMod 67) := by
    intro k hk
    rw [SignCompare.m_j_cast s hk, if_neg (by decide), add_zero, mul_comm]
  have hsum : ∑ k ∈ Finset.range j, ((SignCompare.m_j false s.m_sigmas (s.rls false) k).toNat : ZMod 67) =
      ∑ k ∈ Finset.range j, (1-2*(s.m_sigmas k).toNat)*((s.rls false k).toNat : ZMod 67) :=
    Finset.sum_congr rfl fun k hk => hm k ((Finset.mem_range.mp hk).le.trans hj)
  rw [SignCompare.temp_cast, Finset.sum_range_succ, hsum, hm j hj, if_neg (by decide), half]
  ring

/-- What player 2 would have to send for the `u` of position `j`. -/
lemma u_j_cast {j : ℕ} (hj : j ≤ w) :
    ((u_j false s.m_sigmas (s.rls false) s.delta s.w_j j).toNat : ZMod 67) =
      half s j*(s.w_j j).toNat+(s.blind j).toNat := by
  rw [u_j, ← temp_half s hj, SignCompare.Input.blind]
  simp only [Bool.false_eq_true, if_false, SignCompare.mod67_cast, Nat.cast_add, Nat.cast_mul]

lemma v_j_cast {j : ℕ} (hj : j ≤ w) :
    ((v_j false s.m_sigmas (s.rls false) s.w_j s.w_j_p j).toNat : ZMod 67) =
      half s j*(s.w_j j).toNat*(s.w_j_p j).toNat := by
  rw [v_j, ← temp_half s hj]
  simp only [Bool.false_eq_true, if_false, SignCompare.mod67_cast, Nat.cast_mul]

/-- The lists of the reference version. -/
lemma u_eq {j : ℕ} (hj : j ≤ w) : s.u j = mod67 (count s j*(s.w_j j).toNat+(s.blind j).toNat) := by
  have htotal := SignCompare.u_total s j
  rw [SignCompare.temp_total s hj, SignCompare.total] at htotal
  rw [SignCompare.Input.u, SignCompare.RevealC, mod67_inj, count]
  push_cast at htotal ⊢
  rw [← htotal, add_comm]

lemma v_eq {j : ℕ} (hj : j ≤ w) :
    s.v j = mod67 ((count s j*(s.w_j j).toNat+1)*(s.w_j_p j).toNat) := by
  have htotal := SignCompare.v_total s j
  rw [SignCompare.temp_total s hj, SignCompare.total] at htotal
  rw [SignCompare.Input.v, SignCompare.RevealC, mod67_inj, count]
  push_cast at htotal ⊢
  rw [← htotal, add_comm]

end element

section batch
variable (s : ℕ → SignCompare.Input w) (batch : ℕ) (net : Vectors) (buffer : Party → ℕ → Byte)

/-- Byte `k` of the buffers: in the revealed prefix that of player 2, behind it that of player 0. -/
def Holds (w batch : ℕ) (buffer : Party → ℕ → Byte) (k : ℕ) (share : ZMod 67) (value : Byte) : Prop :=
  if k < revealed w batch then ((buffer 2 k).toNat : ZMod 67) = share else buffer 0 k = value

/-- Memory holds by chance what position `j` of value `i` needs. -/
def Fits (i j : ℕ) : Prop :=
  let w_j := ((s i).w_j j).toNat
  let w_j_p := ((s i).w_j_p j).toNat
  let blind := ((s i).blind j).toNat
  Holds w batch buffer (i*(w+1)+j) (half (s i) j*w_j+blind) (mod67 (count (s i) j*w_j+blind)) ∧
    Holds w batch buffer ((i+batch)*(w+1)+j) (half (s i) j*w_j*w_j_p) (mod67 ((count (s i) j*w_j+1)*w_j_p))

lemma index_div {w i j : ℕ} (hj : j ≤ w) : (i*(w+1)+j)/(w+1) = i := by
  rw [Nat.mul_comm, Nat.mul_add_div (by omega), Nat.div_eq_of_lt (by omega), add_zero]

lemma index_mod {w i j : ℕ} (hj : j ≤ w) : (i*(w+1)+j)%(w+1) = j := Nat.mul_add_mod_of_lt (by omega)

lemma filled_u {i j : ℕ} (hi : i < batch) (hj : j ≤ w) : filled s batch (buffer 1) (i*(w+1)+j) =
    u_j true (s i).m_sigmas ((s i).rls true) (s i).delta (s i).w_j j := by
  rw [filled, index_div hj, index_mod hj, if_pos hi]

lemma filled_v {i j : ℕ} (hi : i < batch) (hj : j ≤ w) :
    filled s batch (buffer 1) ((i+batch)*(w+1)+j) =
      v_j true (s i).m_sigmas ((s i).rls true) (s i).w_j (s i).w_j_p j := by
  rw [filled, index_div hj, index_mod hj, if_neg (by omega), if_pos (by omega), Nat.add_sub_cancel]

/-- One opened byte is the sum of two shares when player 2 happens to hold the second one. -/
lemma opened_iff {k : ℕ} {x y : Byte} (hfilled : filled s batch (buffer 1) k = y) :
    opened s batch net buffer k = mod67 (x.toNat+y.toNat) ↔
      Holds w batch buffer k x.toNat (mod67 (x.toNat+y.toNat)) := by
  have h21 : (2 : Party) ≠ 1 := by decide
  have h01 : (0 : Party) ≠ 1 := by decide
  rw [opened, Holds]
  split
  · next h =>
    rw [NetShare.RevealCt_inside net 67 _ h, if_pos rfl, if_neg h21, hfilled]
    have hresidue : NetShare.residue 67 ((buffer 2 k).toNat+y.toNat) = mod67 ((buffer 2 k).toNat+y.toNat) := rfl
    rw [hresidue, mod67_inj, Nat.cast_add, Nat.cast_add, add_left_inj]
  · next h =>
    rw [NetShare.RevealCt_outside net 67 _ (not_lt.mp h), if_neg h01]

lemma u_iff {i j : ℕ} (hi : i < batch) (hj : j ≤ w) : u s batch net buffer i j = (s i).u j ↔
    Holds w batch buffer (i*(w+1)+j) (half (s i) j*((s i).w_j j).toNat+((s i).blind j).toNat)
      (mod67 (count (s i) j*((s i).w_j j).toNat+((s i).blind j).toNat)) := by
  have hopen := opened_iff s batch net buffer (x := u_j false (s i).m_sigmas ((s i).rls false) (s i).delta (s i).w_j j)
    (filled_u s batch buffer hi hj)
  rw [u_j_cast (s i) hj] at hopen
  rw [← u_eq (s i) hj]
  exact hopen

lemma v_iff {i j : ℕ} (hi : i < batch) (hj : j ≤ w) : v s batch net buffer i j = (s i).v j ↔
    Holds w batch buffer ((i+batch)*(w+1)+j) (half (s i) j*((s i).w_j j).toNat*((s i).w_j_p j).toNat)
      (mod67 ((count (s i) j*((s i).w_j j).toNat+1)*((s i).w_j_p j).toNat)) := by
  have hopen := opened_iff s batch net buffer (x := v_j false (s i).m_sigmas ((s i).rls false) (s i).w_j (s i).w_j_p j)
    (filled_v s batch buffer hi hj)
  rw [v_j_cast (s i) hj] at hopen
  rw [← v_eq (s i) hj]
  exact hopen

/-- Equal lists up to the last entry are answered alike. -/
lemma backmessage_congr {r_z_p : BitVec w} {u u' v v' : ℕ → Byte} (h : ∀ j ≤ w, u j = u' j ∧ v j = v' j) :
    backmessage r_z_p u v = backmessage r_z_p u' v' := by
  have hcheck : check_list u v (w+1) = check_list u' v' (w+1) := by
    rw [check_list, check_list, Bool.eq_iff_iff, List.any_eq_true, List.any_eq_true]
    refine exists_congr fun j => and_congr_right fun hj => ?_
    obtain ⟨hu, hv⟩ := h j (Nat.lt_succ_iff.mp (List.mem_range.mp hj))
    rw [hu, hv]
  rw [backmessage, backmessage, hcheck]

/-- The batch version opens the lists of the reference version, and player 0 answers the same. -/
def Agrees : Prop := ∀ i < batch,
  (∀ j ≤ w, u s batch net buffer i j = (s i).u j ∧ v s batch net buffer i j = (s i).v j) ∧
    ∀ r_z_p : BitVec w, backmessage r_z_p (u s batch net buffer i) (v s batch net buffer i) =
      backmessage r_z_p (s i).u (s i).v

/-- The two versions agree exactly when the memory that nobody writes holds the missing values. -/
theorem batch_exact : Agrees s batch net buffer ↔ ∀ i < batch, ∀ j ≤ w, Fits s batch buffer i j := by
  have hlists : ∀ i < batch, ∀ j ≤ w, (u s batch net buffer i j = (s i).u j ∧ v s batch net buffer i j = (s i).v j ↔
      Fits s batch buffer i j) :=
    fun i hi j hj => and_congr (u_iff s batch net buffer hi hj) (v_iff s batch net buffer hi hj)
  refine forall₂_congr fun i hi => ?_
  constructor
  · rintro ⟨h, -⟩ j hj
    exact (hlists i hi j hj).mp (h j hj)
  · intro h
    have hsame : ∀ j ≤ w, u s batch net buffer i j = (s i).u j ∧ v s batch net buffer i j = (s i).v j :=
      fun j hj => (hlists i hi j hj).mpr (h j hj)
    exact ⟨hsame,fun r_z_p => backmessage_congr hsame⟩

end batch

end agreement

/-! ### One value -/

/-- The comparison of 0 with 0, all random values 0. -/
def zeroInput : SignCompare.Input 32 := SignCompare.Input.draw SignCompare.width_int 0 0 0 0 0

/-- With one value and buffers of zeros the bit that player 2 adds is missing from the first entry. -/
theorem batch_zero : ¬Agrees (fun _ => zeroInput) 1 NetShare.copied 0 := by
  intro h
  have hfits := (u_iff (fun _ => zeroInput) 1 NetShare.copied 0 one_pos (Nat.zero_le 32)).mp
    ((h 0 one_pos).1 0 (Nat.zero_le 32)).1
  rw [Holds, if_pos (by decide)] at hfits
  revert hfits
  decide

end OramPro.SignBatch
