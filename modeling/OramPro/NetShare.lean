import Mathlib.Data.BitVec
import Mathlib.Tactic

/-!
# Sharing of residues

`ShareCt` and `RevealCt` of `newnetshare.h` for `T = uint8_t`, as `Sign` calls them. Player 0 shares a
vector modulo `p` with players 1 and 2; player 2 draws its share, and player 0 subtracts what it takes
for the same share.
-/
namespace OramPro.NetShare

abbrev Byte := BitVec 8
abbrev Party := Fin 3

/-- `sendVector` at one party and `receiveVector` at another: the buffer of the receiver, from what was
sent and what the buffer held. They come with a library that is not part of the repository. -/
structure Vectors where
  transfer : ℕ → (ℕ → Byte) → (ℕ → Byte) → ℕ → Byte
  inside : ∀ lens sent buffer, ∀ i < lens, transfer lens sent buffer i = sent i
  outside : ∀ lens sent buffer i, lens ≤ i → transfer lens sent buffer i = buffer i

section program

/-- `random_T`: the encryption of the zero block in whole blocks, ones behind them. -/
def random_T (aes target : ℕ → Byte) (lens i : ℕ) : Byte :=
  if i < lens/16*16 then aes (i%16) else if i < lens then 1 else target i

/-- `target[i] %= p` for the first entries. -/
def reduce (p : Byte) (target : ℕ → Byte) (lens i : ℕ) : Byte :=
  if i < lens then target i % p else target i

/-- The remainder of a number that may exceed a byte. -/
def residue (p : Byte) (n : ℕ) : Byte := BitVec.ofNat 8 (n%p.toNat)

variable (net : Vectors) (aes : ℕ → Byte) (p : Byte)

/-- `ShareCt`. Player 0 does not call `random_T`. -/
def ShareCt (org : ℕ → Byte) (target : Party → ℕ → Byte) (lens : ℕ) : Party → ℕ → Byte :=
  let target0 := reduce p (target 0) lens
  let temp := fun i => residue p ((org i).toNat+p.toNat-(target0 i).toNat)
  fun q =>
    if q = 0 then target0
    else if q = 1 then net.transfer lens temp (target 1)
    else reduce p (random_T aes (target 2) lens) lens

/-- `RevealCt`; only the buffer of player 0 changes. -/
def RevealCt (org : Party → ℕ → Byte) (lens : ℕ) : Party → ℕ → Byte :=
  let temp := net.transfer lens (org 1) 0
  let org0 := net.transfer lens (org 2) (org 0)
  fun q => if q = 0 then
      fun i => if i < lens then residue p ((org0 i).toNat+(temp i).toNat) else org0 i
    else org q

end program

/-! ## Round trips -/

lemma residue_toNat {p : Byte} (hp : 0 < p.toNat) (n : ℕ) : (residue p n).toNat = n%p.toNat := by
  have hlt := Nat.mod_lt n hp
  rw [residue, BitVec.toNat_ofNat, Nat.mod_eq_of_lt (by have := p.isLt; omega)]

lemma umod_lt {p : Byte} (hp : 0 < p.toNat) (t : Byte) : (t % p).toNat < p.toNat := by
  rw [BitVec.toNat_umod]
  exact Nat.mod_lt _ hp

lemma RevealCt_inside (net : Vectors) (p : Byte) (org : Party → ℕ → Byte) {lens i : ℕ} (h : i < lens) :
    RevealCt net p org lens 0 i = residue p ((org 2 i).toNat+(org 1 i).toNat) := by
  simp only [RevealCt, if_true, if_pos h, net.inside _ _ _ i h]

lemma RevealCt_outside (net : Vectors) (p : Byte) (org : Party → ℕ → Byte) {lens i : ℕ} (h : lens ≤ i) :
    RevealCt net p org lens 0 i = org 0 i := by
  simp only [RevealCt, if_true, if_neg (not_lt.mpr h), net.outside _ _ _ i h]

/-- A difference and a residue add up to the original only if the residue is the one subtracted. -/
lemma difference_add {p org a b : ℕ} (horg : org < p) (ha : a < p) (hb : b < p) :
    (b+(org+p-a)%p)%p = org ↔ b = a := by
  have hmod : (b+(org+p-a)%p)%p = (b+org+(p-a))%p := by
    rw [Nat.add_mod_mod]
    congr 1
    omega
  rw [hmod]
  constructor
  · intro h
    have hcongr : b+org+(p-a) ≡ a+org+(p-a) [MOD p] := by
      have hself : (a+org+(p-a))%p = org := by
        rw [(by omega : a+org+(p-a) = org+p), Nat.add_mod_right, Nat.mod_eq_of_lt horg]
      rw [Nat.ModEq, h, hself]
    have hba := Nat.ModEq.add_right_cancel' org (Nat.ModEq.add_right_cancel' (p-a) hcongr)
    exact Nat.ModEq.eq_of_lt_of_lt hba hb ha
  · rintro rfl
    rw [(by omega : b+org+(p-b) = org+p), Nat.add_mod_right, Nat.mod_eq_of_lt horg]

/-- A vector of residues at player 0 and the buffers of all parties. -/
structure Input where
  p : Byte
  org : ℕ → Byte
  target : Party → ℕ → Byte
  lens : ℕ
  p_range : 2 ≤ p.toNat ∧ p.toNat ≤ 127
  org_lt : ∀ i < lens, (org i).toNat < p.toNat

section roundTrip
variable (net : Vectors) (aes : ℕ → Byte) (s : Input)

def Input.shared : Party → ℕ → Byte := ShareCt net aes s.p s.org s.target s.lens

/-- The targets of players 1 and 2 add up to the vector, and player 0 gets it back. -/
def Input.RoundTrip : Prop := ∀ i < s.lens,
  ((s.shared net aes 1 i).toNat+(s.shared net aes 2 i).toNat)%s.p.toNat = (s.org i).toNat ∧
    RevealCt net s.p (s.shared net aes) s.lens 0 i = s.org i

/-- The byte that player 2 draws. -/
def drawn (lens i : ℕ) : Byte := if i < lens/16*16 then aes (i%16) else 1

lemma shared_two {i : ℕ} (hi : i < s.lens) : s.shared net aes 2 i = drawn aes s.lens i % s.p := by
  have h20 : (2 : Party) ≠ 0 := by decide
  have h21 : (2 : Party) ≠ 1 := by decide
  simp only [Input.shared, ShareCt, if_neg h20, if_neg h21, reduce, if_pos hi, random_T, drawn]

lemma shared_one {i : ℕ} (hi : i < s.lens) : s.shared net aes 1 i =
    residue s.p ((s.org i).toNat+s.p.toNat-(s.target 0 i % s.p).toNat) := by
  have h10 : (1 : Party) ≠ 0 := by decide
  simp only [Input.shared, ShareCt, if_neg h10, if_true, net.inside _ _ _ i hi, reduce, if_pos hi]

/-- Sharing round-trips exactly when the buffer of player 0 already holds what player 2 draws. -/
theorem share_exact : s.RoundTrip net aes ↔
    ∀ i < s.lens, s.target 0 i % s.p = drawn aes s.lens i % s.p := by
  have hp : 0 < s.p.toNat := by
    have := s.p_range
    omega
  refine forall₂_congr fun i hi => ?_
  have hsum : ((s.shared net aes 2 i).toNat+(s.shared net aes 1 i).toNat)%s.p.toNat = (s.org i).toNat ↔
      s.target 0 i % s.p = drawn aes s.lens i % s.p := by
    rw [shared_two net aes s hi, shared_one net aes s hi, residue_toNat hp,
      difference_add (s.org_lt i hi) (umod_lt hp _) (umod_lt hp _), BitVec.toNat_inj, eq_comm]
  have hreveal : RevealCt net s.p (s.shared net aes) s.lens 0 i = s.org i ↔
      ((s.shared net aes 2 i).toNat+(s.shared net aes 1 i).toNat)%s.p.toNat = (s.org i).toNat := by
    rw [RevealCt_inside net s.p _ hi, ← BitVec.toNat_inj, residue_toNat hp]
  rw [hreveal, Nat.add_comm, hsum, and_self]

end roundTrip

/-! ### One entry -/

/-- A transfer that copies. -/
def copied : Vectors where
  transfer lens sent buffer i := if i < lens then sent i else buffer i
  inside _ _ _ _ h := if_pos h
  outside _ _ _ _ h := if_neg (not_lt.mpr h)

/-- The value 1 modulo 67 with buffers of zeros. -/
def oneInput : Input := ⟨67,fun _ => 1,fun _ _ => 0,1,by decide,fun _ _ => by decide⟩

/-- Player 0 sends 1 and player 2 draws 1. -/
theorem share_one : ¬oneInput.RoundTrip copied 0 := by
  intro h
  have hsum := (h 0 one_pos).1
  revert hsum
  decide

end OramPro.NetShare
