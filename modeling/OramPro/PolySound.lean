import OramPro.PolyVerify

/-!
# Which errors the halving detects

`PolyVerify::verify` with correct dot products. An error of `z` reaches `z_p` multiplied by `d1`, which
is `2^11` times an odd number.
-/
namespace OramPro.PolyVerify
open Semi

/-- A call on valid sharings, with correct sharings from the two dot products. -/
structure Check (L LENS N : ℕ) where
  x : Party → ℕ → AShare
  y : Party → ℕ → AShare
  z : Party → AShare
  h0 : Party → AShare
  h1 : Party → AShare
  h2 : Party → AShare
  out : Output
  xv : ℕ → ℕ → Word
  yv : ℕ → ℕ → Word
  zv : ℕ → Word
  even : N%2 = 0
  le : L ≤ LENS
  z_p : ∀ p, (out.z_p p).lens = L
  x_p : ∀ p, ∀ i < N/2, (out.x_p p i).lens = L
  y_p : ∀ p, ∀ i < N/2, (out.y_p p i).lens = L
  masks_x : ∀ j < N, Masks L (x · j) (xv j)
  masks_y : ∀ j < N, Masks L (y · j) (yv j)
  masks_z : Masks L z zv
  masks_h0 : Masks L h0 fun c => ∑ i ∈ Finset.range (N/2), xv (2*i) c*yv (2*i) c
  masks_h2 : Masks L h2 fun c => ∑ i ∈ Finset.range (N/2),
    (2*xv (2*i+1) c-xv (2*i) c)*(2*yv (2*i+1) c-yv (2*i) c)

namespace Check
variable {L LENS N : ℕ} (s : Check L LENS N)

def output : Output := verifyWith LENS N s.x s.y s.z s.h0 s.h1 s.h2 s.out

def inner (c : ℕ) : Word := ∑ j ∈ Finset.range N, s.xv j c*s.yv j c

def innerHalved (c : ℕ) : Word :=
  ∑ i ∈ Finset.range (N/2), opened (s.output.x_p · i) c*opened (s.output.y_p · i) c

def error (c : ℕ) : Word := s.zv c-s.inner c

lemma zv_eq_iff (c : ℕ) : s.zv c = s.inner c ↔ s.error c = 0 := sub_eq_zero.symm

/-- The error is multiplied by `d1`. -/
lemma z_p_masks : Masks L s.output.z_p fun c => s.innerHalved c+s.error c*d1 := by
  intro c hc
  have hentry := verifyWith_z_p s.z_p s.le N s.x s.y s.z s.h0 s.h1 s.h2 hc
  obtain ⟨hz1, hz2, hzr⟩ := s.masks_z c hc
  obtain ⟨h01, h02, h0r⟩ := s.masks_h0 c hc
  obtain ⟨h21, h22, h2r⟩ := s.masks_h2 c hc
  have hhalved : s.innerHalved c = _ := halve_sum s.x_p s.y_p s.masks_x s.masks_y hc
  have hinner : s.inner c = _ := sum_halves s.even c
  rw [output, (hentry 0).2.2, (hentry 1).1, (hentry 2).1, (hentry 1).2.1, (hentry 2).2.1]
  beta_reduce
  rw [error, hhalved, hinner, hz1, hz2, h01, h02, h21, h22, ← hzr, ← h0r, ← h2r]
  refine ⟨?_,?_,?_⟩
  · ring
  · ring
  · ring

lemma preserved_iff_zero : Preserved L N s.output ↔ ∀ c < L, s.error c*d1 = 0 := by
  constructor
  · intro h c hc
    have heq : s.innerHalved c+_ = s.innerHalved c+s.error c*d1+_ := (h c hc).1.symm.trans (s.z_p_masks c hc).1
    linear_combination -heq
  · intro h c hc
    have hmasks := s.z_p_masks c hc
    beta_reduce at hmasks
    rw [h c hc, add_zero] at hmasks
    exact hmasks

/-- `d1` is an odd multiple of `2^11`. -/
lemma mul_d1_iff (e : Word) : e*d1 = 0 ↔ 2^53 ∣ e.toNat := by
  have hneg : e*d1 = -(e*1046528) := by
    rw [d1_eq]
    ring
  have hnat : e*1046528 = 0 ↔ 2^64 ∣ e.toNat*1046528 := by
    rw [← BitVec.toNat_inj, BitVec.toNat_mul]
    exact Nat.dvd_iff_mod_eq_zero.symm
  have hcoprime : Nat.Coprime (2^53) 511 := by norm_num
  have hfactor : e.toNat*1046528 = 2^11*(e.toNat*511) := by ring
  rw [hneg, neg_eq_zero, hnat, hfactor, (by norm_num : 2^64 = 2^11*2^53),
    Nat.mul_dvd_mul_iff_left (by norm_num), hcoprime.dvd_mul_right]

/-- The check is sound exactly when `z` is right or some error is no multiple of `2^53`; in one entry,
when its error is 0 or no multiple of `2^53`. -/
theorem sound_iff :
    (((∀ c < L, s.zv c = s.inner c) ↔ Preserved L N s.output) ↔
      (∀ c < L, s.error c = 0) ∨ ∃ c < L, ¬2^53 ∣ (s.error c).toNat) ∧
    ∀ c < L, ((s.zv c = s.inner c ↔ opened s.output.z_p c = s.innerHalved c) ↔
      s.error c = 0 ∨ ¬2^53 ∣ (s.error c).toNat) := by
  have hzero : ∀ c, s.error c = 0 → 2^53 ∣ (s.error c).toNat := by
    intro c h
    rw [h]
    exact dvd_zero _
  constructor
  · rw [s.preserved_iff_zero]
    simp only [zv_eq_iff, mul_d1_iff]
    constructor
    · intro h
      by_cases hall : ∀ c < L, 2^53 ∣ (s.error c).toNat
      · exact .inl (h.mpr hall)
      · push Not at hall
        exact .inr hall
    · rintro (hright | ⟨c, hc, hnot⟩)
      · exact iff_of_true hright fun c hc => hzero c (hright c hc)
      · exact iff_of_false (fun h => hnot (hzero c (h c hc))) fun h => hnot (h c hc)
  · intro c hc
    rw [opened_eq s.z_p_masks hc, add_eq_left, mul_d1_iff, zv_eq_iff]
    constructor
    · intro h
      by_cases hdvd : 2^53 ∣ (s.error c).toNat
      · exact .inl (h.mpr hdvd)
      · exact .inr hdvd
    · rintro (hright | hnot)
      · exact iff_of_true hright (hzero c hright)
      · exact iff_of_false (fun h => hnot (hzero c h)) hnot

end Check

/-! ### One pair of ones -/

/-- The inner product 2 with an error of `2^53`. -/
def wrongCheck : Check 1 1 2 where
  x p _ := unmasked 1 p
  y p _ := unmasked 1 p
  z := unmasked (2+2^53)
  h0 := unmasked 1
  h1 := unmasked 0
  h2 := unmasked 1
  out := emptyOut
  xv _ _ := 1
  yv _ _ := 1
  zv _ := 2+2^53
  even := rfl
  le := le_rfl
  z_p _ := rfl
  x_p _ _ _ := rfl
  y_p _ _ _ := rfl
  masks_x _ _ := masks_unmasked 1
  masks_y _ _ := masks_unmasked 1
  masks_z := masks_unmasked _
  masks_h0 := masks_unmasked 1
  masks_h2 := masks_unmasked 1

/-- The wrong `z` passes. -/
theorem sound_wrong :
    ¬((∀ c < 1, wrongCheck.zv c = wrongCheck.inner c) ↔ Preserved 1 2 wrongCheck.output) := by
  intro h
  have hpass : Preserved 1 2 wrongCheck.output := by
    refine wrongCheck.preserved_iff_zero.mpr fun c hc => ?_
    obtain rfl : c = 0 := by omega
    decide
  exact absurd (h.mpr hpass 0 one_pos) (by decide)

end OramPro.PolyVerify
