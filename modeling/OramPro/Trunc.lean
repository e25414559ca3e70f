import OramPro.Semi

/-!
# Truncation of masked sharings

`Trunc` of `semi.h` for `T = uint64_t`. Every player shifts its masked value or its mask as a signed
number; the difference is the shifted value but for a carry and for the overflow of the masked sum.
-/
namespace OramPro.Trunc
open Semi (AShare ShareB random_T papply)

abbrev Word := BitVec 64
abbrev Party := Fin 3

section program
variable (prec : ℕ) (aes : Bool → Word) (x : Party → AShare)

/-- `(int64_t)x[i] >> prec` in the first entries. -/
def shifted (x target : ℕ → Word) (lens i : ℕ) : Word := if i < lens then (x i).sshiftRight prec else target i

/-- `Trunc::set_up`; `temp` is the array that player 0 shares into. -/
def set_up (temp : ℕ → Word) (output : Party → AShare) : Party → AShare :=
  let r := shifted prec (x 0).r (output 0).r (output 0).lens
  let target := ShareB 1 aes r (fun p => if p = 0 then temp else (output p).r_2) (output 0).lens
  fun p => if p = 0 then { output 0 with r := r } else { output p with r_2 := target p }

/-- `Trunc::online`. -/
def online (output : Party → AShare) (p : Party) : AShare :=
  if p = 0 then output p
  else { output p with r_1 := shifted prec (x p).r_1 (output p).r_1 (output p).lens }

end program

/-! ## Signed sums -/

/-- By how many times `2^64` the masked value differs from the sum of the two signed numbers. -/
def wrap (x r : Word) : ℤ :=
  if 2^63 ≤ x.toInt+r.toInt then -1 else if x.toInt+r.toInt < -2^63 then 1 else 0

/-- The quotient rounded down or the next number, moved by `2^(64-prec)` against the overflow. -/
def Truncated (prec : ℕ) (x r v : Word) : Prop :=
  v = BitVec.ofInt 64 (x.toInt/2^prec+wrap x r*2^(64-prec)) ∨
    v = BitVec.ofInt 64 (x.toInt/2^prec+1+wrap x r*2^(64-prec))

lemma toInt_masked (x r : Word) : (x+r).toInt = x.toInt+r.toInt+wrap x r*2^64 := by
  have hx := BitVec.le_toInt x
  have hx' := BitVec.toInt_lt (x := x)
  have hr := BitVec.le_toInt r
  have hr' := BitVec.toInt_lt (x := r)
  rw [BitVec.toInt_add, wrap, Int.bmod_eq_emod]
  norm_num at hx hx' hr hr' ⊢
  split_ifs <;> omega

/-- The quotient of a sum, by its carry. -/
lemma ediv_sum (a b : ℤ) {d : ℤ} (hd : 0 < d) : (a+b)/d-b/d = a/d ∨ (a+b)/d-b/d = a/d+1 := by
  have ha := Int.emod_nonneg a hd.ne'
  have ha' := Int.emod_lt_of_pos a hd
  have hb := Int.emod_nonneg b hd.ne'
  have hb' := Int.emod_lt_of_pos b hd
  have hsum : a+b = (a%d+b%d)+d*(a/d+b/d) := by
    have := Int.emod_add_mul_ediv a d
    have := Int.emod_add_mul_ediv b d
    linarith
  have hdiv : (a+b)/d = (a%d+b%d)/d+(a/d+b/d) := by
    rw [hsum, Int.add_mul_ediv_left _ _ hd.ne']
  rw [hdiv]
  rcases lt_or_ge (a%d+b%d) d with hcarry | hcarry
  · left
    rw [Int.ediv_eq_zero_of_lt (by omega) hcarry]
    ring
  · right
    have hone : (a%d+b%d)/d = 1 := by
      rw [(by ring : a%d+b%d = (a%d+b%d-d)+d*1), Int.add_mul_ediv_left _ _ hd.ne',
        Int.ediv_eq_zero_of_lt (by omega) (by omega), zero_add]
    rw [hone]
    ring

lemma sub_eq_ofInt (a b : Word) : a-b = BitVec.ofInt 64 (a.toInt-b.toInt) :=
  BitVec.eq_of_toInt_eq (by rw [BitVec.toInt_sub, BitVec.toInt_ofInt])

/-- The shifted masked value less the shifted mask. -/
lemma truncated_sub {prec : ℕ} (h : prec ≤ 63) (x r : Word) :
    Truncated prec x r ((x+r).sshiftRight prec-r.sshiftRight prec) := by
  have hd : (0 : ℤ) < 2^prec := by positivity
  have hpow : (2^64 : ℤ) = 2^prec*2^(64-prec) := by
    rw [← pow_add]
    congr 1
    omega
  have hshift : ((x+r).sshiftRight prec).toInt = (x.toInt+r.toInt)/2^prec+wrap x r*2^(64-prec) := by
    have hmul : x.toInt+r.toInt+wrap x r*2^64 = (x.toInt+r.toInt)+2^prec*(wrap x r*2^(64-prec)) := by
      rw [hpow]
      ring
    rw [BitVec.toInt_sshiftRight, Int.shiftRight_eq_div_pow, toInt_masked, hmul]
    push_cast
    exact Int.add_mul_ediv_left _ _ hd.ne'
  have hmask : (r.sshiftRight prec).toInt = r.toInt/2^prec := by
    rw [BitVec.toInt_sshiftRight, Int.shiftRight_eq_div_pow]
    push_cast
    rfl
  rw [sub_eq_ofInt, hshift, hmask]
  rcases ediv_sum x.toInt r.toInt hd with hq | hq
  · left
    congr 1
    linarith
  · right
    congr 1
    linarith

/-! ## The truncated sharing -/

/-- A run on the values `x` under the masks `r`, with an output of `L` entries. -/
structure Run (L : ℕ) where
  prec : ℕ
  aes : Bool → Word
  x : ℕ → Word
  r : ℕ → Word
  share : Party → AShare
  output : Party → AShare
  temp : ℕ → Word
  prec_range : 1 ≤ prec ∧ prec ≤ 63
  masked : ∀ i < L, (share 1).r_1 i = x i+r i ∧ (share 2).r_1 i = x i+r i ∧ (share 0).r i = r i
  lens : ∀ p, (output p).lens = L

section run
variable {L : ℕ} (s : Run L)

def Run.result : Party → AShare := online s.prec s.share (set_up s.prec s.aes s.share s.temp s.output)

/-- The entries that `random_T` writes, all of them for one entry and for whole blocks. -/
def Written (L i : ℕ) : Prop := i < L*8/16*2 ∨ L*8/16*16 ≤ i

lemma random_T_eq_iff (aes : Bool → Word) (a b : ℕ → Word) {i : ℕ} (hi : i < L) :
    random_T aes a L i = random_T aes b L i ↔ Written L i ∨ a i = b i := by
  rw [random_T, random_T, Written]
  split_ifs with hblock hone
  · exact iff_of_true rfl (.inl (.inl hblock))
  · exact iff_of_true rfl (.inl (.inr hone.1))
  · have hnot : ¬(i < L*8/16*2 ∨ L*8/16*16 ≤ i) := by omega
    rw [or_iff_right hnot]

/-- The shares of player 1 and 2 hold the shifted mask as far as both parties draw the same array. -/
lemma shares_iff {i : ℕ} (hi : i < L) :
    (s.result 1).r_2 i+(s.result 2).r_2 i = (s.result 0).r i ↔
      Written L i ∨ s.temp i = (s.output 2).r_2 i := by
  have h10 : (1 : Party) ≠ 0 := by decide
  have h20 : (2 : Party) ≠ 0 := by decide
  have h21 : (2 : Party) ≠ 1 := by decide
  simp only [Run.result, online, set_up, ShareB, if_true, if_neg h10, if_neg h20, if_neg h21, s.lens,
    Semi.papply_of_lt hi]
  rw [← random_T_eq_iff s.aes s.temp (s.output 2).r_2 hi]
  constructor
  · intro h
    linear_combination -h
  · intro h
    linear_combination -h

/-- The opened value is the truncated one in every entry, for every length. The shares of the mask add up to
it in the entries that are drawn: in all of them for a single value and for an even length, in all but the
last for a longer odd one. -/
theorem trunc_exact {i : ℕ} (hi : i < L) :
    (∀ p ≠ 0, Truncated s.prec (s.x i) (s.r i) ((s.result p).r_1 i-(s.result 0).r i)) ∧
      ((s.result 1).r_2 i+(s.result 2).r_2 i = (s.result 0).r i ↔
        Written L i ∨ s.temp i = (s.output 2).r_2 i) := by
  refine ⟨fun p hp => ?_,shares_iff s hi⟩
  obtain ⟨h1, h2, h0⟩ := s.masked i hi
  have hm : (s.share p).r_1 i = s.x i+s.r i := by
    fin_cases p
    · exact absurd rfl hp
    · exact h1
    · exact h2
  have hr_1 : (s.result p).r_1 i = (s.x i+s.r i).sshiftRight s.prec := by
    simp only [Run.result, online, set_up, if_neg hp, shifted, s.lens, if_pos hi, hm]
  have hr : (s.result 0).r i = (s.r i).sshiftRight s.prec := by
    simp only [Run.result, online, set_up, if_true, shifted, s.lens, if_pos hi, h0]
  rw [hr_1, hr]
  exact truncated_sub s.prec_range.2 (s.x i) (s.r i)

end run

/-- The value -3 under the least mask, whose signed sum overflows. -/
def leastRun : Run 1 where
  prec := 1
  aes := 0
  x _ := -3
  r _ := BitVec.intMin 64
  share _ := ⟨1,fun _ => -3+BitVec.intMin 64,0,fun _ => BitVec.intMin 64⟩
  output _ := ⟨1,0,0,0⟩
  temp := 0
  prec_range := by decide
  masked := fun _ _ => ⟨rfl,rfl,rfl⟩
  lens := fun _ => rfl

/-- Half of -3 is opened as -2 or -1, moved by `2^63`. -/
theorem trunc_least :
    Truncated 1 (-3) (BitVec.intMin 64) ((leastRun.result 1).r_1 0-(leastRun.result 0).r 0) ∧
      (leastRun.result 1).r_2 0+(leastRun.result 2).r_2 0 = (leastRun.result 0).r 0 :=
  ⟨(trunc_exact leastRun one_pos).1 1 (by decide),(trunc_exact leastRun one_pos).2.mpr (.inl (.inr le_rfl))⟩

end OramPro.Trunc
