import OramPro.SignCompare

/-!
# Sign of a masked number

`Sign` of `semi.h` for `T = uint32_t`, at all parties. Players 1 and 2 hold `m = x+r`, player 0 holds
`r`; the sign of `x` is read off one comparison, of `m` less half the range with `r`. Both sides wrap.
-/
namespace OramPro.SignMask
open SignCompare (rb ShareC RevealC check_list multiplier u_j v_j First)

abbrev Word := BitVec 32
abbrev Party := Fin 3

local instance neZeroPlayers : NeZero 3 := ⟨by decide⟩

structure AShare where
  lens : ℕ
  r_1 : ℕ → Word
  r_2 : ℕ → Word
  r : ℕ → Word

/-- The members of `Sign`. Player 0 has no `delta` and no `gammas`. -/
structure Sign where
  rls : ℕ → ℕ → SignCompare.Byte
  r_z_p : ℕ → Word
  delta : ℕ → SignCompare.Byte
  gammas : ℕ → Word

/-- What `random_T` leaves in the arrays. Player 0 draws an array of each of the others as well:
`mask p` and `zero p` are drawn by players 0 and `p`, `bits` by players 0 and 2, the rest by players 1
and 2. -/
structure Random where
  bits : ℕ → ℕ → SignCompare.Byte
  mask : Party → ℕ → Word
  zero : Party → ℕ → Word
  delta : ℕ → SignCompare.Byte
  w_j : ℕ → ℕ → SignCompare.Byte

section program

def fill (lens : ℕ) (new old : ℕ → Word) (i : ℕ) : Word := if i < lens then new i else old i

variable (rnd : Random) (x output : Party → AShare) (need_gen : Bool)

def drawn (p : Party) (output : AShare) : AShare :=
  if need_gen then
    if p = 0 then
      { output with
        r_1 := fill output.lens (rnd.mask 1) output.r_1
        r_2 := fill output.lens (rnd.mask 2) output.r_2
        r := fill output.lens (fun i => rnd.mask 1 i+rnd.mask 2 i) output.r }
    else { output with r_2 := fill output.lens (rnd.mask p) output.r_2 }
  else output

def rls (p : Party) (i : ℕ) : ℕ → SignCompare.Byte :=
  let org := rb ((x 0).r i) 1
  if p = 0 then org else ShareC org (rnd.bits i) (p == 1)

/-- `delta + r_z_p - 2 delta r_z_p + r_z`, the share of player 1 or 2. -/
def gamma (p : Party) (r_z_p : Word) (delta : SignCompare.Byte) (r_2 : Word) : Word :=
  let g := r_z_p-2*r_z_p*delta.setWidth 32+r_2
  if p = 1 then g+delta.setWidth 32 else g

/-- `Sign::set_up`. `RevealB` leaves the sum of the two shares at players 1 and 2. -/
def set_up (p : Party) : Sign × AShare :=
  let output := fun p => drawn rnd need_gen p (output p)
  let delta := fun i => rnd.delta i % 2
  let gammas := fun p i => gamma p (rnd.zero p i) (delta i) ((output p).r_2 i)
  if p = 0 then
    (⟨rls rnd x 0,fun i => rnd.zero 2 i+rnd.zero 1 i,0,0⟩,output 0)
  else
    (⟨rls rnd x p,rnd.zero p,delta,fun i => gammas 1 i+gammas 2 i⟩,output p)

/-- The masked number less half the range. -/
def sigma (m : Word) : Word := m-1<<<31+1

variable (s : Party → Sign × AShare)

/-- What player 0 opens from players 1 and 2 for one value. -/
def u (i : ℕ) : ℕ → SignCompare.Byte :=
  let u := fun p => u_j (p == 1) (rb (sigma ((x p).r_1 i)) 0) ((s p).1.rls i) ((s p).1.delta i)
    fun j => multiplier (rnd.w_j i j)
  RevealC (u 2) (u 1)

def v (i : ℕ) : ℕ → SignCompare.Byte :=
  let v := fun p => v_j (p == 1) (rb (sigma ((x p).r_1 i)) 0) ((s p).1.rls i)
    (fun j => multiplier (rnd.w_j i j)) fun j => multiplier (multiplier (rnd.w_j i j))
  RevealC (v 2) (v 1)

def backmessage (i : ℕ) : Word :=
  if check_list (u rnd x s i) (v rnd x s i) (32+1) then -(s 0).1.r_z_p i else -(s 0).1.r_z_p i+1

/-- `Sign::online`. -/
def online (p : Party) : AShare :=
  let output := (s p).2
  let back := backmessage rnd x s
  if p = 0 then output
  else { output with
    r_1 := fill output.lens (fun i => back i-2*((s p).1.delta i).setWidth 32*back i+(s p).1.gammas i) output.r_1 }

end program

/-! ## The opened value -/

/-- A run on the values `x` under the masks `r`, with an output of `L` entries that has masks of its own
unless they are generated. -/
structure Input (L : ℕ) where
  rnd : Random
  x : ℕ → Word
  r : ℕ → Word
  share : Party → AShare
  output : Party → AShare
  need_gen : Bool
  masked : ∀ i < L, (share 1).r_1 i = x i+r i ∧ (share 2).r_1 i = x i+r i ∧ (share 0).r i = r i
  lens : ∀ p, (output p).lens = L
  masks : need_gen = true ∨ ∀ i < L, (output 1).r_2 i+(output 2).r_2 i = (output 0).r i

section run
variable {L : ℕ} (s : Input L)

def Input.sign : Party → Sign × AShare := set_up s.rnd s.share s.output s.need_gen

def Input.result : Party → AShare := online s.rnd s.share s.sign

/-- Entry `i` is a masked sharing of 1 for a clear top bit and of 0 for a set one. -/
def Input.Correct (i : ℕ) : Prop :=
  (∀ p ≠ 0, (s.result p).r_1 i-(s.result 0).r i = if (s.x i).msb then 0 else 1) ∧
    (s.result 1).r_2 i+(s.result 2).r_2 i = (s.result 0).r i

/-- With half the range taken off, `x+r` is a word without wrapping. -/
def InRange (x r : Word) : Prop := 2^31-1 ≤ x.toNat+r.toNat ∧ x.toNat+r.toNat < 2^32+2^31-1

/-- The comparison of entry `i`. -/
def Input.compare (i : ℕ) : SignCompare.Input 32 :=
  SignCompare.Input.draw SignCompare.width_int (sigma (s.x i+s.r i)) (s.r i) (s.rnd.bits i) (s.rnd.delta i) (s.rnd.w_j i)

lemma drawn_lens (p : Party) : (drawn s.rnd s.need_gen p (s.output p)).lens = L := by
  rw [drawn]
  split_ifs <;> exact s.lens p

lemma drawn_masks {i : ℕ} (hi : i < L) :
    (drawn s.rnd s.need_gen 1 (s.output 1)).r_2 i+(drawn s.rnd s.need_gen 2 (s.output 2)).r_2 i =
      (drawn s.rnd s.need_gen 0 (s.output 0)).r i := by
  have h10 : (1 : Party) ≠ 0 := by decide
  have h20 : (2 : Party) ≠ 0 := by decide
  rcases hgen : s.need_gen with _ | _
  · have hmask := s.masks.resolve_left (by rw [hgen]; decide)
    exact hmask i hi
  · simp only [drawn, if_true, if_neg h10, if_neg h20, fill, s.lens, if_pos hi]

/-- Both lists of player 0 are those of the comparison. -/
lemma lists_eq {i : ℕ} (hi : i < L) :
    u s.rnd s.share s.sign i = (s.compare i).u ∧ v s.rnd s.share s.sign i = (s.compare i).v := by
  obtain ⟨h1, h2, h0⟩ := s.masked i hi
  have h10 : (1 : Party) ≠ 0 := by decide
  have h20 : (2 : Party) ≠ 0 := by decide
  have hrls1 : (s.sign 1).1.rls i = ShareC (rb (s.r i) 1) (s.rnd.bits i) true := by
    simp only [Input.sign, set_up, rls, if_neg h10, h0]
    rfl
  have hrls2 : (s.sign 2).1.rls i = ShareC (rb (s.r i) 1) (s.rnd.bits i) false := by
    simp only [Input.sign, set_up, rls, if_neg h20, h0]
    rfl
  constructor
  · simp only [u, hrls1, hrls2, h1, h2]
    rfl
  · simp only [v, hrls1, hrls2, h1, h2]
    rfl

/-- What the players add to the message of player 0 takes the blinding away. -/
lemma unblind {d : SignCompare.Byte} (hd : d = 0 ∨ d = 1) (b : Bool) (back z g : Word)
    (hback : back = if xor b (decide (d = 1)) then -z else -z+1) :
    back-2*d.setWidth 32*back+(z-2*z*d.setWidth 32+g+d.setWidth 32) = (if b then 0 else 1)+g := by
  have h0 : (0 : SignCompare.Byte).setWidth 32 = (0 : Word) := rfl
  have h1 : (1 : SignCompare.Byte).setWidth 32 = (1 : Word) := rfl
  have h01 : ¬(0 : SignCompare.Byte) = 1 := by decide
  rcases hd with rfl | rfl <;> cases b <;>
    simp only [h0, h1, h01, hback, decide_true, decide_false, Bool.xor_true, Bool.xor_false, Bool.not_true,
      Bool.not_false, Bool.false_eq_true, if_true, if_false] <;> ring

lemma gamma_sum (d : SignCompare.Byte) (z1 z2 g1 g2 : Word) :
    gamma 1 z1 d g1+gamma 2 z2 d g2 = z1+z2-2*(z1+z2)*d.setWidth 32+(g1+g2)+d.setWidth 32 := by
  have h21 : (2 : Party) ≠ 1 := by decide
  simp only [gamma, if_true, if_neg h21]
  ring

lemma backmessage_eq {i : ℕ} (hi : i < L) : backmessage s.rnd s.share s.sign i =
    if xor (decide (sigma (s.x i+s.r i) > s.r i)) (decide (s.rnd.delta i % 2 = 1)) then
      -(s.rnd.zero 2 i+s.rnd.zero 1 i) else -(s.rnd.zero 2 i+s.rnd.zero 1 i)+1 := by
  obtain ⟨hu, hv⟩ := lists_eq s hi
  obtain ⟨j, hj, hfirst⟩ := SignCompare.exists_first (s.compare i).sigma (s.compare i).r
  have hgt := SignCompare.first_lt hfirst hj
  have haccept := SignCompare.accepts_iff (s.compare i) hj hfirst
  rw [SignCompare.blind_zero_iff, SignCompare.Input.m_sigmas, ← decide_eq_decide.mpr hgt] at haccept
  rw [backmessage, hu, hv]
  exact if_congr haccept rfl rfl

/-- The opened value says that the comparison fails. -/
lemma result_eq {i : ℕ} (hi : i < L) :
    (∀ p ≠ 0, (s.result p).r_1 i-(s.result 0).r i = if sigma (s.x i+s.r i) > s.r i then 0 else 1) ∧
      (s.result 1).r_2 i+(s.result 2).r_2 i = (s.result 0).r i := by
  have hmasks := drawn_masks s hi
  refine ⟨fun p hp => ?_,hmasks⟩
  have hdelta : s.rnd.delta i % 2 = 0 ∨ s.rnd.delta i % 2 = 1 := SignCompare.delta_cases (s.compare i)
  have hr_1 : (s.result p).r_1 i = backmessage s.rnd s.share s.sign i
      -2*(s.rnd.delta i % 2).setWidth 32*backmessage s.rnd s.share s.sign i
      +(gamma 1 (s.rnd.zero 1 i) (s.rnd.delta i % 2) ((drawn s.rnd s.need_gen 1 (s.output 1)).r_2 i)
        +gamma 2 (s.rnd.zero 2 i) (s.rnd.delta i % 2) ((drawn s.rnd s.need_gen 2 (s.output 2)).r_2 i)) := by
    simp only [Input.result, online, Input.sign, set_up, if_neg hp, fill, drawn_lens, if_pos hi]
  have hr : (s.result 0).r i = (drawn s.rnd s.need_gen 0 (s.output 0)).r i := rfl
  have hback := backmessage_eq s hi
  rw [add_comm (s.rnd.zero 2 i)] at hback
  rw [hr_1, hr, gamma_sum, hmasks, unblind hdelta _ _ _ _ hback, add_sub_cancel_right]
  exact if_congr decide_eq_true_iff rfl rfl

/-- Half the range minus one is what `sigma` takes off, or what it puts on when that wraps. -/
lemma compare_iff (x r : Word) : ((if sigma (x+r) > r then (0 : Word) else 1) = if x.msb then 0 else 1) ↔
    InRange x r := by
  have hx := x.isLt
  have hr := r.isLt
  have hmsb : x.msb = true ↔ 2^31 ≤ x.toNat := by
    rw [BitVec.msb_eq_decide, decide_eq_true_iff]
  have hsigma : (sigma (x+r)).toNat = (x.toNat+r.toNat+2^31+1)%2^32 := by
    have hhalf : (1<<<31 : Word) = BitVec.ofNat 32 (2^31) := by decide
    rw [sigma, hhalf]
    bv_omega
  have hlt : sigma (x+r) > r ↔ r.toNat < (x.toNat+r.toNat+2^31+1)%2^32 := by
    rw [gt_iff_lt, BitVec.lt_def, hsigma]
  have hbits : ((if sigma (x+r) > r then (0 : Word) else 1) = if x.msb then 0 else 1) ↔
      (sigma (x+r) > r ↔ x.msb = true) := by
    split_ifs with h1 h2 h2 <;> simp [h1, h2]
  rw [hbits, hlt, hmsb, InRange]
  omega

/-- `Sign` computes the sign at all entries exactly when no entry's comparison wraps on one side only. -/
theorem sign_mask_exact : (∀ i < L, s.Correct i) ↔ ∀ i < L, InRange (s.x i) (s.r i) := by
  refine forall₂_congr fun i hi => ?_
  obtain ⟨hopen, hmask⟩ := result_eq s hi
  rw [← compare_iff, Input.Correct, and_iff_left hmask]
  constructor
  · intro h
    rw [← hopen 1 (by decide), h 1 (by decide)]
  · intro h p hp
    rw [hopen p hp, h]

end run

/-- One zero under the mask 0, all random values 0. -/
def zeroInput : Input 1 where
  rnd := ⟨0,0,0,0,0⟩
  x := 0
  r := 0
  share _ := ⟨1,0,0,0⟩
  output _ := ⟨1,0,0,0⟩
  need_gen := true
  masked := fun _ _ => ⟨(add_zero 0).symm,(add_zero 0).symm,rfl⟩
  lens := fun _ => rfl
  masks := .inl rfl

/-- The sign of 0 is opened as 0, that of a number with its top bit set. -/
theorem sign_mask_zero : (zeroInput.result 1).r_1 0-(zeroInput.result 0).r 0 ≠
    if (zeroInput.x 0).msb then 0 else 1 := by
  rw [(result_eq zeroInput one_pos).1 1 (by decide)]
  decide


end OramPro.SignMask
