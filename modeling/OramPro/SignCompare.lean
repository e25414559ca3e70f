import Mathlib.Algebra.Field.ZMod
import Mathlib.Data.BitVec
import Mathlib.Data.Nat.Bitwise
import Mathlib.Tactic

/-!
# Comparison by a first difference

The loop of `Sign::online` over the bits of `sigma` and `r`, the most significant one first. Players 1
and 2 hold shares modulo 67 of the bits of `r`; what they send opens to a list with one zero that
counts if and only if the comparison, blinded by `delta`, is true.
-/
namespace OramPro.SignCompare

abbrev Byte := BitVec 8

section program

/-- `chop`, with a last entry behind the bits. -/
def rb {w : ℕ} (org : BitVec w) (last : Byte) (j : ℕ) : Byte :=
  if j < w then (if org.getLsbD (w-1-j) then 1 else 0) else last

/-- A residue in one byte. -/
def mod67 (n : ℕ) : Byte := BitVec.ofNat 8 (n%67)

/-- `ShareC`: the share of player 1, or the random share of player 2. -/
def ShareC (org random : ℕ → Byte) (player1 : Bool) (j : ℕ) : Byte :=
  let target := mod67 (random j).toNat
  if player1 then mod67 ((org j).toNat+67-target.toNat) else target

/-- `RevealC` at player 0. -/
def RevealC (org temp : ℕ → Byte) (j : ℕ) : Byte := mod67 ((org j).toNat+(temp j).toNat)

def check_list (u v : ℕ → Byte) (lens : ℕ) : Bool := (List.range lens).any fun i => u i = 0 ∧ v i ≠ 0

/-- The multipliers, made of random bytes. -/
def multiplier (random : Byte) : Byte := BitVec.ofNat 8 (random.toNat%66+1)

variable (player1 : Bool) (m_sigmas rls : ℕ → Byte)

def m_j (j : ℕ) : Byte :=
  let m := mod67 ((rls j).toNat+67-2*(m_sigmas j).toNat*(rls j).toNat)
  if player1 then mod67 (m.toNat+(m_sigmas j).toNat) else m

/-- `sum_of_m` after the first entries. -/
def sum_of_m : ℕ → Byte
  | 0 => 0
  | j+1 => mod67 ((sum_of_m j).toNat+(m_j player1 m_sigmas rls j).toNat)

def temp (j : ℕ) : Byte :=
  let t := mod67 ((sum_of_m player1 m_sigmas rls (j+1)).toNat+134-2*(m_j player1 m_sigmas rls j).toNat)
  if player1 then t+1 else t

variable (delta : Byte) (w_j w_j_p : ℕ → Byte)

def u_j (j : ℕ) : Byte :=
  let t := (temp player1 m_sigmas rls j).toNat
  if player1 then mod67 (t*(w_j j).toNat) else mod67 (t*(w_j j).toNat+(1^^^delta^^^m_sigmas j).toNat)

def v_j (j : ℕ) : Byte :=
  let t := (temp player1 m_sigmas rls j).toNat
  if player1 then mod67 ((t*(w_j j).toNat+1)*(w_j_p j).toNat) else mod67 (t*(w_j j).toNat*(w_j_p j).toNat)

end program

/-! ## Residues modulo 67 -/

instance fact_prime : Fact (Nat.Prime 67) := ⟨by norm_num⟩

lemma mod67_toNat (n : ℕ) : (mod67 n).toNat = n%67 := by
  rw [mod67, BitVec.toNat_ofNat, Nat.mod_eq_of_lt (by omega)]

lemma mod67_lt (n : ℕ) : (mod67 n).toNat < 67 := by
  rw [mod67_toNat]
  exact Nat.mod_lt _ (by norm_num)

lemma mod67_cast (n : ℕ) : ((mod67 n).toNat : ZMod 67) = n := by
  rw [mod67_toNat, ZMod.natCast_mod]

lemma mod67_eq_zero (n : ℕ) : mod67 n = 0 ↔ (n : ZMod 67) = 0 := by
  rw [ZMod.natCast_eq_zero_iff, Nat.dvd_iff_mod_eq_zero, ← mod67_toNat, ← BitVec.toNat_inj]
  rfl

lemma multiplier_range (random : Byte) : 1 ≤ (multiplier random).toNat ∧ (multiplier random).toNat ≤ 66 := by
  rw [multiplier, BitVec.toNat_ofNat]
  omega

/-- Numbers from 1 to 66 are not 0. -/
lemma cast_ne_zero {n : ℕ} (h : 1 ≤ n ∧ n ≤ 66) : (n : ZMod 67) ≠ 0 := by
  rw [Ne, ZMod.natCast_eq_zero_iff]
  intro hdvd
  have := Nat.le_of_dvd (by omega) hdvd
  omega

/-! ## The first difference -/

section bits
variable {w : ℕ}

lemma rb_bit (org : BitVec w) {last : Byte} (h : last = 0 ∨ last = 1) (j : ℕ) :
    rb org last j = 0 ∨ rb org last j = 1 := by
  rw [rb]
  split
  · split
    · exact .inr rfl
    · exact .inl rfl
  · exact h

lemma rb_le_one (org : BitVec w) {last : Byte} (h : last = 0 ∨ last = 1) (j : ℕ) :
    (rb org last j).toNat ≤ 1 := by
  rcases rb_bit org h j with h | h <;> rw [h] <;> decide

lemma rb_eq_one (org : BitVec w) (last : Byte) {j : ℕ} (hj : j < w) :
    rb org last j = 1 ↔ org.getLsbD (w-1-j) = true := by
  rw [rb, if_pos hj]
  split
  · next h => simp [h]
  · next h => simp [h]

/-- Position `j` is the first at which the bits of `x`, with the last entry 0, and those of `y`, with the
last entry 1, differ. -/
def First (x y : BitVec w) (j : ℕ) : Prop := rb x 0 j ≠ rb y 1 j ∧ ∀ k < j, rb x 0 k = rb y 1 k

lemma exists_first (x y : BitVec w) : ∃ j ≤ w, First x y j := by
  have hlast : rb x 0 w ≠ rb y 1 w := by
    rw [rb, rb, if_neg (lt_irrefl w), if_neg (lt_irrefl w)]
    decide
  have hex : ∃ j, rb x 0 j ≠ rb y 1 j := ⟨w,hlast⟩
  refine ⟨Nat.find hex,Nat.find_min' hex hlast,Nat.find_spec hex,fun k hk => ?_⟩
  exact not_not.mp (Nat.find_min hex hk)

lemma first_unique {x y : BitVec w} {i j : ℕ} (hi : First x y i) (hj : First x y j) : i = j := by
  rcases lt_trichotomy i j with h | h | h
  · exact absurd (hj.2 i h) hi.1
  · exact h
  · exact absurd (hi.2 j h) hj.1

/-- The bit of position `i` is entry `w-1-i`. -/
lemma getLsbD_eq {x y : BitVec w} {i : ℕ} (hi : i < w) (h : rb x 0 (w-1-i) = rb y 1 (w-1-i)) :
    x.getLsbD i = y.getLsbD i := by
  have hx := rb_eq_one x 0 (by omega : w-1-i < w)
  have hy := rb_eq_one y 1 (by omega : w-1-i < w)
  rw [(by omega : w-1-(w-1-i) = i)] at hx hy
  rw [Bool.eq_iff_iff, ← hx, ← hy, h]

/-- Above position `j` the numbers have the same bits. -/
lemma first_above {x y : BitVec w} {j : ℕ} (h : First x y j) (hj : j < w) (i : ℕ) (hi : w-1-j < i) :
    x.toNat.testBit i = y.toNat.testBit i := by
  rw [BitVec.testBit_toNat, BitVec.testBit_toNat]
  by_cases hw : i < w
  · exact getLsbD_eq hw (h.2 (w-1-i) (by omega))
  · rw [BitVec.getLsbD_of_ge x i (by omega), BitVec.getLsbD_of_ge y i (by omega)]

/-- The number without the bit is smaller when the bits above it are the same. -/
lemma toNat_lt_of_bit {x y : BitVec w} {lx ly : Byte} {j : ℕ} (hj : j < w) (hx : rb x lx j ≠ 1)
    (hy : rb y ly j = 1) (habove : ∀ i, w-1-j < i → x.toNat.testBit i = y.toNat.testBit i) :
    x.toNat < y.toNat := by
  rw [Ne, rb_eq_one x lx hj] at hx
  rw [rb_eq_one y ly hj] at hy
  refine Nat.lt_of_testBit (w-1-j) ?_ ?_ habove
  · rw [BitVec.testBit_toNat]
    exact Bool.eq_false_iff.mpr hx
  · rw [BitVec.testBit_toNat]
    exact hy

lemma first_flip {x y : BitVec w} {j : ℕ} (h : First x y j) : rb y 1 j = 1 ↔ rb x 0 j ≠ 1 := by
  have hne := h.1
  rcases rb_bit x (.inl rfl) j with hx | hx <;> rcases rb_bit y (.inr rfl) j with hy | hy <;>
    rw [hx, hy] at hne ⊢ <;> revert hne <;> decide

/-- The bit of `x` at the first difference tells whether it is greater. -/
lemma first_lt {x y : BitVec w} {j : ℕ} (h : First x y j) (hle : j ≤ w) : y < x ↔ rb x 0 j = 1 := by
  have hflip := first_flip h
  rcases hle.lt_or_eq with hj | rfl
  · have habove := first_above h hj
    constructor
    · intro hlt
      by_contra hzero
      have hxy : x.toNat < y.toNat := toNat_lt_of_bit hj hzero (hflip.mpr hzero) habove
      exact absurd hlt (not_lt.mpr hxy.le)
    · intro hone
      have hzero : rb y 1 j ≠ 1 := fun h1 => hflip.mp h1 hone
      exact toNat_lt_of_bit hj hzero hone fun i hi => (habove i hi).symm
  · have hsame : x = y :=
      BitVec.eq_of_getLsbD_eq fun i hi => getLsbD_eq hi (h.2 (j-1-i) (by omega))
    rw [hsame, rb, if_neg (lt_irrefl j)]
    exact iff_of_false (Nat.lt_irrefl y.toNat) (by decide)

end bits

/-! ## Shares -/

/-- The inputs of the loop for one value: the masked number and the mask, shares of the bits of the
mask, and the random values that players 1 and 2 have in common. -/
structure Input (w : ℕ) where
  width : w ∈ [8,16,32,64]
  sigma : BitVec w
  r : BitVec w
  rls : Bool → ℕ → Byte
  delta : Byte
  w_j : ℕ → Byte
  w_j_p : ℕ → Byte
  rls_lt : ∀ p, ∀ j ≤ w, (rls p j).toNat < 67
  share : ∀ j ≤ w, ((rls true j).toNat+(rls false j).toNat)%67 = (rb r 1 j).toNat
  delta_lt : delta.toNat < 2
  w_j_range : ∀ j ≤ w, 1 ≤ (w_j j).toNat ∧ (w_j j).toNat ≤ 66
  w_j_p_range : ∀ j ≤ w, 1 ≤ (w_j_p j).toNat ∧ (w_j_p j).toNat ≤ 66

lemma width_int : 32 ∈ [8,16,32,64] := by decide

/-- What `set_up` and `online` share and draw. -/
def Input.draw {w : ℕ} (width : w ∈ [8,16,32,64]) (sigma r : BitVec w) (random : ℕ → Byte) (delta : Byte)
    (w_j : ℕ → Byte) : Input w where
  width := width
  sigma := sigma
  r := r
  rls := ShareC (rb r 1) random
  delta := delta % 2
  w_j j := multiplier (w_j j)
  w_j_p j := multiplier (multiplier (w_j j))
  rls_lt p j _ := by
    rw [ShareC]
    split
    · exact mod67_lt _
    · exact mod67_lt _
  share j _ := by
    have hle := rb_le_one r (.inr rfl) j
    simp only [ShareC, if_true, Bool.false_eq_true, if_false, mod67_toNat]
    omega
  delta_lt := by
    have hmod : (delta % 2).toNat = delta.toNat%2 := BitVec.toNat_umod
    exact hmod.trans_lt (Nat.mod_lt _ (by norm_num))
  w_j_range j _ := multiplier_range _
  w_j_p_range j _ := multiplier_range _

section shares
variable {w : ℕ} (s : Input w)

def Input.m_sigmas : ℕ → Byte := rb s.sigma 0

include s in
lemma Input.width_le : w ≤ 64 := by
  have h := s.width
  simp only [List.mem_cons, List.not_mem_nil, or_false] at h
  omega

/-- Whether entry `j` of the bits differs. -/
def Input.differ (j : ℕ) : ℕ := if s.m_sigmas j = rb s.r 1 j then 0 else 1

/-- The shares of the two players as one residue. -/
def total (f : Bool → ℕ → Byte) (j : ℕ) : ZMod 67 := (f true j).toNat+(f false j).toNat

lemma m_j_cast {j : ℕ} (hj : j ≤ w) (p : Bool) :
    ((m_j p s.m_sigmas (s.rls p) j).toNat : ZMod 67) =
      (s.rls p j).toNat*(1-2*(s.m_sigmas j).toNat)+if p then ((s.m_sigmas j).toNat : ZMod 67) else 0 := by
  have hlt := s.rls_lt p j hj
  have hbit : (s.m_sigmas j).toNat ≤ 1 := rb_le_one s.sigma (.inl rfl) j
  have hle : 2*(s.m_sigmas j).toNat*(s.rls p j).toNat ≤ (s.rls p j).toNat+67 := by nlinarith
  have h67 : ((67 : ℕ) : ZMod 67) = 0 := ZMod.natCast_self 67
  cases p with
  | true =>
    simp only [m_j, if_true, mod67_cast, Nat.cast_add, Nat.cast_sub hle, h67]
    push_cast
    ring
  | false =>
    simp only [m_j, Bool.false_eq_true, if_false, mod67_cast, Nat.cast_add, Nat.cast_sub hle, h67]
    push_cast
    ring

/-- The players hold shares of the exclusive or. -/
lemma m_j_total {j : ℕ} (hj : j ≤ w) :
    total (fun p => m_j p s.m_sigmas (s.rls p)) j = (s.differ j : ℕ) := by
  have hshare : (((s.rls true j).toNat+(s.rls false j).toNat : ℕ) : ZMod 67) = (rb s.r 1 j).toNat := by
    rw [← s.share j hj, ZMod.natCast_mod]
  rw [Nat.cast_add] at hshare
  rw [total, m_j_cast s hj, m_j_cast s hj, Input.differ]
  simp only [if_true, Bool.false_eq_true, if_false]
  have hsum : ((s.rls true j).toNat : ZMod 67)*(1-2*(s.m_sigmas j).toNat)+(s.m_sigmas j).toNat
      +((s.rls false j).toNat*(1-2*(s.m_sigmas j).toNat)+0) =
      (rb s.r 1 j).toNat*(1-2*(s.m_sigmas j).toNat)+(s.m_sigmas j).toNat := by
    rw [← hshare]
    ring
  rw [hsum, Input.m_sigmas]
  rcases rb_bit s.sigma (.inl rfl) j with hs | hs <;> rcases rb_bit s.r (.inr rfl) j with hr | hr <;>
    rw [hs, hr] <;> decide

lemma sum_cast (p : Bool) (m_sigmas rls : ℕ → Byte) (j : ℕ) :
    ((sum_of_m p m_sigmas rls j).toNat : ZMod 67) =
      ∑ k ∈ Finset.range j, ((m_j p m_sigmas rls k).toNat : ZMod 67) := by
  induction j with
  | zero => rfl
  | succ j ih => rw [sum_of_m, mod67_cast, Nat.cast_add, ih, Finset.sum_range_succ]

lemma temp_cast (p : Bool) (m_sigmas rls : ℕ → Byte) (j : ℕ) :
    ((temp p m_sigmas rls j).toNat : ZMod 67) =
      (∑ k ∈ Finset.range (j+1), ((m_j p m_sigmas rls k).toNat : ZMod 67))
        -2*(m_j p m_sigmas rls j).toNat+if p then 1 else 0 := by
  have hlt : (m_j p m_sigmas rls j).toNat < 67 := by
    cases p with
    | true => exact mod67_lt _
    | false => exact mod67_lt _
  have h134 : ((134 : ℕ) : ZMod 67) = 0 := by decide
  have hbase : ((mod67 ((sum_of_m p m_sigmas rls (j+1)).toNat+134-2*(m_j p m_sigmas rls j).toNat)).toNat :
      ZMod 67) = (∑ k ∈ Finset.range (j+1), ((m_j p m_sigmas rls k).toNat : ZMod 67))
        -2*(m_j p m_sigmas rls j).toNat := by
    rw [mod67_cast, Nat.cast_sub (by omega), Nat.cast_add, sum_cast, h134]
    push_cast
    ring
  rw [temp]
  cases p with
  | false =>
    simp only [Bool.false_eq_true, if_false, hbase, add_zero]
  | true =>
    simp only [if_true]
    have hsmall := mod67_lt ((sum_of_m true m_sigmas rls (j+1)).toNat+134
      -2*(m_j true m_sigmas rls j).toNat)
    have hone : ∀ t : Byte, t.toNat < 67 → (t+1).toNat = t.toNat+1 := by
      intro t ht
      bv_omega
    rw [hone _ hsmall, Nat.cast_add, hbase, Nat.cast_one]

/-- Zero exactly at the first difference. -/
lemma temp_total {j : ℕ} (hj : j ≤ w) :
    total (fun p => temp p s.m_sigmas (s.rls p)) j =
      ((∑ k ∈ Finset.range j, s.differ k)+1-s.differ j : ℕ) := by
  have hm : ∀ k ≤ j, ((m_j true s.m_sigmas (s.rls true) k).toNat : ZMod 67)
      +(m_j false s.m_sigmas (s.rls false) k).toNat = (s.differ k : ℕ) :=
    fun k hk => m_j_total s (hk.trans hj)
  have hsum : (∑ k ∈ Finset.range (j+1), ((m_j true s.m_sigmas (s.rls true) k).toNat : ZMod 67))
      +∑ k ∈ Finset.range (j+1), ((m_j false s.m_sigmas (s.rls false) k).toNat : ZMod 67) =
      ∑ k ∈ Finset.range (j+1), (s.differ k : ZMod 67) := by
    rw [← Finset.sum_add_distrib]
    exact Finset.sum_congr rfl fun k hk => hm k (Nat.lt_succ_iff.mp (Finset.mem_range.mp hk))
  have hle : s.differ j ≤ (∑ k ∈ Finset.range j, s.differ k)+1 := by
    rw [Input.differ]
    split <;> omega
  rw [total, temp_cast, temp_cast, Nat.cast_sub hle, Nat.cast_add, Nat.cast_sum, Nat.cast_one]
  simp only [if_true, Bool.false_eq_true, if_false, Finset.sum_range_succ] at hsum ⊢
  linear_combination hsum-2*hm j le_rfl

/-- The sum of the differences stays below 67. -/
lemma temp_zero_iff {j : ℕ} (hj : j ≤ w) :
    total (fun p => temp p s.m_sigmas (s.rls p)) j = 0 ↔ First s.sigma s.r j := by
  have h64 := s.width_le
  have hle1 : ∀ k, s.differ k ≤ 1 := by
    intro k
    rw [Input.differ]
    split <;> omega
  have hsum : ∑ k ∈ Finset.range j, s.differ k ≤ j := by
    have h := Finset.sum_le_sum fun k (_ : k ∈ Finset.range j) => hle1 k
    simpa using h
  rw [temp_total s hj]
  by_cases hsame : s.m_sigmas j = rb s.r 1 j
  · have hdiffer : s.differ j = 0 := if_pos hsame
    rw [hdiffer, Nat.sub_zero]
    exact iff_of_false (cast_ne_zero (by omega)) fun h => h.1 hsame
  · have hdiffer : s.differ j = 1 := if_neg hsame
    rw [hdiffer, Nat.add_sub_cancel]
    constructor
    · intro hzero
      have hnone : ∑ k ∈ Finset.range j, s.differ k = 0 := by
        by_contra hpos
        exact cast_ne_zero (by omega) hzero
      refine ⟨hsame,fun k hk => ?_⟩
      have hk0 := Finset.sum_eq_zero_iff.mp hnone k (Finset.mem_range.mpr hk)
      by_contra hne
      have hk1 : s.differ k = 1 := if_neg hne
      omega
    · intro h
      have hnone : ∑ k ∈ Finset.range j, s.differ k = 0 :=
        Finset.sum_eq_zero fun k hk => if_pos (h.2 k (Finset.mem_range.mp hk))
      rw [hnone, Nat.cast_zero]

/-! ## The opened lists -/

/-- `u` and `v` as player 0 opens them. -/
def Input.u : ℕ → Byte :=
  RevealC (u_j false s.m_sigmas (s.rls false) s.delta s.w_j) (u_j true s.m_sigmas (s.rls true) s.delta s.w_j)

def Input.v : ℕ → Byte :=
  RevealC (v_j false s.m_sigmas (s.rls false) s.w_j s.w_j_p) (v_j true s.m_sigmas (s.rls true) s.w_j s.w_j_p)

/-- The bit that player 2 adds. -/
def Input.blind (j : ℕ) : Byte := 1^^^s.delta^^^s.m_sigmas j

lemma u_total (j : ℕ) : total (fun p => u_j p s.m_sigmas (s.rls p) s.delta s.w_j) j =
    total (fun p => temp p s.m_sigmas (s.rls p)) j*(s.w_j j).toNat+(s.blind j).toNat := by
  rw [total, total, Input.blind]
  simp only [u_j, if_true, Bool.false_eq_true, if_false, mod67_cast, Nat.cast_add, Nat.cast_mul]
  ring

lemma v_total (j : ℕ) : total (fun p => v_j p s.m_sigmas (s.rls p) s.w_j s.w_j_p) j =
    (total (fun p => temp p s.m_sigmas (s.rls p)) j*(s.w_j j).toNat+1)*(s.w_j_p j).toNat := by
  rw [total, total]
  simp only [v_j, if_true, Bool.false_eq_true, if_false, mod67_cast, Nat.cast_add, Nat.cast_mul, Nat.cast_one]
  ring

/-- Opening a list of two shares. -/
lemma reveal_zero_iff (f : Bool → ℕ → Byte) (j : ℕ) : RevealC (f false) (f true) j = 0 ↔ total f j = 0 := by
  rw [RevealC, mod67_eq_zero, Nat.cast_add, total, add_comm]

lemma u_zero_iff (j : ℕ) : s.u j = 0 ↔
    total (fun p => temp p s.m_sigmas (s.rls p)) j*(s.w_j j).toNat+(s.blind j).toNat = 0 := by
  rw [← u_total]
  exact reveal_zero_iff (fun p => u_j p s.m_sigmas (s.rls p) s.delta s.w_j) j

lemma v_zero_iff {j : ℕ} (hj : j ≤ w) : s.v j = 0 ↔
    total (fun p => temp p s.m_sigmas (s.rls p)) j*(s.w_j j).toNat+1 = 0 := by
  have hw' := cast_ne_zero (s.w_j_p_range j hj)
  have hreveal := reveal_zero_iff (fun p => v_j p s.m_sigmas (s.rls p) s.w_j s.w_j_p) j
  rw [v_total, mul_eq_zero, or_iff_left hw'] at hreveal
  exact hreveal

lemma delta_cases : s.delta = 0 ∨ s.delta = 1 := by
  have hlt := s.delta_lt
  rcases (by omega : s.delta.toNat = 0 ∨ s.delta.toNat = 1) with h | h
  · exact .inl (BitVec.eq_of_toNat_eq h)
  · exact .inr (BitVec.eq_of_toNat_eq h)

lemma blind_cases (j : ℕ) : s.blind j = 0 ∨ s.blind j = 1 := by
  rw [Input.blind, Input.m_sigmas]
  rcases delta_cases s with hd | hd <;> rcases rb_bit s.sigma (.inl rfl) j with hb | hb <;> rw [hd, hb] <;> decide

/-- Only a zero at the first difference counts: elsewhere `u` is 0 for the added bit alone, and then `v`
is 0 as well. -/
lemma entry_iff {j : ℕ} (hj : j ≤ w) :
    s.u j = 0 ∧ s.v j ≠ 0 ↔ First s.sigma s.r j ∧ s.blind j = 0 := by
  have hw := cast_ne_zero (s.w_j_range j hj)
  rw [u_zero_iff, Ne, v_zero_iff s hj, ← temp_zero_iff s hj]
  generalize total (fun p => temp p s.m_sigmas (s.rls p)) j = t
  by_cases ht : t = 0
  · rw [ht, zero_mul, zero_add, zero_add]
    rcases blind_cases s j with hb | hb <;> rw [hb] <;> decide
  · have hprod : t*((s.w_j j).toNat : ZMod 67) ≠ 0 := mul_ne_zero ht hw
    refine iff_of_false ?_ fun h => ht h.1
    rintro ⟨hu, hv⟩
    rcases blind_cases s j with hb | hb
    · rw [hb] at hu
      exact hprod (by simpa using hu)
    · rw [hb] at hu
      exact hv (by simpa using hu)

lemma blind_zero_iff (j : ℕ) :
    s.blind j = 0 ↔ xor (decide (s.m_sigmas j = 1)) (decide (s.delta = 1)) = true := by
  rw [Input.blind, Input.m_sigmas]
  rcases delta_cases s with hd | hd <;> rcases rb_bit s.sigma (.inl rfl) j with hb | hb <;> rw [hd, hb] <;> decide

/-- The only entry that can count is the first difference. -/
lemma accepts_iff {j : ℕ} (hj : j ≤ w) (hfirst : First s.sigma s.r j) :
    check_list s.u s.v (w+1) = true ↔ s.blind j = 0 := by
  have hlist : check_list s.u s.v (w+1) = true ↔ ∃ i < w+1, s.u i = 0 ∧ s.v i ≠ 0 := by
    simp [check_list]
  rw [hlist]
  constructor
  · rintro ⟨i, hi, hentry⟩
    obtain ⟨hfirst', hblind⟩ := (entry_iff s (Nat.lt_succ_iff.mp hi)).mp hentry
    rwa [first_unique hfirst hfirst']
  · intro hblind
    exact ⟨j,Nat.lt_succ_of_le hj,(entry_iff s hj).mpr ⟨hfirst,hblind⟩⟩

/-- Player 0 accepts the opened lists exactly when `sigma > r`, blinded by `delta`. -/
theorem sign_exact : check_list s.u s.v (w+1) = true ↔
    xor (decide (s.sigma > s.r)) (decide (s.delta = 1)) = true := by
  obtain ⟨j, hj, hfirst⟩ := exists_first s.sigma s.r
  have hgt : s.sigma > s.r ↔ s.m_sigmas j = 1 := first_lt hfirst hj
  rw [accepts_iff s hj hfirst, decide_eq_decide.mpr hgt, blind_zero_iff]

end shares

end OramPro.SignCompare
