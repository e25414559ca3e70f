import OramPro.ThreeParty

/-!
# The sign of a shared number

`Bicoptor` for `T = uint64_t`. Players 1 and 2 send their shares, shifted to the right by 63, 62, .., 0,
to player 0, who adds them up and looks for a 1 behind a 0.
-/
namespace OramPro.Bicoptor

abbrev Word := BitVec 64
abbrev Party := Fin 3

/-- `sendVector` at one party and `receiveVector` at another: the buffer of the receiver, from what was
sent and what the buffer held. They come with a library that is not part of the repository. -/
structure Vectors where
  transfer : ℕ → (ℕ → Word) → (ℕ → Word) → ℕ → Word
  inside : ∀ lens sent buffer, ∀ i < lens, transfer lens sent buffer i = sent i
  outside : ∀ lens sent buffer i, lens ≤ i → transfer lens sent buffer i = buffer i

section program

/-- `temp` of player 1 or 2 for a batch of `n` shares. -/
def shifts (n : ℕ) (x : ℕ → Word) (k : ℕ) : Word := if k < n*64 then x (k/64) >>> (64-k%64-1) else 0

/-- The loop of player 0 over the positions `j` of value `i`, up to its `break`. -/
def scan (i : ℕ) (temp2 : ℕ → Word) : List ℕ → (ℕ → Word) → (ℕ → Word) → (ℕ → Word) × (ℕ → Word)
  | [], temp1, output => (temp1,output)
  | j :: js, temp1, output =>
    let temp1 := Function.update temp1 (i*64+j) (temp1 (i*64+j)+temp2 (i*64+j))
    if j ≠ 0 ∧ temp1 (i*64+j-1) = 0 ∧ temp1 (i*64+j) = 1 then (temp1,Function.update output i 1)
    else scan i temp2 js temp1 output

def scanAll (n : ℕ) (temp1 temp2 output : ℕ → Word) : (ℕ → Word) × (ℕ → Word) :=
  (List.range n).foldl (fun s i => scan i temp2 (List.range 64) s.1 s.2) (temp1,output)

variable (net : Vectors) (n : ℕ)

/-- `online` at the three players; player 0 reads no share. -/
def online (x output : Party → ℕ → Word) : Party → ℕ → Word :=
  let temp1 := net.transfer (n*64) (shifts n (x 1)) 0
  let temp2 := net.transfer (n*64) (shifts n (x 2)) 0
  let output0 := (scanAll n temp1 temp2 (output 0)).2
  fun p => if p = 0 then output0 else net.transfer n output0 (output p)

end program

/-! ## The search of player 0 -/

/-- The sum at position `j`. -/
def sum (s t : Word) (j : ℕ) : Word := (s >>> (64-j-1))+(t >>> (64-j-1))

/-- A 1 behind a 0, from position `j0` on. -/
def Pattern (s t : Word) (j0 : ℕ) : Prop := ∃ j < 64, j0 ≤ j ∧ j ≠ 0 ∧ sum s t (j-1) = 0 ∧ sum s t j = 1

instance decidablePattern (s t : Word) (j0 : ℕ) : Decidable (Pattern s t j0) :=
  inferInstanceAs (Decidable (∃ j < 64, j0 ≤ j ∧ j ≠ 0 ∧ sum s t (j-1) = 0 ∧ sum s t j = 1))

section search
variable {i n : ℕ} {temp1 temp2 output : ℕ → Word} {s t : ℕ → Word}

/-- Without a match at `j0` the pattern is found behind it or not at all. -/
lemma pattern_succ {s t : Word} {j0 : ℕ} (h : ¬(j0 ≠ 0 ∧ sum s t (j0-1) = 0 ∧ sum s t j0 = 1)) :
    Pattern s t (j0+1) ↔ Pattern s t j0 := by
  constructor
  · rintro ⟨j, hj, hle, hmatch⟩
    exact ⟨j,hj,by omega,hmatch⟩
  · rintro ⟨j, hj, hle, hmatch⟩
    rcases hle.eq_or_lt with rfl | hlt
    · exact absurd hmatch h
    · exact ⟨j,hj,hlt,hmatch⟩

lemma scan_outside (js : List ℕ) (hjs : ∀ j ∈ js, j < 64) {k : ℕ} (hk : k < i*64 ∨ i*64+64 ≤ k) :
    (scan i temp2 js temp1 output).1 k = temp1 k := by
  induction js generalizing temp1 output with
  | nil => rfl
  | cons j js ih =>
    rw [List.forall_mem_cons] at hjs
    rw [scan]
    split_ifs
    · exact Function.update_of_ne (by omega) _ _
    · rw [ih hjs.2, Function.update_of_ne (by omega)]

/-- Before position `j0` the sums are in place. -/
lemma scan_output (s t : Word) (m : ℕ) : ∀ j0 temp1, j0+m = 64 →
    (∀ j < j0, temp1 (i*64+j) = sum s t j) →
    (∀ j < 64, j0 ≤ j → temp1 (i*64+j)+temp2 (i*64+j) = sum s t j) →
    (scan i temp2 (List.range' j0 m) temp1 output).2 =
      if Pattern s t j0 then Function.update output i 1 else output := by
  induction m with
  | zero =>
    intro j0 temp1 h64 _ _
    rw [List.range'_zero, scan, if_neg]
    rintro ⟨j, hj, hj0, -⟩
    omega
  | succ m ih =>
    intro j0 temp1 h64 hbefore hafter
    have hself : Function.update temp1 (i*64+j0) (temp1 (i*64+j0)+temp2 (i*64+j0)) (i*64+j0) =
        sum s t j0 := by rw [Function.update_self, hafter j0 (by omega) le_rfl]
    have hprev : j0 ≠ 0 → Function.update temp1 (i*64+j0) (temp1 (i*64+j0)+temp2 (i*64+j0)) (i*64+j0-1) =
        sum s t (j0-1) := fun h => by
      rw [Function.update_of_ne (by omega), (by omega : i*64+j0-1 = i*64+(j0-1)), hbefore _ (by omega)]
    rw [List.range'_succ, scan]
    simp only [hself]
    by_cases hfound : j0 ≠ 0 ∧ sum s t (j0-1) = 0 ∧ sum s t j0 = 1
    · rw [if_pos ⟨hfound.1,(hprev hfound.1).trans hfound.2.1,hfound.2.2⟩,
        if_pos ⟨j0,by omega,le_rfl,hfound⟩]
    · have hnot : ¬(j0 ≠ 0 ∧ Function.update temp1 (i*64+j0) (temp1 (i*64+j0)+temp2 (i*64+j0)) (i*64+j0-1) = 0 ∧
          sum s t j0 = 1) := fun h => hfound ⟨h.1,(hprev h.1).symm.trans h.2.1,h.2.2⟩
      rw [if_neg hnot, ih (j0+1) _ (by omega)]
      · exact if_congr (pattern_succ hfound) rfl rfl
      · intro j hj
        rcases (Nat.lt_succ_iff.mp hj).eq_or_lt with rfl | hlt
        · exact hself
        · rw [Function.update_of_ne (by omega), hbefore j hlt]
      · intro j hj hle
        rw [Function.update_of_ne (by omega), hafter j hj (by omega)]

/-- The first `m` values have been searched. -/
structure Scanned (s t temp1 output : ℕ → Word) (m : ℕ) (x : (ℕ → Word) × (ℕ → Word)) : Prop where
  rest : ∀ i, m ≤ i → ∀ j < 64, x.1 (i*64+j) = temp1 (i*64+j)
  output : ∀ i, x.2 i = if i < m ∧ Pattern (s i) (t i) 0 then 1 else output i

lemma Scanned.turn {m : ℕ} {x : (ℕ → Word) × (ℕ → Word)} (h : Scanned s t temp1 output m x)
    (hm : ∀ j < 64, temp1 (m*64+j)+temp2 (m*64+j) = sum (s m) (t m) j) :
    Scanned s t temp1 output (m+1) (scan m temp2 (List.range 64) x.1 x.2) := by
  refine ⟨fun i hi j hj => ?_,fun i => ?_⟩
  · rw [scan_outside _ (fun _ => List.mem_range.mp) (.inr (by omega)), h.rest i (by omega) j hj]
  · rw [List.range_eq_range', scan_output (s m) (t m) 64 0 _ rfl (by simp) fun j hj _ => by
      rw [h.rest m le_rfl j hj, hm j hj]]
    rcases eq_or_ne i m with rfl | hne
    · by_cases hp : Pattern (s i) (t i) 0
      · rw [if_pos hp, Function.update_self, if_pos ⟨by omega,hp⟩]
      · rw [if_neg hp, h.output, if_neg (fun h => hp h.2), if_neg (fun h => hp h.2)]
    · have hkept : (if Pattern (s m) (t m) 0 then Function.update x.2 m 1 else x.2) i = x.2 i := by
        split_ifs
        · exact Function.update_of_ne hne _ _
        · rfl
      rw [hkept, h.output]
      exact if_congr (and_congr_left' (by omega)) rfl rfl

/-- The values are searched one by one. -/
lemma scanAll_scanned (output : ℕ → Word)
    (h : ∀ i < n, ∀ j < 64, temp1 (i*64+j)+temp2 (i*64+j) = sum (s i) (t i) j) :
    Scanned s t temp1 output n (scanAll n temp1 temp2 output) :=
  CountLoop.foldl_range ⟨fun _ _ _ _ => rfl,fun i => (if_neg (by simp)).symm⟩
    fun m hm _ hx => hx.turn (h m hm)

end search

/-! ## When the search succeeds -/

/-- Both shares are below `2^63` and their binary lengths differ. -/
def Found (s t : Word) : Prop := s.toNat < 2^63 ∧ t.toNat < 2^63 ∧ s.toNat.size ≠ t.toNat.size

instance decidableFound (s t : Word) : Decidable (Found s t) :=
  inferInstanceAs (Decidable (s.toNat < 2^63 ∧ t.toNat < 2^63 ∧ s.toNat.size ≠ t.toNat.size))

section pattern
variable (s t : Word)

lemma sum_toNat (j : ℕ) : (sum s t j).toNat = (s.toNat/2^(64-j-1)+t.toNat/2^(64-j-1))%2^64 := by
  rw [sum, BitVec.toNat_add, BitVec.toNat_ushiftRight, BitVec.toNat_ushiftRight, Nat.shiftRight_eq_div_pow,
    Nat.shiftRight_eq_div_pow]

/-- The sum of shares that are shifted at all does not wrap. -/
lemma sum_eq_zero_iff {j : ℕ} (hj : j < 63) :
    sum s t j = 0 ↔ s.toNat < 2^(64-j-1) ∧ t.toNat < 2^(64-j-1) := by
  have hhalf : ∀ x : Word, x.toNat/2^(64-j-1) < 2^63 := fun x => by
    rw [Nat.div_lt_iff_lt_mul (by positivity)]
    have hpow : 2^1 ≤ 2^(64-j-1) := Nat.pow_le_pow_right (by omega) (by omega)
    have := x.isLt
    omega
  have hs := hhalf s
  have ht := hhalf t
  rw [← BitVec.toNat_inj, sum_toNat, Nat.mod_eq_of_lt (by omega)]
  simp only [BitVec.ofNat_eq_ofNat, BitVec.toNat_ofNat, Nat.zero_mod, Nat.add_eq_zero_iff,
    Nat.div_eq_zero_iff]
  have hpos := Nat.two_pow_pos (64-j-1)
  omega

lemma size_lt_of_digit {k a b : ℕ} (hb : b < 2^k) (ha : 2^k ≤ a) : b.size < a.size :=
  (Nat.size_le.mpr hb).trans_lt (Nat.lt_size.mpr ha)

lemma pattern_comm : Pattern s t 0 ↔ Pattern t s 0 := by
  have hcomm : ∀ j, sum s t j = sum t s j := fun j => BitVec.add_comm _ _
  simp only [Pattern, hcomm]

/-- The longer share has its first digit alone. -/
lemma pattern_of_size_lt (h : s.toNat.size < t.toNat.size) (ht : t.toNat < 2^63) : Pattern s t 0 := by
  obtain ⟨k, hk⟩ : ∃ k, t.toNat.size = k+1 := ⟨t.toNat.size-1,by omega⟩
  have hlen : k+1 ≤ 63 := hk ▸ Nat.size_le.mpr ht
  have hs : s.toNat < 2^k := Nat.size_le.mp (by omega)
  have ht0 : 2^k ≤ t.toNat := Nat.lt_size.mp (by omega)
  have ht1 : t.toNat < 2^(k+1) := hk ▸ Nat.lt_size_self t.toNat
  refine ⟨63-k,by omega,by omega,by omega,?_,?_⟩
  · rw [sum_eq_zero_iff s t (by omega), (by omega : 64-(63-k-1)-1 = k+1)]
    rw [pow_succ] at ht1 ⊢
    omega
  · have hquot : t.toNat/2^k = 1 := Nat.div_eq_of_lt_le (by omega) (by rw [pow_succ] at ht1; omega)
    rw [← BitVec.toNat_inj, sum_toNat, (by omega : 64-(63-k)-1 = k), Nat.div_eq_of_lt hs, hquot]
    rfl

lemma pattern_iff : Pattern s t 0 ↔ Found s t := by
  constructor
  · rintro ⟨j, hj, -, hj0, hzero, hone⟩
    obtain ⟨k, rfl⟩ : ∃ k, j = 63-k := ⟨63-j,by omega⟩
    have hk : k < 63 := by omega
    rw [sum_eq_zero_iff s t (by omega), (by omega : 64-(63-k-1)-1 = k+1)] at hzero
    rw [← BitVec.toNat_inj, sum_toNat, (by omega : 64-(63-k)-1 = k)] at hone
    have hquot : ∀ x : Word, x.toNat < 2^(k+1) → x.toNat/2^k < 2 := fun x hx =>
      Nat.div_lt_of_lt_mul (by rwa [pow_succ] at hx)
    have hs := hquot s hzero.1
    have ht := hquot t hzero.2
    have hsum : s.toNat/2^k+t.toNat/2^k = 1 := by
      rw [Nat.mod_eq_of_lt (by omega)] at hone
      exact hone
    have hpow : 2^(k+1) ≤ 2^63 := Nat.pow_le_pow_right (by omega) (by omega)
    have hpos := Nat.two_pow_pos k
    refine ⟨hzero.1.trans_le hpow,hzero.2.trans_le hpow,?_⟩
    rcases Nat.eq_zero_or_pos (s.toNat/2^k) with hs0 | hs0
    · have hlow := (Nat.div_eq_zero_iff_lt hpos).mp hs0
      have hhigh := (Nat.div_pos_iff.mp (by omega : 0 < t.toNat/2^k)).2
      exact (size_lt_of_digit hlow hhigh).ne
    · have hlow := (Nat.div_eq_zero_iff_lt hpos).mp (by omega : t.toNat/2^k = 0)
      exact (size_lt_of_digit hlow (Nat.div_pos_iff.mp hs0).2).ne'
  · rintro ⟨hs, ht, hne⟩
    rcases hne.lt_or_gt with hlt | hgt
    · exact pattern_of_size_lt s t hlt ht
    · exact (pattern_comm s t).mpr (pattern_of_size_lt t s hgt hs)

/-- For a small secret that is not positive, the shares have the same length or one is long. -/
lemma not_found_of_nonpos (hsmall : (s+t).toInt.natAbs < 2^62) (h : ¬ 0 < (s+t).toInt) : ¬ Found s t := by
  rintro ⟨hs, ht, hne⟩
  have hadd : (s+t).toNat = s.toNat+t.toNat := by
    rw [BitVec.toNat_add, Nat.mod_eq_of_lt (by omega)]
  have hcond := BitVec.toInt_eq_toNat_cond (s+t)
  rw [hadd] at hcond
  rcases Nat.eq_zero_or_pos (s.toNat+t.toNat) with hzero | hpos
  · obtain ⟨h0, h1⟩ := Nat.add_eq_zero_iff.mp hzero
    exact hne (by rw [h0, h1])
  · have hbig : 2^62 ≤ s.toNat ∧ 2^62 ≤ t.toNat := by
      split_ifs at hcond <;> omega
    have hsize : ∀ n, 2^62 ≤ n → n < 2^63 → n.size = 63 := fun n hlow hhigh =>
      le_antisymm (Nat.size_le.mpr hhigh) (Nat.lt_size.mpr hlow)
    exact hne ((hsize _ hbig.1 hs).trans (hsize _ hbig.2 ht).symm)

end pattern

/-! ## Batches -/

/-- Small secrets by their shares of players 1 and 2. -/
structure Batch where
  size : ℕ
  share : Party → ℕ → Word
  small : ∀ i < size, (share 1 i+share 2 i).toInt.natAbs < 2^62

namespace Batch
variable (b : Batch)

def secret (i : ℕ) : ℤ := (b.share 1 i+b.share 2 i).toInt

/-- What the players hold in `output` after `online`, from zeros. -/
def output (net : Vectors) : Party → ℕ → Word := online net b.size b.share 0

end Batch

lemma output_eq (net : Vectors) (b : Batch) (p : Party) {i : ℕ} (hi : i < b.size) :
    b.output net p i = if Found (b.share 1 i) (b.share 2 i) then 1 else 0 := by
  have hsum : ∀ i < b.size, ∀ j < 64, net.transfer (b.size*64) (shifts b.size (b.share 1)) 0 (i*64+j)+
      net.transfer (b.size*64) (shifts b.size (b.share 2)) 0 (i*64+j) =
      sum (b.share 1 i) (b.share 2 i) j := fun i hi j hj => by
    have hk : i*64+j < b.size*64 := by omega
    have hdiv : (i*64+j)/64 = i := by omega
    have hmod : (i*64+j)%64 = j := by omega
    rw [net.inside _ _ _ _ hk, net.inside _ _ _ _ hk, shifts, shifts, if_pos hk, hdiv, hmod, if_pos hk, sum]
  have hout := (scanAll_scanned 0 hsum).output i
  rw [if_congr ((and_iff_right hi).trans (pattern_iff _ _)) rfl rfl, Pi.zero_apply] at hout
  rw [← hout, Batch.output, online]
  dsimp only
  split_ifs
  · rfl
  · exact net.inside _ _ _ i hi

/-- All players get the signs exactly if for every positive secret both shares are below `2^63` and
their binary lengths differ. -/
theorem sign_iff (net : Vectors) (b : Batch) :
    (∀ p, ∀ i < b.size, b.output net p i = if 0 < b.secret i then 1 else 0) ↔
      ∀ i < b.size, 0 < b.secret i → Found (b.share 1 i) (b.share 2 i) := by
  constructor
  · intro h i hi hpos
    have hone := h 0 i hi
    rw [output_eq net b 0 hi, if_pos hpos] at hone
    by_contra hnot
    rw [if_neg hnot] at hone
    exact absurd hone (by decide)
  · intro h p i hi
    rw [output_eq net b p hi]
    refine if_congr ⟨fun hf => ?_,h i hi⟩ rfl rfl
    by_contra hneg
    exact not_found_of_nonpos _ _ (b.small i hi) hneg hf

/-- A connection that delivers what is sent. -/
def direct : Vectors where
  transfer lens sent buffer i := if i < lens then sent i else buffer i
  inside _ _ _ _ h := if_pos h
  outside _ _ _ _ h := if_neg (not_lt.mpr h)

/-- The number 1 in the shares 1 and 0, and in the shares -1 and 2. -/
def wrapped : Batch where
  size := 2
  share p i := if p = 1 then (if i = 0 then 1 else -1) else (if i = 0 then 0 else 2)
  small := by decide

/-- For one sharing the sign is found, for the other it is not. -/
theorem sign_depends_on_sharing : wrapped.secret 0 = 1 ∧ wrapped.secret 1 = 1 ∧
    wrapped.output direct 1 0 = 1 ∧ wrapped.output direct 1 1 = 0 := by
  refine ⟨by decide,by decide,?_,?_⟩
  · rw [output_eq direct wrapped 1 (by decide)]
    exact if_pos (by decide)
  · rw [output_eq direct wrapped 1 (by decide)]
    exact if_neg (by decide)

end OramPro.Bicoptor
