import OramPro.Spdz

/-!
# Parameters of the commitments

`init_` draws the bases, `share` deals and commits, `add` adds shares and multiplies commitments,
and `reveal` opens. The modulus that `init_` calls `prime` is composite, and no order of a residue
divides the modulus of the exponents.
-/
namespace OramPro.SPDZ

/-- `mpz_nextprime`: the first prime above `n`. -/
def nextprime (n : ℕ) : ℕ := Nat.find (Nat.exists_infinite_primes (n+1))

/-- `randomm` and `get_seed`: eight random bytes, the highest first, modulo `pri`. -/
def randomm (bytes : ℕ → Byte) (pri : ℕ) : ℕ :=
  (List.range 8).foldl (fun v j => v*256+(bytes j).toNat) 0%pri

/-- The random bytes of one run of `init_`. -/
structure InitDraw where
  k : ℕ → Byte
  first : ℕ → Byte
  second : ℕ → Byte

/-- `init_`. The exponent `k` is drawn like the bases. -/
def init_ (FIELD_LEN : ℕ) (d : InitDraw) : Commitment :=
  let q := nextprime (2^FIELD_LEN)
  let prime := q*2+1
  let k := randomm d.k q
  ⟨prime,q,(randomm d.first q)^k%prime,(randomm d.second q)^k%prime⟩

section
variable (COM : Commitment) (Ps : List ℕ) (owner : ℕ)

/-- `add_share` of one number: the owner subtracts what it draws together with the others. -/
def add_share (seed : ℕ → ℕ → Byte) (data p : ℕ) : ℕ :=
  if p = owner then
    (Ps.filter (· ≠ owner)).foldl (fun a p' => (a+COM.q-randomm (seed p') COM.q)%COM.q) data
  else randomm (seed p) COM.q

/-- `share`; the commitments stay with the owner. -/
def share (data r : List ℕ) (seed seed_r : ℕ → ℕ → ℕ → Byte) (p : ℕ) : List Amaterial :=
  (List.range data.length).map fun i =>
    ⟨add_share COM Ps owner (seed i) (data.getD i 0) p,
      add_share COM Ps owner (seed_r i) (r.getD i 0) p,
      if p = owner then COM.comit (data.getD i 0) (r.getD i 0) else 0⟩

def add (a b : List Amaterial) : List Amaterial :=
  (List.range a.length).map fun i =>
    let a := a.getD i default
    let b := b.getD i default
    ⟨(a.m+b.m)%COM.q,(a.r+b.r)%COM.q,COM.cadd a.c b.c⟩

/-- Place `i` of the array that the owner has after `add_reveal`. -/
def add_reveal (data : ℕ → List ℕ) (i : ℕ) : ℕ :=
  (Ps.filter (· ≠ owner)).foldl (fun v p' => (byte2mpz (mpz2byte (data p')) i+v)%COM.q)
    ((data owner).getD i 0)

/-- What the owner of `reveal` returns and what it prints. -/
structure Revealed where
  res : List ℕ
  decomits : Bool
  deriving DecidableEq

/-- `reveal` at the owner. -/
def reveal (data : ℕ → List Amaterial) : Revealed :=
  let ms_rs := fun p => (data p).map Amaterial.m++(data p).map Amaterial.r
  let n := (data owner).length
  let m := add_reveal COM Ps owner ms_rs
  ⟨(List.range n).map m,
    (List.range n).all fun i => COM.decomit ((data owner).getD i default).c (m i) (m (i+n))⟩

end

/-! ## The modulus of the exponents -/

lemma prime_field : Nat.Prime 4294967311 := by
  refine lucas_primality _ (3 : ZMod 4294967311) (by reduce_mod_char) fun r hr hd => ?_
  have hperm := Nat.primeFactorsList_unique (n := 4294967311-1) (l := [2,3,3,5,131,364289])
    (by norm_num) (by norm_num)
  have hmem : r ∈ [2,3,3,5,131,364289] :=
    hperm.mem_iff.mpr ((Nat.mem_primeFactorsList (by norm_num)).mpr ⟨hr,hd⟩)
  simp only [List.mem_cons, List.not_mem_nil, or_false] at hmem
  rcases hmem with rfl | rfl | rfl | rfl | rfl | rfl <;> reduce_mod_char <;> decide

lemma nextprime_field : nextprime (2^32) = 4294967311 := by
  rw [nextprime, Nat.find_eq_iff]
  refine ⟨⟨by norm_num, prime_field⟩,fun n hn => ?_⟩
  rintro ⟨hge, hp⟩
  interval_cases n <;> revert hp <;> norm_num

/-- Modulo a prime `r`, no residue but one has an order that divides both `q` and `r-1`. -/
lemma eq_one_of_pow {x q r : ℕ} (hr : r.Prime) (hpos : 0 < q) (hq : Nat.Coprime q (r-1))
    (h : x^q ≡ 1 [MOD r]) : x ≡ 1 [MOD r] := by
  have : Fact r.Prime := ⟨hr⟩
  have hpow : (x : ZMod r)^q = 1 := by
    have := (ZMod.natCast_eq_natCast_iff _ _ _).mpr h
    rwa [Nat.cast_pow, Nat.cast_one] at this
  have hne : (x : ZMod r) ≠ 0 := by
    intro h0
    rw [h0, zero_pow hpos.ne'] at hpow
    exact zero_ne_one hpow
  have hone : (x : ZMod r) = 1 := by
    rw [← pow_one (x : ZMod r), ← hq, pow_gcd_eq_one]
    exact ⟨hpow,ZMod.pow_card_sub_one_eq_one hne⟩
  rw [← ZMod.natCast_eq_natCast_iff, hone, Nat.cast_one]

/-- `2*q+1` is `3*1381*2073361`, and `q` divides none of the three orders. -/
lemma pow_field_iff {x : ℕ} : x^4294967311 ≡ 1 [MOD 8589934623] ↔ x ≡ 1 [MOD 8589934623] := by
  constructor
  · intro h
    have hsplit : 8589934623 = 3*1381*2073361 := by norm_num
    rw [hsplit] at h ⊢
    rw [← Nat.modEq_and_modEq_iff_modEq_mul (by norm_num),
      ← Nat.modEq_and_modEq_iff_modEq_mul (by norm_num)] at h ⊢
    obtain ⟨⟨h0, h1⟩, h2⟩ := h
    exact ⟨⟨eq_one_of_pow (by norm_num) (by norm_num) (by norm_num) h0,
      eq_one_of_pow (by norm_num) (by norm_num) (by norm_num) h1⟩,
      eq_one_of_pow (by norm_num) (by norm_num) (by norm_num) h2⟩
  · intro h
    exact (h.pow _).trans (by rw [one_pow])

lemma init_q (d : InitDraw) : (init_ 32 d).q = 4294967311 := nextprime_field

lemma init_prime (d : InitDraw) : (init_ 32 d).prime = 8589934623 := by
  rw [init_, nextprime_field]

lemma init_bases (d : InitDraw) :
    (init_ 32 d).g ≡ randomm d.first 4294967311^randomm d.k 4294967311 [MOD 8589934623] ∧
      (init_ 32 d).h ≡ randomm d.second 4294967311^randomm d.k 4294967311 [MOD 8589934623] := by
  rw [init_, nextprime_field]
  exact ⟨Nat.mod_modEq _ _,Nat.mod_modEq _ _⟩

/-! ## Dealing and opening -/

section open_
variable {COM : Commitment} {Ps : List ℕ} {owner : ℕ}

lemma randomm_lt [NeZero COM.q] (bytes : ℕ → Byte) : randomm bytes COM.q < COM.q :=
  Nat.mod_lt _ (NeZero.pos COM.q)

lemma foldl_sub_cast (f : ℕ → ℕ) (hf : ∀ y, f y < COM.q) (l : List ℕ) (v : ℕ) :
    ((l.foldl (fun a y => (a+COM.q-f y)%COM.q) v : ℕ) : ZMod COM.q) =
      v-(l.map fun y => (f y : ZMod COM.q)).sum := by
  induction l generalizing v with
  | nil => simp
  | cons y l ih =>
    have hle : f y ≤ v+COM.q := (hf y).le.trans (Nat.le_add_left _ _)
    rw [List.foldl_cons, ih, ZMod.natCast_mod, Nat.cast_sub hle, Nat.cast_add, ZMod.natCast_self,
      List.map_cons, List.sum_cons]
    ring

lemma add_share_total [NeZero COM.q] (hnd : Ps.Nodup) (ho : owner ∈ Ps) (seed : ℕ → ℕ → Byte)
    (data : ℕ) : (total Ps fun p => (add_share COM Ps owner seed data p : ZMod COM.q)) = data := by
  rw [total, ← sum_others hnd ho, add_share, if_pos rfl,
    foldl_sub_cast (fun p => randomm (seed p) COM.q) fun p => randomm_lt _]
  have hrest : (Ps.filter (· ≠ owner)).map
      (fun p => (add_share COM Ps owner seed data p : ZMod COM.q)) =
      (Ps.filter (· ≠ owner)).map fun p => (randomm (seed p) COM.q : ZMod COM.q) := by
    refine List.map_congr_left fun p hp => ?_
    rw [add_share, if_neg (by simpa using (List.mem_filter.mp hp).2)]
  rw [hrest, sub_add_cancel]

lemma add_reveal_fold (data : ℕ → List ℕ) (i : ℕ) : add_reveal COM Ps owner data i =
    (Ps.filter (· ≠ owner)).foldl (fun v p => (v+byte2mpz (mpz2byte (data p)) i)%COM.q)
      ((data owner).getD i 0) := by
  simp only [add_reveal, Nat.add_comm]

/-- What the owner opens is congruent to the sum of what all parties hold. -/
lemma add_reveal_cast (hnd : Ps.Nodup) (ho : owner ∈ Ps) {data : ℕ → List ℕ} {i : ℕ}
    (hlen : ∀ p ∈ Ps, i < (data p).length) (hsmall : ∀ p ∈ Ps, (data p).getD i 0 < 2^64) :
    (add_reveal COM Ps owner data i : ZMod COM.q) = total Ps fun p => ((data p).getD i 0 : ZMod COM.q) := by
  rw [add_reveal_fold, foldl_mod_cast, total, ← sum_others hnd ho]
  congr 2
  refine List.map_congr_left fun p hp => ?_
  have hp := List.mem_of_mem_filter hp
  rw [byte2mpz_mpz2byte (hlen p hp) (hsmall p hp)]

/-- What the owner opens is the sum of what all parties hold. -/
lemma add_reveal_eq [NeZero COM.q] (hq : COM.q < 2^64) (hnd : Ps.Nodup) (ho : owner ∈ Ps)
    {data : ℕ → List ℕ} {i v : ℕ} (hlen : ∀ p ∈ Ps, i < (data p).length)
    (hlt : ∀ p ∈ Ps, (data p).getD i 0 < COM.q) (hv : v < COM.q)
    (hsum : (total Ps fun p => ((data p).getD i 0 : ZMod COM.q)) = v) :
    add_reveal COM Ps owner data i = v := by
  have hcast : (add_reveal COM Ps owner data i : ZMod COM.q) = v :=
    (add_reveal_cast hnd ho hlen fun p hp => (hlt p hp).trans hq).trans hsum
  have hsmall : add_reveal COM Ps owner data i < COM.q := by
    rw [add_reveal_fold]
    by_cases hnil : Ps.filter (· ≠ owner) = []
    · rw [hnil]
      exact hlt owner ho
    · exact foldl_mod_lt _ hnil _
  exact ((ZMod.natCast_eq_natCast_iff _ _ _).mp hcast).eq_of_lt_of_lt hsmall hv

end open_

/-! ## Sums of dealt numbers -/

/-- What a dealer draws for a vector of values with their randomness. -/
structure Dealing where
  data : List ℕ
  r : List ℕ
  seed : ℕ → ℕ → ℕ → Byte
  seed_r : ℕ → ℕ → ℕ → Byte

def Dealing.share (COM : Commitment) (Ps : List ℕ) (owner : ℕ) (x : Dealing) : ℕ → List Amaterial :=
  SPDZ.share COM Ps owner x.data x.r x.seed x.seed_r

structure Dealing.Reduced (COM : Commitment) (N : ℕ) (x : Dealing) : Prop where
  data_length : x.data.length = N
  r_length : x.r.length = N
  data_lt : ∀ i < N, x.data.getD i 0 < COM.q
  r_lt : ∀ i < N, x.r.getD i 0 < COM.q

/-- One value, with zero bytes for the seeds. -/
def single (m r : ℕ) : Dealing := ⟨[m],[r],fun _ _ _ => 0,fun _ _ _ => 0⟩

lemma single_reduced {COM : Commitment} {m r : ℕ} (hm : m < COM.q) (hr : r < COM.q) :
    (single m r).Reduced COM 1 :=
  ⟨rfl,rfl,by simpa [single] using hm,by simpa [single] using hr⟩

/-- The product of two commitments is the commitment to the reduced sums. -/
def Fits (COM : Commitment) (m m' r r' : ℕ) : Prop :=
  COM.cadd (COM.comit m r) (COM.comit m' r') = COM.comit ((m+m')%COM.q) ((r+r')%COM.q)

instance (COM : Commitment) (m m' r r' : ℕ) : Decidable (Fits COM m m' r r') :=
  inferInstanceAs (Decidable (_ = _))

section sum
variable {COM : Commitment} {Ps : List ℕ} {owner N : ℕ} {x y : Dealing}

lemma share_length (p : ℕ) : (x.share COM Ps owner p).length = x.data.length := by
  simp [Dealing.share, share]

lemma share_getD {i : ℕ} (hi : i < x.data.length) (p : ℕ) :
    (x.share COM Ps owner p).getD i default =
      ⟨add_share COM Ps owner (x.seed i) (x.data.getD i 0) p,
        add_share COM Ps owner (x.seed_r i) (x.r.getD i 0) p,
        if p = owner then COM.comit (x.data.getD i 0) (x.r.getD i 0) else 0⟩ := by
  simp [Dealing.share, share, hi]

lemma add_length (a b : List Amaterial) : (add COM a b).length = a.length := by simp [add]

lemma add_getD {a : List Amaterial} {i : ℕ} (hi : i < a.length) (b : List Amaterial) :
    (add COM a b).getD i default =
      ⟨((a.getD i default).m+(b.getD i default).m)%COM.q,
        ((a.getD i default).r+(b.getD i default).r)%COM.q,
        COM.cadd (a.getD i default).c (b.getD i default).c⟩ := by
  simp [add, hi]

lemma getD_left {l : List Amaterial} {i : ℕ} (hi : i < l.length) :
    (l.map Amaterial.m++l.map Amaterial.r).getD i 0 = (l.getD i default).m := by
  simp [List.getElem?_append, hi]

lemma getD_right {l : List Amaterial} {i : ℕ} (hi : i < l.length) :
    (l.map Amaterial.m++l.map Amaterial.r).getD (i+l.length) 0 = (l.getD i default).r := by
  simp [hi]

/-- A place where every party holds the sum of two shares opens to the sum of the two numbers. -/
lemma add_reveal_add [NeZero COM.q] (hq : COM.q < 2^64) (hnd : Ps.Nodup) (ho : owner ∈ Ps)
    {data : ℕ → List ℕ} {i : ℕ} (hlen : ∀ p, i < (data p).length) (seed seed' : ℕ → ℕ → Byte)
    (v v' : ℕ) (hplace : ∀ p, (data p).getD i 0 =
      (add_share COM Ps owner seed v p+add_share COM Ps owner seed' v' p)%COM.q) :
    add_reveal COM Ps owner data i = (v+v')%COM.q := by
  have hpos := NeZero.pos COM.q
  refine add_reveal_eq hq hnd ho (fun p _ => hlen p) (fun p _ => ?_) (Nat.mod_lt _ hpos) ?_
  · rw [hplace p]
    exact Nat.mod_lt _ hpos
  · have hcast : ∀ p ∈ Ps, ((data p).getD i 0 : ZMod COM.q) =
        (add_share COM Ps owner seed v p : ZMod COM.q)+add_share COM Ps owner seed' v' p := by
      intro p _
      rw [hplace p, ZMod.natCast_mod, Nat.cast_add]
    rw [total_congr hcast, total_add, add_share_total hnd ho, add_share_total hnd ho,
      ZMod.natCast_mod, Nat.cast_add]

/-- Entry `i` of the sum at party `p`. -/
lemma share_add_getD (hx : x.Reduced COM N) (hy : y.Reduced COM N) {i : ℕ} (hi : i < N) (p : ℕ) :
    (add COM (x.share COM Ps owner p) (y.share COM Ps owner p)).getD i default =
      ⟨(add_share COM Ps owner (x.seed i) (x.data.getD i 0) p+
          add_share COM Ps owner (y.seed i) (y.data.getD i 0) p)%COM.q,
        (add_share COM Ps owner (x.seed_r i) (x.r.getD i 0) p+
          add_share COM Ps owner (y.seed_r i) (y.r.getD i 0) p)%COM.q,
        COM.cadd (if p = owner then COM.comit (x.data.getD i 0) (x.r.getD i 0) else 0)
          (if p = owner then COM.comit (y.data.getD i 0) (y.r.getD i 0) else 0)⟩ := by
  have hlx : (x.share COM Ps owner p).length = N := (share_length p).trans hx.data_length
  rw [add_getD (by rwa [hlx]), share_getD (by rwa [hx.data_length]),
    share_getD (by rwa [hy.data_length])]

lemma reveal_add [NeZero COM.q] (hq : COM.q < 2^64) (hnd : Ps.Nodup) (ho : owner ∈ Ps)
    (hx : x.Reduced COM N) (hy : y.Reduced COM N) :
    reveal COM Ps owner (fun p => add COM (x.share COM Ps owner p) (y.share COM Ps owner p)) =
      ⟨List.zipWith (fun m m' => (m+m')%COM.q) x.data y.data,
        (List.range N).all fun i => decide
          (Fits COM (x.data.getD i 0) (y.data.getD i 0) (x.r.getD i 0) (y.r.getD i 0))⟩ := by
  have hlen : ∀ p, (add COM (x.share COM Ps owner p) (y.share COM Ps owner p)).length = N :=
    fun p => (add_length _ _).trans ((share_length p).trans hx.data_length)
  have hm : ∀ i < N, add_reveal COM Ps owner (fun p =>
      (add COM (x.share COM Ps owner p) (y.share COM Ps owner p)).map Amaterial.m++
        (add COM (x.share COM Ps owner p) (y.share COM Ps owner p)).map Amaterial.r) i =
      (x.data.getD i 0+y.data.getD i 0)%COM.q := by
    intro i hi
    refine add_reveal_add hq hnd ho (fun p => ?_) _ _ _ _ fun p => (getD_left ?_).trans
      (congrArg Amaterial.m (share_add_getD hx hy hi p))
    · simp only [List.length_append, List.length_map, hlen]
      omega
    · rwa [hlen p]
  have hr : ∀ i < N, add_reveal COM Ps owner (fun p =>
      (add COM (x.share COM Ps owner p) (y.share COM Ps owner p)).map Amaterial.m++
        (add COM (x.share COM Ps owner p) (y.share COM Ps owner p)).map Amaterial.r) (i+N) =
      (x.r.getD i 0+y.r.getD i 0)%COM.q := by
    intro i hi
    have hplace : ∀ p, _ := fun p => (getD_right (by rwa [hlen p])).trans
      (congrArg Amaterial.r (share_add_getD hx hy hi p))
    simp only [hlen] at hplace
    refine add_reveal_add hq hnd ho (fun p => ?_) _ _ _ _ hplace
    simp only [List.length_append, List.length_map, hlen]
    omega
  simp only [reveal, hlen, Revealed.mk.injEq]
  constructor
  · refine List.ext_getElem (by simp [hx.data_length, hy.data_length]) fun i hi _ => ?_
    have hi : i < N := by simpa using hi
    simp [hm i hi, hx.data_length, hy.data_length, hi]
  · rw [Bool.eq_iff_iff]
    simp only [List.all_eq_true, List.mem_range, decide_eq_true_eq]
    refine forall₂_congr fun i hi => ?_
    rw [hm i hi, hr i hi, share_add_getD hx hy hi, if_pos rfl, if_pos rfl, Commitment.decomit, beq_iff_eq]
    rfl

lemma fits_iff {m m' r r' : ℕ} : Fits COM m m' r r' ↔
    Pedersen.com (COM.g : ZMod COM.prime) COM.h (m+m') (r+r') =
      Pedersen.com (COM.g : ZMod COM.prime) COM.h ((m+m')%COM.q) ((r+r')%COM.q) := by
  rw [← Pedersen.com_mul, ← comit_cast, ← comit_cast, ← comit_cast, ← Nat.cast_mul,
    ZMod.natCast_eq_natCast_iff, Fits, Commitment.cadd, Nat.ModEq]
  rw [Commitment.comit, Commitment.comit, Commitment.comit, Nat.mod_mod]

lemma pow_modEq_one (b : ℕ) : b^COM.q ≡ 1 [MOD COM.prime] ↔ (b : ZMod COM.prime)^COM.q = 1 := by
  rw [← ZMod.natCast_eq_natCast_iff, Nat.cast_pow, Nat.cast_one]

lemma fits_wrap (hq : 1 < COM.q) :
    (Fits COM 1 (COM.q-1) 0 0 ↔ COM.g^COM.q ≡ 1 [MOD COM.prime]) ∧
      (Fits COM 0 0 1 (COM.q-1) ↔ COM.h^COM.q ≡ 1 [MOD COM.prime]) := by
  have hwrap : 1+(COM.q-1) = COM.q := by omega
  simp only [fits_iff, pow_modEq_one, hwrap, Nat.mod_self, Pedersen.com, Nat.add_zero,
    Nat.zero_mod, pow_zero, mul_one, one_mul, and_self]

/-- Sums fit their commitments whatever is summed if and only if the bases have exponent `q`. -/
lemma fits_all_iff (hq : 1 < COM.q) :
    (∀ m < COM.q, ∀ m' < COM.q, ∀ r < COM.q, ∀ r' < COM.q, Fits COM m m' r r') ↔
      COM.g^COM.q ≡ 1 [MOD COM.prime] ∧ COM.h^COM.q ≡ 1 [MOD COM.prime] := by
  obtain ⟨hg, hh⟩ := fits_wrap hq
  constructor
  · intro h
    exact ⟨hg.mp (h 1 hq (COM.q-1) (by omega) 0 (by omega) 0 (by omega)),
      hh.mp (h 0 (by omega) 0 (by omega) 1 hq (COM.q-1) (by omega))⟩
  · rintro ⟨hg, hh⟩ m - m' - r - r' -
    rw [pow_modEq_one] at hg hh
    exact fits_iff.mpr (Pedersen.com_congr hg hh (Nat.mod_modEq _ _).symm (Nat.mod_modEq _ _).symm)

end sum

/-- For one output of the random generator in `init_`, all sums of dealt vectors open to the sums
and pass the check exactly when both bases are one. -/
theorem init_homomorphic (d : InitDraw) {Ps : List ℕ} {verifier : ℕ} (hnd : Ps.Nodup)
    (hv : verifier ∈ Ps) :
    let COM := init_ 32 d
    (∀ N x y, Dealing.Reduced COM N x → Dealing.Reduced COM N y →
      reveal COM Ps verifier
          (fun p => add COM (x.share COM Ps verifier p) (y.share COM Ps verifier p)) =
        ⟨List.zipWith (fun m m' => (m+m')%COM.q) x.data y.data,true⟩) ↔
      randomm d.first 4294967311^randomm d.k 4294967311 ≡ 1 [MOD 8589934623] ∧
        randomm d.second 4294967311^randomm d.k 4294967311 ≡ 1 [MOD 8589934623] := by
  intro COM
  have hq : COM.q = 4294967311 := init_q d
  have hp : COM.prime = 8589934623 := init_prime d
  have : NeZero COM.q := ⟨by rw [hq]; norm_num⟩
  have hsmall : COM.q < 2^64 := by rw [hq]; norm_num
  obtain ⟨hbase, hbase'⟩ := init_bases d
  have hexp := fits_all_iff (by rw [hq]; norm_num)
  have hpow : ∀ b e : ℕ, b ≡ e [MOD 8589934623] →
      (b^COM.q ≡ 1 [MOD COM.prime] ↔ e ≡ 1 [MOD 8589934623]) := by
    intro b e hbe
    rw [hq, hp, pow_field_iff]
    exact ⟨hbe.symm.trans,hbe.trans⟩
  rw [hpow _ _ hbase, hpow _ _ hbase'] at hexp
  rw [← hexp]
  constructor
  · intro h m hm m' hm' r hr r' hr'
    have hx := single_reduced hm hr
    have hy := single_reduced hm' hr'
    have hone := h 1 _ _ hx hy
    rw [reveal_add hsmall hnd hv hx hy] at hone
    simpa [single] using hone
  · intro h N x y hx hy
    rw [reveal_add hsmall hnd hv hx hy, Revealed.mk.injEq]
    refine ⟨rfl,List.all_eq_true.mpr fun i hi => ?_⟩
    have hi := List.mem_range.mp hi
    exact decide_eq_true (h _ (hx.data_lt i hi) _ (hy.data_lt i hi) _ (hx.r_lt i hi) _ (hy.r_lt i hi))

/-- The generator returns zero bytes: both bases are one. -/
def zeroDraw : InitDraw := ⟨fun _ => 0,fun _ => 0,fun _ => 0⟩

theorem init_homomorphic_two :
    let COM := init_ 32 zeroDraw
    reveal COM [0,1] 0 (fun p => add COM ((single 1 0).share COM [0,1] 0 p)
      ((single 4294967310 0).share COM [0,1] 0 p)) = ⟨[0],true⟩ := by
  intro COM
  have hq : COM.q = 4294967311 := init_q zeroDraw
  have h := (init_homomorphic zeroDraw (show [0,1].Nodup by decide) (show 0 ∈ [0,1] by decide)).mpr
    ⟨by decide,by decide⟩
  rw [h 1 _ _ (single_reduced (by rw [hq]; norm_num) (by rw [hq]; norm_num))
    (single_reduced (by rw [hq]; norm_num) (by rw [hq]; norm_num))]
  simp [single, hq, COM]

/-- The generator returns `1` for `k` and `2` for both bases. -/
def twoDraw : InitDraw :=
  ⟨fun j => if j = 7 then 1 else 0,fun j => if j = 7 then 2 else 0,fun j => if j = 7 then 2 else 0⟩

/-- The sum of `1` and `q-1` opens to zero, and the check fails. -/
theorem init_sum_rejected :
    let COM := init_ 32 twoDraw
    reveal COM [0,1] 0 (fun p => add COM ((single 1 0).share COM [0,1] 0 p)
      ((single 4294967310 0).share COM [0,1] 0 p)) = ⟨[0],false⟩ := by
  intro COM
  have hq : COM.q = 4294967311 := init_q twoDraw
  have hp : COM.prime = 8589934623 := init_prime twoDraw
  have : NeZero COM.q := ⟨by rw [hq]; norm_num⟩
  have hg : COM.g ≡ 2 [MOD 8589934623] := (init_bases twoDraw).1.trans (by decide)
  have hfits : ¬Fits COM 1 4294967310 0 0 := by
    have hwrap := (fits_wrap (by rw [hq]; norm_num)).1
    rw [hq, hp, pow_field_iff] at hwrap
    rw [hwrap]
    exact fun hone => absurd (hg.symm.trans hone) (by decide)
  rw [reveal_add (by rw [hq]; norm_num) (by decide) (by decide)
    (single_reduced (by rw [hq]; norm_num) (by rw [hq]; norm_num))
    (single_reduced (by rw [hq]; norm_num) (by rw [hq]; norm_num))]
  simp [single, hq, hfits]

end OramPro.SPDZ
