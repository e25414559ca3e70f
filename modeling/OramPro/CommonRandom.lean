import Mathlib.Data.BitVec
import Mathlib.Tactic

/-!
# The common random vector

`random_T` of `semi.h` and of `unit.h`, byte by byte. Whole blocks are filled with the encryption of
zero; the loop behind them writes elements from an index that counts bytes.
-/
namespace OramPro.CommonRandom

abbrev Byte := BitVec 8

/-- The bytes by their distance from `target`. -/
abbrev Memory := ℤ → Byte

/-- The types of the elements. -/
inductive Elem
  | uint8_t
  | uint32_t
  | uint64_t

def Elem.size : Elem → ℕ
  | uint8_t => 1
  | uint32_t => 4
  | uint64_t => 8

section program

def store (mem : Memory) (off : ℤ) (len : ℕ) (data : ℕ → Byte) : Memory := fun a =>
  if off ≤ a ∧ a < off+len then data (a-off).toNat else mem a

/-- The result of an operation on `int`; an overflow is undefined. -/
def int? (v : ℤ) : Option ℤ := if -2^31 ≤ v ∧ v < 2^31 then some v else none

/-- `AES_encrypt(seeds, ((uint8_t*)target) + 16*i, &aes_key)` -/
def blockTurn (aes : ℕ → Byte) (mem : Memory) (i : ℕ) : Option Memory := do
  let off ← int? (16*i)
  return store mem off 16 aes

/-- The bytes of the element 1. -/
def one (k : ℕ) : Byte := if k = 0 then 1 else 0

/-- `target[i] = 1`, where `i` is the `int` that compares like `u`. -/
def elementTurn (size : ℕ) (mem : Memory) (u : ℕ) : Memory :=
  store mem (size*(u : ℤ).bmod (2^32)) size one

def blockIndices (size lens : ℕ) : List ℕ := List.range (lens*size/16)

/-- The start is converted to `int` and back to unsigned for the comparison with `lens`. -/
def elementIndices (size lens : ℕ) : List ℕ :=
  let start := lens*size/16*16%2^32
  List.range' start (lens-start)

/-- Both loops, with their turns in the given orders. -/
def fill (aes : ℕ → Byte) (size : ℕ) (blocks elements : List ℕ) (mem : Memory) : Option Memory := do
  let mem ← blocks.foldlM (blockTurn aes) mem
  return elements.foldl (elementTurn size) mem

namespace semi

/-- `random_T` of `semi.h` -/
def random_T (aes : ℕ → Byte) (size lens : ℕ) (mem : Memory) : Option Memory :=
  fill aes size (blockIndices size lens) (elementIndices size lens) mem

end semi

namespace unit

/-- `random_T` of `unit.h`, where the turns of a loop run in parallel: in any order. -/
def random_T (aes : ℕ → Byte) (size lens : ℕ) (mem : Memory) (result : Option Memory) : Prop :=
  ∃ blocks elements, blocks.Perm (blockIndices size lens) ∧ elements.Perm (elementIndices size lens) ∧
    result = fill aes size blocks elements mem

end unit

end program

/-! ## What is written -/

section loops
variable {aes : ℕ → Byte} {size lens : ℕ} {blocks elements : List ℕ}

/-- A chunk is written over by the same bytes only. -/
lemma foldl_store (k : ℕ) (index : ℕ → ℤ) (data : ℕ → Byte) (l : List ℕ) (mem : Memory) (a : ℤ) :
    l.foldl (fun mem i => store mem (k*index i) k data) mem a =
      if ∃ i ∈ l, k*index i ≤ a ∧ a < k*index i+k then data (a%k).toNat else mem a := by
  induction l generalizing mem with
  | nil => simp
  | cons i l ih =>
    rw [List.foldl_cons, ih]
    have hstore : store mem (k*index i) k data a =
        if k*index i ≤ a ∧ a < k*index i+k then data (a%k).toNat else mem a := by
      rw [store]
      refine if_ctx_congr Iff.rfl (fun h => ?_) fun _ => rfl
      have hmod : a%k = a-k*index i := by
        have hsplit : a = (a-k*index i)+k*index i := by ring
        conv_lhs => rw [hsplit]
        rw [Int.add_mul_emod_self_left, Int.emod_eq_of_lt (by omega) (by omega)]
      rw [hmod]
    rw [hstore]
    simp only [List.exists_mem_cons_iff]
    by_cases hrest : ∃ j ∈ l, k*index j ≤ a ∧ a < k*index j+k
    · rw [if_pos hrest, if_pos (.inr hrest)]
    · rw [if_neg hrest]
      exact if_congr (or_iff_left hrest).symm rfl rfl

lemma foldlM_blockTurn (h : ∀ i ∈ blocks, 16*i < 2^31) (mem : Memory) :
    blocks.foldlM (blockTurn aes) mem =
      some (blocks.foldl (fun mem (i : ℕ) => store mem ((16 : ℕ)*(i : ℤ)) 16 aes) mem) := by
  induction blocks generalizing mem with
  | nil => rfl
  | cons i l ih =>
    rw [List.forall_mem_cons] at h
    have hturn : blockTurn aes mem i = some (store mem ((16 : ℕ)*(i : ℤ)) 16 aes) := by
      have hint : int? (16*(i : ℤ)) = some (16*(i : ℤ)) := if_pos (by omega)
      simp [blockTurn, hint]
    rw [List.foldlM_cons, hturn, Option.bind_eq_bind, Option.bind_some, ih h.2, List.foldl_cons]

/-- A block that starts behind the range of `int`. -/
lemma foldlM_blockTurn_none {i : ℕ} (hi : i ∈ blocks) (h : 2^31 ≤ 16*i) (mem : Memory) :
    blocks.foldlM (blockTurn aes) mem = none := by
  induction blocks generalizing mem with
  | nil => cases hi
  | cons j l ih =>
    rw [List.foldlM_cons]
    rcases List.mem_cons.mp hi with rfl | hl
    · have hint : int? (16*(i : ℤ)) = none := if_neg (by omega)
      simp [blockTurn, hint]
    · cases blockTurn aes mem j with
      | none => rfl
      | some mem => exact ih hl mem

/-- Every byte after both loops, where no block starts behind the range of `int`. -/
lemma fill_apply (aes : ℕ → Byte) (hb : blocks.Perm (blockIndices size lens))
    (he : elements.Perm (elementIndices size lens)) (hint : lens*size < 2^31+16) (mem : Memory) :
    ∃ out, fill aes size blocks elements mem = some out ∧
      ∀ a, out a =
        if ∃ u ∈ elementIndices size lens, size*(u : ℤ).bmod (2^32) ≤ a ∧
          a < size*(u : ℤ).bmod (2^32)+size then one (a%size).toNat
        else if 0 ≤ a ∧ a < (lens*size/16*16 : ℕ) then aes (a%16).toNat else mem a := by
  have hrange : ∀ i ∈ blocks, 16*i < 2^31 := fun i hi => by
    have := List.mem_range.mp (hb.subset hi)
    omega
  refine ⟨_,by rw [fill, foldlM_blockTurn hrange]; rfl,fun a => ?_⟩
  have hblock : (∃ i ∈ blocks, ((16 : ℕ) : ℤ)*(i : ℤ) ≤ a ∧ a < ((16 : ℕ) : ℤ)*(i : ℤ)+(16 : ℕ)) ↔
      0 ≤ a ∧ a < (lens*size/16*16 : ℕ) := by
    constructor
    · rintro ⟨i, hi, h⟩
      have := List.mem_range.mp (hb.subset hi)
      omega
    · intro h
      refine ⟨(a/16).toNat,hb.symm.subset (List.mem_range.mpr (by omega)),by omega,by omega⟩
  unfold elementTurn
  rw [foldl_store size (fun u : ℕ => (u : ℤ).bmod (2^32)) one elements,
    foldl_store 16 (fun i : ℕ => (i : ℤ)) aes blocks]
  refine if_congr ?_ rfl (if_congr hblock rfl rfl)
  simp only [he.mem_iff]

/-- The lengths for which both loops together meet every byte. -/
def Whole (size lens : ℕ) : Prop :=
  lens*size ≤ 2^31 ∧ (size = 1 ∨ lens*size < 16 ∨ 16 ∣ lens*size)

/-- The vector that the parties have in common. -/
def vector (aes : ℕ → Byte) (size lens k : ℕ) : Byte :=
  if k < lens*size/16*16 then aes (k%16) else one (k%size)

lemma start_eq (h : lens*size < 2^31+16) : lens*size/16*16%2^32 = lens*size/16*16 :=
  Nat.mod_eq_of_lt (by omega)

lemma mem_elementIndices (h : lens*size < 2^31+16) {u : ℕ} :
    u ∈ elementIndices size lens ↔ lens*size/16*16 ≤ u ∧ u < lens := by
  rw [elementIndices, start_eq h, List.mem_range'_1]
  omega

lemma bmod_index {u : ℕ} (h : u < 2^31) : (u : ℤ).bmod (2^32) = u := by
  rw [Int.bmod_eq_of_le (by omega) (by omega)]

/-- The bytes of the elements that the second loop writes. -/
lemma element_bytes (hsize : 0 < size) (hbytes : lens*size ≤ 2^31) (a : ℤ) :
    (∃ u ∈ elementIndices size lens, size*(u : ℤ).bmod (2^32) ≤ a ∧
      a < size*(u : ℤ).bmod (2^32)+size) ↔ (lens*size/16*16*size : ℕ) ≤ a ∧ a < (lens*size : ℕ) := by
  have hlens : lens ≤ lens*size := Nat.le_mul_of_pos_right lens hsize
  constructor
  · rintro ⟨u, hu, h⟩
    rw [mem_elementIndices (by omega)] at hu
    rw [bmod_index (by omega)] at h
    obtain ⟨n, rfl⟩ := Int.eq_ofNat_of_zero_le ((by positivity : (0 : ℤ) ≤ size*u).trans h.1)
    have hlow : lens*size/16*16*size ≤ size*u := by
      rw [mul_comm size]
      exact Nat.mul_le_mul_right size hu.1
    have hhigh : size*u+size ≤ lens*size := by
      rw [mul_comm lens, ← Nat.mul_succ]
      exact Nat.mul_le_mul_left size hu.2
    have hstart : size*u ≤ n := by exact_mod_cast h.1
    have hend : n < size*u+size := by exact_mod_cast h.2
    exact ⟨by exact_mod_cast hlow.trans hstart,by exact_mod_cast hend.trans_le hhigh⟩
  · rintro ⟨hlow, hhigh⟩
    obtain ⟨n, rfl⟩ := Int.eq_ofNat_of_zero_le ((Int.natCast_nonneg _).trans hlow)
    have hu : n/size < lens := Nat.div_lt_of_lt_mul (by rw [mul_comm]; exact_mod_cast hhigh)
    refine ⟨n/size,(mem_elementIndices (by omega)).mpr ⟨?_,hu⟩,?_⟩
    · exact (Nat.le_div_iff_mul_le hsize).mpr (by exact_mod_cast hlow)
    · rw [bmod_index (by omega)]
      have hdm := Nat.div_add_mod n size
      have hlt := Nat.mod_lt n hsize
      constructor
      · exact_mod_cast Nat.mul_div_le n size
      · exact_mod_cast (by omega : n < size*(n/size)+size)

/-- Blocks and elements together meet every byte. -/
lemma fill_whole (hb : blocks.Perm (blockIndices size lens)) (he : elements.Perm (elementIndices size lens))
    (hsize : 0 < size) (h : Whole size lens) (mem : Memory) :
    fill aes size blocks elements mem = some (store mem 0 (lens*size) (vector aes size lens)) := by
  obtain ⟨out, hout, happly⟩ := fill_apply aes hb he (h.1.trans_lt (by omega)) mem
  rw [hout]
  congr 1
  funext a
  rw [happly, if_congr (element_bytes hsize h.1 a) rfl rfl, store]
  have hle : lens*size/16*16 ≤ lens*size/16*16*size := Nat.le_mul_of_pos_right _ hsize
  -- the elements start where the blocks end, unless one of the two loops does nothing
  have hmeet : lens*size ≤ lens*size/16*16 ∨ lens*size/16*16*size = lens*size/16*16 := by
    rcases h.2 with h1 | h1 | h1
    · exact .inr (by rw [h1, mul_one])
    · exact .inr (by rw [Nat.div_eq_of_lt h1, Nat.zero_mul, Nat.zero_mul])
    · exact .inl (by omega)
  rcases lt_or_ge a 0 with hneg | hpos
  · rw [if_neg (by omega), if_neg (by omega), if_neg (by omega)]
  · obtain ⟨n, rfl⟩ := Int.eq_ofNat_of_zero_le hpos
    have hmod : ∀ k : ℕ, ((n : ℤ)%k).toNat = n%k := fun k => by rw [← Int.natCast_mod, Int.toNat_natCast]
    have hmod16 : ((n : ℤ)%16).toNat = n%16 := hmod 16
    simp only [hmod size, hmod16, Int.sub_zero, Int.toNat_natCast, vector, Int.natCast_nonneg, true_and,
      zero_add, Nat.cast_le, Nat.cast_lt]
    split_ifs <;> first | rfl | omega

/-- Where the two loops leave a gap, a byte behind the blocks belongs to no element of the second. -/
lemma missed_byte (hsize : 0 < size) (h : ¬ Whole size lens) (hint : lens*size < 2^31+16) :
    ∃ n < lens*size, lens*size/16*16 ≤ n ∧ ¬ ∃ u ∈ elementIndices size lens,
      size*(u : ℤ).bmod (2^32) ≤ (n : ℕ) ∧ (n : ℤ) < size*(u : ℤ).bmod (2^32)+size := by
  rcases le_or_gt (lens*size) (2^31) with hbytes | hbytes
  · have hcases : size ≠ 1 ∧ 16 ≤ lens*size ∧ ¬ 16 ∣ lens*size := by
      simpa only [Whole, hbytes, true_and, not_or, not_lt] using h
    refine ⟨lens*size/16*16,by omega,le_rfl,?_⟩
    rw [element_bytes hsize hbytes]
    have htwice : lens*size/16*16*2 ≤ lens*size/16*16*size := Nat.mul_le_mul_left _ (by omega)
    omega
  · refine ⟨2^31,by omega,by omega,?_⟩
    rintro ⟨u, hu, -, hlast⟩
    rw [mem_elementIndices hint] at hu
    have hone : size = 1 := by
      by_contra hne
      have htwice : lens*2 ≤ lens*size := Nat.mul_le_mul_left _ (by omega)
      omega
    rw [hone, Nat.mul_one] at hu hbytes hint
    -- such an offset has wrapped around to the negative side
    have hbmod : (u : ℤ).bmod (2^32) = u-2^32 := by
      rw [Int.bmod_eq_emod]
      split_ifs <;> omega
    rw [hbmod, hone] at hlast
    omega

/-- A byte within the vector that neither loop writes, or an undefined offset. -/
lemma fill_misses (aes : ℕ → Byte) (hb : blocks.Perm (blockIndices size lens))
    (he : elements.Perm (elementIndices size lens)) (hsize : 0 < size) (h : ¬ Whole size lens) :
    ∃ n < lens*size, ∀ mem out, fill aes size blocks elements mem = some out → out (n : ℕ) = mem n := by
  rcases le_or_gt (2^31+16) (lens*size) with hlong | hint
  · have hmem : 2^27 ∈ blocks := hb.symm.subset (List.mem_range.mpr (by omega))
    refine ⟨0,by omega,fun mem out hout => ?_⟩
    rw [fill, foldlM_blockTurn_none hmem (by norm_num)] at hout
    cases hout
  obtain ⟨n, hn, hblock, helement⟩ := missed_byte hsize h hint
  refine ⟨n,hn,fun mem out hout => ?_⟩
  obtain ⟨_, hsome, happly⟩ := fill_apply aes hb he hint mem
  obtain rfl := Option.some.inj (hout.symm.trans hsome)
  rw [happly, if_neg helement, if_neg (by omega)]

end loops

/-- Every call gives the memory with the same bytes in the place of the vector. -/
def Common (call : Memory → Option Memory → Prop) (bytes : ℕ) : Prop :=
  ∃ v : ℕ → Byte, ∀ mem result, call mem result → result = some (store mem 0 bytes v)

lemma semi_not_common (aes : ℕ → Byte) {size lens : ℕ} (hsize : 0 < size) (h : ¬ Whole size lens) :
    ¬ Common (fun mem result => result = semi.random_T aes size lens mem) (lens*size) := by
  obtain ⟨n, hn, hmiss⟩ := fill_misses aes (.refl _) (.refl _) hsize h
  rintro ⟨v, hv⟩
  have hkept := hmiss _ _ (hv (fun _ => v n+1) _ rfl)
  rw [store, if_pos (by omega), Int.sub_zero, Int.toNat_natCast] at hkept
  exact absurd hkept.symm (by simp)

/-- The order of the turns in `semi.h` is one of those in `unit.h`. -/
lemma Common.semi {aes : ℕ → Byte} {size lens bytes : ℕ} (h : Common (unit.random_T aes size lens) bytes) :
    Common (fun mem result => result = semi.random_T aes size lens mem) bytes := by
  obtain ⟨v, hv⟩ := h
  exact ⟨v,fun mem result hr => hv mem result ⟨_,_,.refl _,.refl _,hr⟩⟩

/-- Both versions of `random_T` write every byte of the vector, none outside, and the same bytes at every
party, exactly for the lengths that are whole. -/
theorem random_T_common_iff (aes : ℕ → Byte) (T : Elem) (lens : BitVec 32) :
    (Common (fun mem result => result = semi.random_T aes T.size lens.toNat mem) (lens.toNat*T.size) ↔
      Whole T.size lens.toNat) ∧
    (Common (unit.random_T aes T.size lens.toNat) (lens.toNat*T.size) ↔ Whole T.size lens.toNat) := by
  have hsize : 0 < T.size := by cases T <;> decide
  have hsemi : Common (fun mem result => result = semi.random_T aes T.size lens.toNat mem)
      (lens.toNat*T.size) → Whole T.size lens.toNat := not_imp_not.mp (semi_not_common aes hsize)
  refine ⟨⟨hsemi,fun hw => ?_⟩,fun h => hsemi h.semi,fun hw => ?_⟩
  · exact ⟨vector aes T.size lens.toNat,fun mem result hr =>
      hr.trans (fill_whole (.refl _) (.refl _) hsize hw mem)⟩
  · exact ⟨vector aes T.size lens.toNat,fun mem result ⟨_, _, hb, he, hr⟩ =>
      hr.trans (fill_whole hb he hsize hw mem)⟩

/-- Of five elements of type `uint32_t` the last one keeps what it holds. -/
theorem random_T_misses : ¬ ∀ (aes : ℕ → Byte) (T : Elem) (lens : BitVec 32),
    Common (fun mem result => result = semi.random_T aes T.size lens.toNat mem) (lens.toNat*T.size) :=
  fun h => semi_not_common 0 (by decide) (by unfold Whole; decide) (h 0 .uint32_t 5)

end OramPro.CommonRandom
