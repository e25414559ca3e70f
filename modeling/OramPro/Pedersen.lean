import Mathlib

/-!
# Commitments with two bases

In a commutative monoid whose two bases have exponent `q`, a commitment depends on the message
and the randomness modulo `q` only, and products of commitments commit to sums.
-/
namespace Pedersen

variable {M : Type*} [CommMonoid M] (g h : M) {q : ℕ}

/-- The commitment to `m` with randomness `r`. -/
def com (m r : ℕ) : M := g^m*h^r

lemma com_mul (m r m' r' : ℕ) : com g h m r*com g h m' r' = com g h (m+m') (r+r') := by
  rw [com, com, com, pow_add, pow_add, mul_mul_mul_comm]

lemma com_pow (m r e : ℕ) : com g h m r^e = com g h (m*e) (r*e) := by
  rw [com, com, mul_pow, ← pow_mul, ← pow_mul]

lemma com_zero (m : ℕ) : com g h m 0 = g^m := by rw [com, pow_zero, mul_one]

variable {g h} (hg : g^q = 1) (hh : h^q = 1)
include hg hh

lemma com_congr {m m' r r' : ℕ} (hm : m ≡ m' [MOD q]) (hr : r ≡ r' [MOD q]) :
    com g h m r = com g h m' r' := by
  rw [com, com, pow_eq_pow_mod m hg, pow_eq_pow_mod r hh, hm, hr, ← pow_eq_pow_mod m' hg,
    ← pow_eq_pow_mod r' hh]

/-- What is missing to the next multiple of `q` inverts a commitment. -/
lemma com_mul_eq_one {m m' r r' : ℕ} (hm : m+m' ≡ 0 [MOD q]) (hr : r+r' ≡ 0 [MOD q]) :
    com g h m r*com g h m' r' = 1 := by
  rw [com_mul, com_congr hg hh hm hr, com_zero, pow_zero]

end Pedersen
