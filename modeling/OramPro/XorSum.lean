import Mathlib

/-!
# Sums of words by XOR, and the others of a party
-/
namespace OramPro

section xor
variable {w n : ℕ}

def xorAll (n : ℕ) (f : ℕ → BitVec w) : BitVec w := Finset.fold (· ^^^ ·) 0 f (Finset.range n)

lemma zero_xor (x : BitVec w) : 0 ^^^ x = x := by simp
lemma xor_zero (x : BitVec w) : x ^^^ 0 = x := by simp

lemma xorAll_congr {f g : ℕ → BitVec w} (h : ∀ p < n, f p = g p) : xorAll n f = xorAll n g :=
  Finset.fold_congr fun p hp => h p (Finset.mem_range.mp hp)

lemma xorAll_xor (f g : ℕ → BitVec w) :
    xorAll n (fun p => f p ^^^ g p) = xorAll n f ^^^ xorAll n g := by
  have h : Finset.fold (· ^^^ · : BitVec w → BitVec w → BitVec w) (0 ^^^ 0)
    (fun p => f p ^^^ g p) (Finset.range n) = xorAll n f ^^^ xorAll n g := Finset.fold_op_distrib
  rwa [zero_xor] at h

lemma xorAll_succ (f : ℕ → BitVec w) : xorAll (n+1) f = f n ^^^ xorAll n f := by
  rw [xorAll, Finset.range_add_one, Finset.fold_insert Finset.notMem_range_self]
  rfl

lemma xorAll_one (f : ℕ → BitVec w) : xorAll 1 f = f 0 := by
  rw [xorAll_succ]
  exact xor_zero _

lemma xorAll_zero (n : ℕ) : xorAll n (fun _ => (0 : BitVec w)) = 0 := by
  induction n with
  | zero => rfl
  | succ n ih => rw [xorAll_succ, ih, zero_xor]

lemma xorAll_single {j : ℕ} (hj : j < n) (x : BitVec w) :
    xorAll n (fun p => if p = j then x else 0) = x := by
  induction n with
  | zero => omega
  | succ n ih =>
    rw [xorAll_succ]
    by_cases h : n = j
    · subst h
      rw [if_pos rfl, xorAll_congr (g := fun _ => 0) fun p hp => if_neg (by omega), xorAll_zero,
        xor_zero]
    · rw [if_neg h, ih (by omega), zero_xor]

lemma foldl_xor_range (f : ℕ → BitVec w) (n : ℕ) :
    (List.range n).foldl (fun v q => v ^^^ f q) 0 = xorAll n f := by
  induction n with
  | zero => rfl
  | succ n ih => rw [List.range_succ, List.foldl_append, ih, xorAll_succ, BitVec.xor_comm]; rfl

lemma foldl_xor_from (f : ℕ → BitVec w) (l : List ℕ) (x : BitVec w) :
    l.foldl (fun v q => v ^^^ f q) x = x ^^^ l.foldl (fun v q => v ^^^ f q) 0 := by
  induction l generalizing x with
  | nil => exact (xor_zero x).symm
  | cons q l ih =>
    rw [List.foldl_cons, ih, List.foldl_cons, ih (0 ^^^ f q), zero_xor, BitVec.xor_assoc]

end xor

/-- A party and the others. -/
lemma perm_others {l : List ℕ} (hnd : l.Nodup) {p : ℕ} (hp : p ∈ l) :
    (p :: l.filter (· ≠ p)).Perm l := by
  have herase : l.filter (· ≠ p) = l.erase p := by
    rw [hnd.erase_eq_filter]
    congr 1
    funext q
    by_cases h : q = p <;> simp [h]
  rw [herase]
  exact (List.perm_cons_erase hp).symm

end OramPro
