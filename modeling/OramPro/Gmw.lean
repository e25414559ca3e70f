import Mathlib.Data.BitVec
import Mathlib.Tactic

/-!
# Multiplication of XOR shares

The AND gates of `GMW` between two parties. Each party sends its operands masked by its share of a
triple; what it computes with afterwards is the message of the other party, not the opened sum.
-/
namespace OramPro.GMW

section program
variable {w : ℕ}

/-- The operands of one party and its share of a triple. -/
structure Operands (w : ℕ) where
  a : BitVec w
  b : BitVec w
  a_p : BitVec w
  b_p : BitVec w
  c_p : BitVec w

/-- What a party sends. -/
def Operands.alpha (s : Operands w) : BitVec w × BitVec w := (s.a ^^^ s.a_p, s.b ^^^ s.b_p)

def scale_c (a b : BitVec w) : BitVec w := a &&& b

def xor_c (a b : BitVec w) : BitVec w := a ^^^ b

/-- `and_c` for one gate; the opened `alpha` is not read again. -/
def and_c (player1 : Bool) (s : Operands w) (Alpha : BitVec w × BitVec w) : BitVec w :=
  let res := (s.b &&& Alpha.2) ^^^ (s.a &&& Alpha.1) ^^^ s.c_p
  if player1 then res ^^^ (Alpha.1 &&& Alpha.2) else res

/-- The message for `lens` gates: the first operands before the second ones. -/
def alphas (s : ℕ → Operands w) (lens k : ℕ) : BitVec w :=
  if k < lens then (s k).a ^^^ (s k).a_p else (s (k-lens)).b ^^^ (s (k-lens)).b_p

/-- The array of the function itself and the array that the caller passes. -/
structure Arrays (w : ℕ) where
  res : ℕ → BitVec w
  c : ℕ → BitVec w

/-- `and_c` for `lens` gates. -/
def and_cs (player1 : Bool) (s : ℕ → Operands w) (Alpha c : ℕ → BitVec w) (lens : ℕ) : Arrays w where
  res i :=
    let res := ((s i).b &&& Alpha (i+lens)) ^^^ ((s i).a &&& Alpha i) ^^^ (s i).c_p
    if player1 then res ^^^ (Alpha i &&& Alpha (i+lens)) else res
  c := c

end program

/-! ## Both parties -/

/-- Operands and triples shared by player 0, `false`, and player 1, `true`. -/
structure Shares (w : ℕ) where
  lens : ℕ
  share : Bool → ℕ → Operands w
  c : Bool → ℕ → BitVec w
  triple : ∀ i < lens, (share false i).c_p ^^^ (share true i).c_p =
    ((share false i).a_p ^^^ (share true i).a_p) &&& ((share false i).b_p ^^^ (share true i).b_p)

section parties
variable {w : ℕ} (s : Shares w)

/-- What the scalar version returns at a party for the operands at `i`. -/
def Shares.returned (p : Bool) (i : ℕ) : BitVec w := and_c p (s.share p i) (s.share (!p) i).alpha

def Shares.arrays (p : Bool) : Arrays w :=
  and_cs p (s.share p) (alphas (s.share !p) s.lens) (s.c p) s.lens

def Shares.a (i : ℕ) : BitVec w := (s.share false i).a ^^^ (s.share true i).a

def Shares.b (i : ℕ) : BitVec w := (s.share false i).b ^^^ (s.share true i).b

/-- The returned values are shares of the product. -/
def Shares.Right (i : ℕ) : Prop := s.returned false i ^^^ s.returned true i = s.a i &&& s.b i

/-- What the received differences leave of the opened ones. -/
def Shares.surplus (i : ℕ) : BitVec w :=
  let x := s.share false i
  let y := s.share true i
  (x.alpha.1 &&& (y.a ^^^ s.b i)) ^^^ (y.alpha.1 &&& (x.a ^^^ s.b i)) ^^^
    (x.alpha.2 &&& (y.b ^^^ s.a i)) ^^^ (y.alpha.2 &&& (x.b ^^^ s.a i)) ^^^
    (x.alpha.1 &&& y.alpha.2) ^^^ (y.alpha.1 &&& x.alpha.2) ^^^ (y.alpha.1 &&& y.alpha.2)

/-- One bit of the two returned values. -/
lemma returned_bit (a0 b0 p0 q0 c0 a1 b1 p1 q1 : Bool) :
    let c1 := c0 ^^ ((p0 ^^ p1) && (q0 ^^ q1))
    (((b0 && (b1 ^^ q1)) ^^ (a0 && (a1 ^^ p1)) ^^ c0) ^^
      ((b1 && (b0 ^^ q0)) ^^ (a1 && (a0 ^^ p0)) ^^ c1 ^^ ((a0 ^^ p0) && (b0 ^^ q0)))) =
    (((a0 ^^ a1) && (b0 ^^ b1)) ^^
      (((a0 ^^ p0) && (a1 ^^ (b0 ^^ b1))) ^^ ((a1 ^^ p1) && (a0 ^^ (b0 ^^ b1))) ^^
        ((b0 ^^ q0) && (b1 ^^ (a0 ^^ a1))) ^^ ((b1 ^^ q1) && (b0 ^^ (a0 ^^ a1))) ^^
        ((a0 ^^ p0) && (b1 ^^ q1)) ^^ ((a1 ^^ p1) && (b0 ^^ q0)) ^^ ((a1 ^^ p1) && (b1 ^^ q1)))) := by
  revert a0 b0 p0 q0 c0 a1 b1 p1 q1
  decide

/-- The two returned values with what is left over. -/
lemma returned_xor {i : ℕ} (hi : i < s.lens) :
    s.returned false i ^^^ s.returned true i = (s.a i &&& s.b i) ^^^ s.surplus i := by
  have htriple := s.triple i hi
  have hc : (s.share true i).c_p = (s.share false i).c_p ^^^
      (((s.share false i).a_p ^^^ (s.share true i).a_p) &&& ((s.share false i).b_p ^^^ (s.share true i).b_p)) := by
    rw [← htriple, ← BitVec.xor_assoc, BitVec.xor_self, BitVec.zero_xor]
  ext j hj
  simp only [Shares.returned, and_c, Operands.alpha, Shares.a, Shares.b, Shares.surplus, hc, Bool.not_false,
    Bool.not_true, Bool.false_eq_true, if_false, if_true, BitVec.getElem_xor, BitVec.getElem_and]
  exact returned_bit _ _ _ _ _ _ _ _ _

lemma right_iff {i : ℕ} (hi : i < s.lens) : s.Right i ↔ s.surplus i = 0 := by
  rw [Shares.Right, returned_xor s hi]
  nth_rewrite 2 [← BitVec.xor_zero (x := s.a i &&& s.b i)]
  exact BitVec.xor_right_inj _

/-- What the vector version computes for itself is what the scalar version returns. -/
lemma res_eq (p : Bool) {i : ℕ} (hi : i < s.lens) : (s.arrays p).res i = s.returned p i := by
  have h1 : alphas (s.share !p) s.lens i = (s.share (!p) i).alpha.1 := if_pos hi
  have h2 : alphas (s.share !p) s.lens (i+s.lens) = (s.share (!p) i).alpha.2 := by
    rw [alphas, if_neg (by omega), Nat.add_sub_cancel, Operands.alpha]
  simp only [Shares.arrays, and_cs, Shares.returned, and_c, h1, h2]

/-- The vector version never writes the array of its caller. -/
lemma arrays_c (p : Bool) : (s.arrays p).c = s.c p := rfl

/-- The vector version delivers at every party what the scalar version returns there. -/
def Shares.Delivered (i : ℕ) : Prop := ∀ p, (s.arrays p).c i = s.returned p i

/-- The output array holds the result before the call. -/
def Shares.Held (i : ℕ) : Prop :=
  let x := s.share false i
  let y := s.share true i
  s.c false i = (x.b &&& y.alpha.2) ^^^ (x.a &&& y.alpha.1) ^^^ x.c_p ∧
    s.c true i = (y.b &&& x.alpha.2) ^^^ (y.a &&& x.alpha.1) ^^^ y.c_p ^^^ (x.alpha.1 &&& x.alpha.2)

/-- The returned values are shares of the product exactly where nothing is left over. The vector version computes
the same values and leaves the array of its caller alone, so it delivers them exactly where the array already
holds them. -/
theorem and_c_exact : ((∀ i < s.lens, s.Right i) ↔ ∀ i < s.lens, s.surplus i = 0) ∧
    (∀ p, (∀ i < s.lens, (s.arrays p).res i = s.returned p i) ∧ (s.arrays p).c = s.c p) ∧
    ((∀ i < s.lens, s.Delivered i) ↔ ∀ i < s.lens, s.Held i) := by
  refine ⟨forall₂_congr fun _ hi => right_iff s hi,fun p => ⟨fun _ hi => res_eq s p hi,arrays_c s p⟩,
    forall₂_congr fun i _ => ?_⟩
  rw [Shares.Delivered, Bool.forall_bool, arrays_c, arrays_c]
  rfl

end parties

/-- One gate on bytes with a zero triple: player 0 holds the first operand 1, player 1 the second. -/
def oneGate : Shares 8 where
  lens := 1
  share p _ := if p then ⟨0,1,0,0,0⟩ else ⟨1,0,0,0,0⟩
  c _ _ := 0
  triple := fun _ _ => by decide

/-- The product of 1 and 1 is returned as 0. -/
theorem and_c_one : oneGate.returned false 0 ^^^ oneGate.returned true 0 ≠ oneGate.a 0 &&& oneGate.b 0 := by
  decide

end OramPro.GMW
