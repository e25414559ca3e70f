import OramPro.ThreeParty

/-!
# Operators on masked sharings

The operators of `AShare`, of which `semi.h` and `sharem.h` hold the same text, and of `AShareT` in
`sharem.h`. Every party applies them to its own object.
-/
namespace OramPro.ShareOps

abbrev Party := Fin 3

variable {w LENS lens : ℕ}

/-- `AShare<T, LENS>` for a `T` of `w` bits. -/
structure AShare (w LENS : ℕ) where
  lens : ℕ
  r_1 : Fin LENS → BitVec w
  r_2 : Fin LENS → BitVec w
  r : Fin LENS → BitVec w
  bound : lens ≤ LENS

structure AShareT (w : ℕ) where
  r_1 : BitVec w
  r_2 : BitVec w
  r : BitVec w

section program

/-- A loop over the first `lens` entries of `res`. -/
def fill (lens : ℕ) (res : Fin LENS → BitVec w) (value : Fin LENS → BitVec w) : Fin LENS → BitVec w :=
  fun i => if i.val < lens then value i else res i

namespace AShare
variable (x a res : AShare w LENS)

/-- `operator+` and `operator-` on the object `x`; the entries of `res` are not initialised. -/
def binary (op : BitVec w → BitVec w → BitVec w) : AShare w LENS where
  lens := x.lens
  r := fill x.lens res.r fun i => op (a.r i) (x.r i)
  r_1 := fill x.lens res.r_1 fun i => op (a.r_1 i) (x.r_1 i)
  r_2 := fill x.lens res.r_2 fun i => op (a.r_2 i) (x.r_2 i)
  bound := x.bound

/-- `operator+` -/
def add : AShare w LENS := binary x a res fun a r => a+r

/-- `operator-` -/
def sub : AShare w LENS := binary x a res fun a r => a-r

/-- `operator*` -/
def mul (c : BitVec w) : AShare w LENS where
  lens := x.lens
  r := fill x.lens res.r fun i => x.r i*c
  r_1 := fill x.lens res.r_1 fun i => x.r_1 i*c
  r_2 := fill x.lens res.r_2 fun i => x.r_2 i*c
  bound := x.bound

/-- `operator+=` and `operator-=`, with the object and the local variable `res` after the call. The loop
writes to `res`. -/
def inPlace (op : BitVec w → BitVec w → BitVec w) : AShare w LENS × AShare w LENS :=
  (x,{ res with
    r := fill x.lens res.r fun i => op (res.r i) (a.r i)
    r_1 := fill x.lens res.r_1 fun i => op (res.r_1 i) (a.r_1 i)
    r_2 := fill x.lens res.r_2 fun i => op (res.r_2 i) (a.r_2 i) })

/-- `operator+=` -/
def addAssign : AShare w LENS × AShare w LENS := inPlace x a res fun r a => r+a

/-- `operator-=` -/
def subAssign : AShare w LENS × AShare w LENS := inPlace x a res fun r a => r-a

end AShare

namespace AShareT
variable (x a : AShareT w)

/-- `operator+` -/
def add : AShareT w where
  r := a.r+x.r
  r_1 := a.r_1+x.r_1
  r_2 := a.r_2+x.r_2

/-- `operator-` -/
def sub : AShareT w where
  r := a.r-x.r
  r_1 := a.r_1-x.r_1
  r_2 := a.r_2-x.r_2

/-- `operator*` -/
def mul (c : BitVec w) : AShareT w where
  r := x.r*c
  r_1 := x.r_1*c
  r_2 := x.r_2*c

/-- `operator+=` -/
def addAssign : AShareT w where
  r := x.r+a.r
  r_1 := x.r_1+a.r_1
  r_2 := x.r_2+a.r_2

/-- `operator-=` -/
def subAssign : AShareT w where
  r := x.r-a.r
  r_1 := x.r_1-a.r_1
  r_2 := x.r_2-a.r_2

end AShareT

/-- The operators, with an object of the same kind or a constant on the right. -/
inductive Op
  | add
  | sub
  | mul
  | addAssign
  | subAssign
  deriving DecidableEq

/-- The sharing that an operator leaves: its result, or its left operand after the call. -/
def AShare.apply (op : Op) (x a : AShare w LENS) (c : BitVec w) (res : AShare w LENS) : AShare w LENS :=
  match op with
  | .add => x.add a res
  | .sub => x.sub a res
  | .mul => x.mul res c
  | .addAssign => (x.addAssign a res).1
  | .subAssign => (x.subAssign a res).1

def AShareT.apply (op : Op) (x a : AShareT w) (c : BitVec w) : AShareT w :=
  match op with
  | .add => x.add a
  | .sub => x.sub a
  | .mul => x.mul c
  | .addAssign => x.addAssign a
  | .subAssign => x.subAssign a

end program

/-! ## Opening -/

/-- The objects of the parties for a vector of `lens` entries. -/
structure Sharing (w LENS lens : ℕ) where
  share : Party → AShare w LENS
  lens_eq : ∀ p, (share p).lens = lens

/-- The masked value of player 1 less the mask, which player 0 holds. -/
def opened (s : Party → AShare w LENS) (i : Fin LENS) : BitVec w := (s 1).r_1 i-(s 0).r i

def openedT (s : Party → AShareT w) : BitVec w := (s 1).r_1-(s 0).r

/-- What the operator does to the values. -/
def Op.value (x y c : BitVec w) : Op → BitVec w
  | .add | .addAssign => x+y
  | .sub | .subAssign => x-y
  | .mul => c*x

/-- `AShare` subtracts the left operand from the right one, and leaves the left operand of `+=` and `-=`
as it is. -/
def Op.Commutes (x y : BitVec w) : Op → Prop
  | .add | .mul => True
  | .sub => 2*x = 2*y
  | .addAssign | .subAssign => y = 0

/-- `AShareT` also subtracts the left operand from the right one. -/
def Op.CommutesT (x y : BitVec w) : Op → Prop
  | .add | .mul | .addAssign | .subAssign => True
  | .sub => 2*x = 2*y

section values

lemma sub_comm_iff (x y : BitVec w) : y-x = x-y ↔ 2*x = 2*y := by
  constructor
  · intro h
    linear_combination -h
  · intro h
    linear_combination -h

/-- What an operator of `AShare` leaves opens to, by the values of its operands. -/
def Op.result (x y c : BitVec w) : Op → BitVec w
  | .add => x+y
  | .sub => y-x
  | .mul => c*x
  | .addAssign | .subAssign => x

lemma result_eq_value_iff (op : Op) (x y c : BitVec w) :
    op.result x y c = op.value x y c ↔ op.Commutes x y := by
  cases op with
  | add => exact iff_of_true rfl trivial
  | sub => exact sub_comm_iff x y
  | mul => exact iff_of_true rfl trivial
  | addAssign => exact left_eq_add
  | subAssign => exact eq_comm.trans sub_eq_self

lemma opened_apply (s t : Sharing w LENS lens) (c : BitVec w) (res : Party → AShare w LENS) (op : Op)
    {i : Fin LENS} (hi : i.val < lens) :
    opened (fun p => (s.share p).apply op (t.share p) c (res p)) i =
      op.result (opened s.share i) (opened t.share i) c := by
  have h : ∀ p, i.val < (s.share p).lens := fun p => by rwa [s.lens_eq]
  cases op with
  | add =>
    simp only [opened, AShare.apply, AShare.add, AShare.binary, fill, if_pos (h _), Op.result]
    ring
  | sub =>
    simp only [opened, AShare.apply, AShare.sub, AShare.binary, fill, if_pos (h _), Op.result]
    ring
  | mul =>
    simp only [opened, AShare.apply, AShare.mul, fill, if_pos (h _), Op.result]
    ring
  | addAssign => rfl
  | subAssign => rfl

lemma openedT_apply_iff (s t : Party → AShareT w) (c : BitVec w) (op : Op) :
    openedT (fun p => (s p).apply op (t p) c) = op.value (openedT s) (openedT t) c ↔
      op.CommutesT (openedT s) (openedT t) := by
  cases op with
  | add => exact iff_of_true (by simp only [openedT, AShareT.apply, AShareT.add, Op.value]; ring) trivial
  | sub =>
    have hsub : openedT (fun p => (s p).apply .sub (t p) c) = openedT t-openedT s := by
      simp only [openedT, AShareT.apply, AShareT.sub]
      ring
    rw [hsub]
    exact sub_comm_iff _ _
  | mul => exact iff_of_true (by simp only [openedT, AShareT.apply, AShareT.mul, Op.value]; ring) trivial
  | addAssign =>
    exact iff_of_true (by simp only [openedT, AShareT.apply, AShareT.addAssign, Op.value]; ring) trivial
  | subAssign =>
    exact iff_of_true (by simp only [openedT, AShareT.apply, AShareT.subAssign, Op.value]; ring) trivial

end values

/-- Which operators commute with opening, for which values. -/
theorem operators_commute_iff (op : Op) (c : BitVec w) :
    (∀ (s t : Sharing w LENS lens) (res : Party → AShare w LENS),
      (∀ i : Fin LENS, i.val < lens →
        opened (fun p => (s.share p).apply op (t.share p) c (res p)) i =
          op.value (opened s.share i) (opened t.share i) c) ↔
        ∀ i : Fin LENS, i.val < lens → op.Commutes (opened s.share i) (opened t.share i)) ∧
    ∀ s t : Party → AShareT w,
      openedT (fun p => (s p).apply op (t p) c) = op.value (openedT s) (openedT t) c ↔
        op.CommutesT (openedT s) (openedT t) := by
  refine ⟨fun s t res => ?_,fun s t => openedT_apply_iff s t c op⟩
  refine forall_congr' fun i => forall_congr' fun hi => ?_
  rw [opened_apply s t c res op hi]
  exact result_eq_value_iff op _ _ c

/-- One entry of which player 1 holds the value and every mask is zero. -/
def single (v : BitVec 32) : Party → AShare 32 1 := fun p => ⟨1,fun _ => if p = 1 then v else 0,0,0,Nat.zero_lt_one⟩

def singleT (v : BitVec 32) : Party → AShareT 32 := fun p => ⟨if p = 1 then v else 0,0,0⟩

/-- `1-0` opens to -1, and 0 stays what it is after `+= 1` and `-= 1`. -/
theorem operators_reversed :
    opened (fun p => (single 1 p).apply .sub (single 0 p) 0 (single 0 p)) 0 ≠
      opened (single 1) 0-opened (single 0) 0 ∧
    opened (fun p => (single 0 p).apply .addAssign (single 1 p) 0 (single 0 p)) 0 ≠
      opened (single 0) 0+opened (single 1) 0 ∧
    opened (fun p => (single 0 p).apply .subAssign (single 1 p) 0 (single 0 p)) 0 ≠
      opened (single 0) 0-opened (single 1) 0 ∧
    openedT (fun p => (singleT 1 p).apply .sub (singleT 0 p) 0) ≠ openedT (singleT 1)-openedT (singleT 0) := by
  decide

end OramPro.ShareOps
