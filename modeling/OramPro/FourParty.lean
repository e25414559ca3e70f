import Mathlib

/-!
# Four parties and their reveals

A value that every party holds is a function of `Party`. A message vector is read at the
sender, so `send` of a reveal is the vector of what the parties send and `recv` adds to a
party's own value what its peer sent.
-/
namespace OramPro

abbrev Word := BitVec 32

inductive Party
  | player0 | player1 | player2 | player3
  deriving DecidableEq, Repr

namespace Party

def all : List Party := [player0,player1,player2,player3]

/-- The peer of `twopc_reveal`. -/
def twopc : Party → Party
  | player0 => player1 | player1 => player0 | player2 => player3 | player3 => player2

/-- The peer of `diag_reveal`. -/
def diag : Party → Party
  | player0 => player2 | player1 => player3 | player2 => player0 | player3 => player1

/-- The peer of `latt_reveal`. -/
def latt : Party → Party
  | player0 => player3 | player1 => player2 | player2 => player1 | player3 => player0

/-- The parties that hold the first share of replicated data. -/
def isFirst : Party → Bool
  | player0 => true | player1 => true | _ => false

def isEven : Party → Bool
  | player0 => true | player2 => true | _ => false

end Party

open Party

/-- The receive phase of `fourpc_reveal`: a party joins what the others sent to its own value. -/
def fourpcRecvBy {R : Type*} (share_cb : R → R → R) (own sent : Party → R) (p : Party) : R :=
  (Party.all.filter (· ≠ p)).foldl (fun v q => share_cb v (sent q)) (own p)

variable {R : Type*} [AddCommGroup R]

def twopcRecv (own sent : Party → R) (p : Party) : R := own p+sent p.twopc
def diagRecv (own sent : Party → R) (p : Party) : R := own p+sent p.diag

def fourpcRecv (own sent : Party → R) (p : Party) : R := fourpcRecvBy (· + ·) own sent p

def twopcReveal (d : Party → R) : Party → R := twopcRecv d d
def diagReveal (d : Party → R) : Party → R := diagRecv d d
def fourpcReveal (d : Party → R) : Party → R := fourpcRecv d d

/-! ## Sharings -/

/-- The value of an additive sharing over all four parties. -/
def open4 (d : Party → R) : R := d player0+d player1+d player2+d player3

/-- The value of a replicated sharing. -/
def openRep (d : Party → R) : R := d player0+d player2

/-- The first two parties hold one share and the other two parties the other. -/
def Replicated (d : Party → R) : Prop := d player0 = d player1 ∧ d player2 = d player3

/-- The value that a read leaves with the parties. -/
def openRead (d : Party → R) : R := d player0-d player1+d player2-d player3

lemma fourpcReveal_eq (d : Party → R) (p : Party) : fourpcReveal d p = open4 d := by
  cases p <;> simp [fourpcReveal, fourpcRecv, fourpcRecvBy, Party.all, open4] <;> abel

end OramPro
