import OramPro.InsGroup
import OramPro.RiscGc

/-!
# Loading and running a program

`load_env` at the aid and the players, and the main loop, in which every player leaves at the instruction
`ANSWER`. Neither the constructor nor `load_env` writes the arrays `res` and `flags`; the results are about
machines that find them zeroed.
-/
namespace OramPro

open Party

def proSize : ℕ := 64

/-! ## `load_env` -/

/-- The aid's environment; `mem` starts with the program, two words to an instruction. -/
structure AidEnv where
  pc : Word
  flag : Word
  rc0 : Word
  rc1 : Word
  num0 : Word
  num1 : Word
  m : ℕ → Word
  mem : ℕ → Word
  tape1 : ℕ → Word
  tape2 : ℕ → Word

/-- `load_T<uint64_t>` -/
def load_T (arr : ℕ → Word) (index : ℕ) : BitVec 64 := arr (2*index+1) ++ arr (2*index)

section load
variable (a : AidEnv) (ins_count : ℕ) (d : LoadDraw)

end load

/-! ## The main loop -/

section loop
variable {γ ε P : Type} [AddCommGroup P] (C : Circuits γ ε P) (f : Access)
  (ds : ℕ → CycleDraw × GcDraw γ ε)

/-- Whether a player finds its machine done after `load_ins`. -/
def Mechine.stops (d : CycleDraw) (s : Mechine) (p : Party) : Bool :=
  s.done p || (loadIns f d.fetch s.toEnv).stop p == 1

/-- An iteration that no player leaves. -/
def loopStep (x : ℕ × Mechine) : Option (ℕ × Mechine) :=
  if ∀ p ∈ Party.all, x.2.stops f (ds x.1).1 p = false then some (x.1+1,x.2.gcCycle C f (ds x.1)) else none

end loop

/-- The plain machine of the environment. -/
def AidEnv.plain (a : AidEnv) : Plain where
  pc := a.pc
  flag := a.flag
  rc0 := a.rc0
  rc1 := a.rc1
  num0 := a.num0
  num1 := a.num1
  ins k := m2i (load_T a.mem k)
  m k := a.m k
  mem k := a.mem (proSize+k)
  tape1 k := a.tape1 k
  tape2 k := a.tape2 k

section load
variable {a : AidEnv} {ins_count : ℕ} {d : LoadDraw} {res flags : Party → Opt → Word}

end load

/-! ## Every player stops at `ANSWER` -/

section stop
variable {f : Access} {d : CycleDraw} {s : Mechine}

lemma stop_eq (hs : s.Shared) (hd : d.Ok f) (p : Party) :
    (loadIns f d.fetch s.toEnv).stop p = s.opens.beta .ANSWER := by
  obtain ⟨h0, h2⟩ := (loadIns_holds hs hd.fetch).beta .ANSWER
  cases p with
  | player0 => exact h0
  | player1 => exact (add_comm _ _).trans h0
  | player2 => exact h2
  | player3 => exact (add_comm _ _).trans h2

lemma stops_iff (hs : s.Shared) (hd : d.Ok f) (hdone : ∀ p, s.done p = false) (p : Party) :
    s.stops f d p = true ↔ s.opens.opt = some .ANSWER := by
  rw [Mechine.stops, hdone, Bool.false_or, beq_iff_eq, stop_eq hs hd, Plain.beta]
  by_cases ho : s.opens.opt = some .ANSWER
  · rw [if_pos ho]
    exact ⟨fun _ => ho,fun _ => rfl⟩
  · rw [if_neg ho]
    exact ⟨fun h => absurd h (by decide),fun h => absurd h ho⟩

end stop

/-! ## What the players print -/

section print
variable {f : Access} {d : CycleDraw} {s : Mechine}

end print

/-! ## Runs inside the program -/

namespace Plain

section congr
variable {t : Plain} {ins : Fin insLen.len → Ins}

end congr

end Plain

/-! ## Whole runs -/

section run
variable {γ ε P : Type} [AddCommGroup P] {C : Circuits γ ε P} {Sync : γ → ε → Prop} {f : Access}
  {ds : ℕ → CycleDraw × GcDraw γ ε}

/-- The players in an iteration of the main loop, and the plain machine. -/
structure InLoop (x : ℕ × Mechine) (t : Plain) : Prop where
  shared : x.2.Shared
  mov : ∀ p, x.2.flags p .MOV = 0
  going : ∀ p, x.2.done p = false
  opens : x.2.opens = t

lemma InLoop.stops_iff {x : ℕ × Mechine} {t : Plain} (h : InLoop x t) {d : CycleDraw} (hd : d.Ok f)
    (p : Party) : x.2.stops f d p = true ↔ t.opt = some .ANSWER := by
  rw [OramPro.stops_iff h.shared hd h.going, h.opens]

lemma fullEffect_answer (t : Plain) : t.fullEffect .ANSWER = none := rfl

/-- While the plain machine goes on, so do the players, in step with it. -/
lemma InLoop.step (hC : C.Ok Sync) (hds : ∀ n, DrawOk f Sync (ds n)) {x : ℕ × Mechine} {t u : Plain}
    (h : InLoop x t) (hstep : t.fullStep = some u) :
    ∃ y, loopStep C f ds x = some y ∧ InLoop y u ∧ y.1 = x.1+1 := by
  obtain ⟨-, o, e, ho, he, -⟩ := Plain.fullStep_cases hstep
  have hd := hds x.1
  have hgo : ∀ p, x.2.stops f (ds x.1).1 p = false := by
    intro p
    rw [Bool.eq_false_iff, ne_eq, h.stops_iff hd.cycle p, ho, Option.some.injEq]
    rintro rfl
    rw [fullEffect_answer] at he
    cases he
  refine ⟨_,if_pos fun p _ => hgo p,⟨gcCycle_shared h.shared hd.cycle,h.mov,hgo,?_⟩,rfl⟩
  exact gcCycle_opens hC h.shared h.mov hd.cycle hd.sync (h.opens ▸ hstep)

lemma InLoop.iterate (hC : C.Ok Sync) (hds : ∀ n, DrawOk f Sync (ds n)) {n : ℕ} {x : ℕ × Mechine}
    {t u : Plain} (h : InLoop x t) (hrun : Reach.iterate Plain.fullStep n t = some u) :
    ∃ y, Reach.iterate (loopStep C f ds) n x = some y ∧ InLoop y u ∧ y.1 = x.1+n := by
  induction n generalizing x t with
  | zero =>
    obtain rfl := Option.some.inj hrun
    exact ⟨x,rfl,h,rfl⟩
  | succ n ih =>
    obtain ⟨v, hstep, hrest⟩ := Option.bind_eq_some_iff.mp hrun
    obtain ⟨y, hy, hloop, hcount⟩ := h.step hC hds hstep
    obtain ⟨z, hz, hlast, htotal⟩ := ih hloop hrest
    exact ⟨z,Option.bind_eq_some_iff.mpr ⟨y,hy,hz⟩,hlast,by omega⟩

end run

end OramPro
