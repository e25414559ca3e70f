import OramPro.RiscLoop

/-!
# Programs of the machine

The machine as a programmer sees it: decoded instructions, a flag that is a bit, and a program of any length.
A program of at most 32 instructions runs on the plain machine in the same way.
-/
namespace OramPro.Isa

open Reach

scoped instance registers_ne_zero : NeZero 32 := ⟨by norm_num⟩

inductive Operand
  | imm (w : Word)
  | reg (k : Fin 32)
  deriving DecidableEq

/-- The registers `i` and `j` and the last operand `A`. -/
structure Instr where
  op : Opt
  i : Fin 32
  j : Fin 32
  A : Operand
  deriving DecidableEq

structure State where
  pc : Word
  flag : Bool
  r : Fin 32 → Word
  mem : Fin 8192 → Word
  tape1 : Fin 32 → Word
  tape2 : Fin 32 → Word
  rc0 : Word
  rc1 : Word
  num0 : Word
  num1 : Word

def cell (w : Word) : Fin 8192 := ⟨w.toNat%8192,Nat.mod_lt _ (by norm_num)⟩
def tapeCell (w : Word) : Fin 32 := ⟨w.toNat%32,Nat.mod_lt _ (by norm_num)⟩

namespace State
variable (s : State)

def val : Operand → Word
  | .imm w => w
  | .reg k => s.r k

/-- The next instruction, with a new value in a register. -/
def write (k : Fin 32) (w : Word) (flag : Bool) : State :=
  { s with pc := s.pc+1, flag := flag, r := Function.update s.r k w }

def test (flag : Bool) : State := { s with pc := s.pc+1, flag := flag }

def jump (taken : Bool) (w : Word) : State := { s with pc := if taken then w else s.pc+1 }

def store (w : Word) (v : Word) : State := { s with pc := s.pc+1, mem := Function.update s.mem (cell w) v }

def read1 (k : Fin 32) : State :=
  { s.write k (s.tape1 (tapeCell s.rc0)) (s.rc0 = s.num0) with
    rc0 := if s.rc0 = s.num0 then s.rc0 else s.rc0+1 }

def read2 (k : Fin 32) : State :=
  { s.write k (s.tape2 (tapeCell s.rc1)) (s.rc1 = s.num1) with
    rc1 := if s.rc1 = s.num1 then s.rc1 else s.rc1+1 }

end State

/-- One instruction. `READ` takes the number of a tape. -/
def exec (s : State) (x : Instr) : Option State :=
  let a := s.val x.A
  let Ri := s.r x.i
  let Rj := s.r x.j
  let bits (file : GcOp.GcFile) := s.write x.i (file.op Rj a) (file.flag (file.op Rj a) = 1)
  match x.op with
  | .ANSWER => none
  | .AND => some (bits .and_32)
  | .OR => some (bits .or_32)
  | .EXOR => some (bits .xor_32)
  | .NOT => some (bits .not_32)
  | .SHL => some (bits .left_shift)
  | .SHR => some (bits .right_shift)
  | .ADD => some (s.write x.i (Rj+a) (2^32 ≤ Rj.toNat+a.toNat))
  | .SUB => some (s.write x.i (Rj-a) (Rj.toNat < a.toNat))
  | .MULL => some (s.write x.i (Rj*a) (2^32 ≤ Rj.toNat*a.toNat))
  | .MULLH => some (s.write x.i (BitVec.ofNat 32 (Rj.toNat*a.toNat/2^32)) (2^32 ≤ Rj.toNat*a.toNat))
  | .COMPE => some (s.test (Ri = a))
  | .COMPA => some (s.test (a.toNat < Ri.toNat))
  | .COMPAE => some (s.test (a.toNat ≤ Ri.toNat))
  | .MOV => some (s.write x.i a false)
  | .CMOV => some (s.write x.i (if s.flag then a else Ri) s.flag)
  | .JMP => some (s.jump true a)
  | .CJMP => some (s.jump s.flag a)
  | .CNJMP => some (s.jump (!s.flag) a)
  | .STORE => some (s.store a Ri)
  | .LOAD => some (s.write x.i (s.mem (cell a)) s.flag)
  | .READ => if a = 0 then some (s.read1 x.i) else if a = 1 then some (s.read2 x.i) else none

def step (prog : List Instr) (s : State) : Option State := (prog[s.pc.toNat]?).bind (exec s)

/-! ## Rules for programs -/

section rules
variable {prog : List Instr} {s t : State} {Q : State → Prop} {x : Instr} {n : ℕ}

lemma reaches_exec (hn : n < 2^32) (hpc : s.pc = BitVec.ofNat 32 n) (hfetch : prog[n]? = some x)
    (hexec : exec s x = some t) (h : Reaches (step prog) Q t) : Reaches (step prog) Q s := by
  have hat : s.pc.toNat = n := by rw [hpc, BitVec.toNat_ofNat, Nat.mod_eq_of_lt hn]
  exact .next (Option.bind_eq_some_iff.mpr ⟨x,by rw [hat, hfetch],hexec⟩) h

lemma next_pc {w : Word} (h : w = BitVec.ofNat 32 n) : w+1 = BitVec.ofNat 32 (n+1) := by
  rw [h, BitVec.ofNat_add]
  rfl

/-- Whether the next instruction in the program is the next one to run. -/
def Instr.straight (x : Instr) : Bool := x.op ∉ [Opt.ANSWER,.JMP,.CJMP,.CNJMP]

lemma exec_pc (hx : x.straight) (h : exec s x = some t) : t.pc = s.pc+1 := by
  obtain ⟨o, i, j, A⟩ := x
  cases o with
  | ANSWER | JMP | CJMP | CNJMP => cases hx
  | READ =>
    simp only [exec] at h
    split_ifs at h <;> obtain rfl := Option.some.inj h <;> rfl
  | _ =>
    obtain rfl := Option.some.inj h
    rfl

/-- A block without jumps. -/
lemma reaches_block (xs : List Instr) (hn : n+xs.length < 2^32) (hpc : s.pc = BitVec.ofNat 32 n)
    (hat : xs <+: prog.drop n) (hxs : ∀ x ∈ xs, x.straight) (hrun : xs.foldlM exec s = some t)
    (h : t.pc = BitVec.ofNat 32 (n+xs.length) → Reaches (step prog) Q t) : Reaches (step prog) Q s := by
  induction xs generalizing s n with
  | nil =>
    obtain rfl := Option.some.inj hrun
    exact h hpc
  | cons x xs ih =>
    obtain ⟨u, hexec, hrest⟩ := Option.bind_eq_some_iff.mp hrun
    obtain ⟨rest, hrest'⟩ := hat
    have hfetch : prog[n]? = some x := by
      have hget : (prog.drop n)[0]? = some x := by rw [← hrest']; rfl
      rwa [List.getElem?_drop, add_zero] at hget
    have hat' : xs <+: prog.drop (n+1) := ⟨rest,by
      rw [← List.drop_drop, ← hrest']
      rfl⟩
    rw [List.length_cons] at hn h
    have hpc' : u.pc = BitVec.ofNat 32 (n+1) := by
      rw [exec_pc (hxs x List.mem_cons_self) hexec, next_pc hpc]
    exact reaches_exec (by omega) hpc hfetch hexec (ih (by omega) hpc' hat'
      (fun y hy => hxs y (List.mem_cons_of_mem _ hy)) hrest fun ht => h (ht.trans (by
        congr 1
        omega)))

lemma reaches_jump {i j : Fin 32} {A : Operand} (hn : n < 2^32) (hpc : s.pc = BitVec.ofNat 32 n)
    (hfetch : prog[n]? = some ⟨.JMP,i,j,A⟩) (h : Reaches (step prog) Q { s with pc := s.val A }) :
    Reaches (step prog) Q s := reaches_exec hn hpc hfetch rfl h

/-- What a comparison writes to the flag. -/
def State.holds (s : State) (x : Instr) : Bool :=
  match x.op with
  | .COMPE => s.r x.i = s.val x.A
  | .COMPA => (s.val x.A).toNat < (s.r x.i).toNat
  | .COMPAE => (s.val x.A).toNat ≤ (s.r x.i).toNat
  | _ => false

def Instr.compares (x : Instr) : Bool := x.op ∈ [Opt.COMPE,.COMPA,.COMPAE]

lemma exec_compare (hx : x.compares) : exec s x = some (s.test (s.holds x)) := by
  obtain ⟨o, i, j, A⟩ := x
  cases o with
  | COMPE | COMPA | COMPAE => rfl
  | _ => cases hx

section branch
variable {i j : Fin 32} {w : ℕ}

/-- A comparison and a jump if it fails. -/
lemma reaches_unless (hn : n+1 < 2^32) (hpc : s.pc = BitVec.ofNat 32 n) (hfetch : prog[n]? = some x)
    (hx : x.compares) (hjump : prog[n+1]? = some ⟨.CNJMP,i,j,.imm (BitVec.ofNat 32 w)⟩)
    (hyes : s.holds x = true → Reaches (step prog) Q { s with pc := BitVec.ofNat 32 (n+2), flag := true })
    (hno : s.holds x = false → Reaches (step prog) Q { s with pc := BitVec.ofNat 32 w, flag := false }) :
    Reaches (step prog) Q s := by
  have hpc' := next_pc hpc
  refine reaches_exec (by omega) hpc hfetch (exec_compare hx) (reaches_exec hn hpc' hjump rfl ?_)
  cases h : s.holds x with
  | false => exact hno h
  | true =>
    have hnext := hyes h
    rw [← next_pc hpc'] at hnext
    exact hnext

/-- A comparison and a jump if it holds. -/
lemma reaches_if (hn : n+1 < 2^32) (hpc : s.pc = BitVec.ofNat 32 n) (hfetch : prog[n]? = some x)
    (hx : x.compares) (hjump : prog[n+1]? = some ⟨.CJMP,i,j,.imm (BitVec.ofNat 32 w)⟩)
    (hyes : s.holds x = true → Reaches (step prog) Q { s with pc := BitVec.ofNat 32 w, flag := true })
    (hno : s.holds x = false → Reaches (step prog) Q { s with pc := BitVec.ofNat 32 (n+2), flag := false }) :
    Reaches (step prog) Q s := by
  have hpc' := next_pc hpc
  refine reaches_exec (by omega) hpc hfetch (exec_compare hx) (reaches_exec hn hpc' hjump rfl ?_)
  cases h : s.holds x with
  | true => exact hyes h
  | false =>
    have hnext := hno h
    rw [← next_pc hpc'] at hnext
    exact hnext

end branch

end rules

/-! ## On the plain machine -/

/-- The instruction word of an instruction. -/
def Instr.load (x : Instr) : Ins where
  optr := BitVec.ofNat 8 x.op.code
  idic := match x.A with
    | .imm _ => 0
    | .reg k => BitVec.ofNat 8 (32+k)
  i := BitVec.ofNat 8 x.i
  j := BitVec.ofNat 8 x.j
  pad := 0
  imme := match x.A with
    | .imm w => w
    | .reg k => BitVec.ofNat 32 k

def word (b : Bool) : Word := if b then 1 else 0

/-- The plain machine holds a program and is in the state `s`. -/
structure Rel (prog : List Instr) (s : State) (t : Plain) : Prop where
  ins : ∀ k : Fin insLen.len, ∀ x, prog[k.1]? = some x → t.ins k = x.load
  pc : t.pc = s.pc
  flag : t.flag = word s.flag
  m : t.m = s.r
  mem : t.mem = s.mem
  tape1 : t.tape1 = s.tape1
  tape2 : t.tape2 = s.tape2
  rc0 : t.rc0 = s.rc0
  rc1 : t.rc1 = s.rc1
  num0 : t.num0 = s.num0
  num1 : t.num1 = s.num1

section rel
variable {prog : List Instr} {s : State} {t : Plain} {x : Instr}

/-- What an instruction reads, on the plain machine. -/
structure Reads (s : State) (x : Instr) (t : Plain) : Prop where
  i : t.i = x.i
  Ri : t.Ri = s.r x.i
  Rj : t.Rj = s.r x.j
  A : t.A = s.val x.A

end rel

end OramPro.Isa
