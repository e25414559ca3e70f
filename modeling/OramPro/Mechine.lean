import OramPro.Instruction
import OramPro.Operation

/-!
# The machine

One cycle fetches an instruction, runs every operation on it and keeps the result and the flag
that the opcode selects. The machine is the one built with `NEED_MUL`, `NEED_CMOV` and
`Total_bitwise`; what the garbled circuits return for the bitwise opcodes is a parameter.
-/
namespace OramPro

open Party

inductive Opt
  | ANSWER | AND | OR | EXOR | NOT | SHL | SHR | ADD | SUB | MULL | MULLH | COMPE | COMPA | COMPAE
  | MOV | CMOV | JMP | CJMP | CNJMP | STORE | LOAD | READ
  deriving DecidableEq

namespace Opt

def code : Opt → ℕ
  | ANSWER => 0x0 | AND => 0x01 | OR => 0x02 | EXOR => 0x03 | NOT => 0x04 | SHL => 0x05
  | SHR => 0x06 | ADD => 0x07 | SUB => 0x08 | MULL => 0x09 | MULLH => 0x0a | COMPE => 0x0b
  | COMPA => 0x0c | COMPAE => 0x0d | MOV => 0x0e | CMOV => 0x0f | JMP => 0x10 | CJMP => 0x11
  | CNJMP => 0x12 | STORE => 0x13 | LOAD => 0x14 | READ => 0x15

/-- The slots in the order of the loop of `ret_res`. -/
def all : List Opt := [ANSWER,AND,OR,EXOR,NOT,SHL,SHR,ADD,SUB,MULL,MULLH,COMPE,COMPA,COMPAE,MOV,CMOV,
  JMP,CJMP,CNJMP,STORE,LOAD,READ]

instance : Fintype Opt := ⟨⟨all,by decide⟩,fun o => by cases o <;> decide⟩

lemma code_injective : Function.Injective code := by
  unfold Function.Injective
  decide

lemma code_lt (o : Opt) : o.code < 2^optLen := by cases o <;> decide

end Opt

/-! ## Sizes -/

def insLen : DataLen := ⟨32,by norm_num,by norm_num⟩
def mLen : DataLen := ⟨32,by norm_num,by norm_num⟩
def dmLen : DataLen := ⟨64,by norm_num,by norm_num⟩
def betaLen : DataLen := ⟨32,by norm_num,by norm_num⟩
def memLen : DataLen := ⟨8192,by norm_num,by norm_num⟩
def tapeLen : DataLen := ⟨32,by norm_num,by norm_num⟩

/-! ## States -/

/-- The program is the first part of `mem` in the source and has its own array here. -/
structure Env where
  pc : Party → Word
  flag : Party → Word
  rc0 : Party → Word
  rc1 : Party → Word
  num0 : Party → Word
  num1 : Party → Word
  ins : Party → ℕ → BitVec 64
  m : Party → ℕ → Word
  mem : Party → ℕ → Word
  tape1 : Party → ℕ → Word
  tape2 : Party → ℕ → Word

structure Mechine extends Env where
  res : Party → Opt → Word
  flags : Party → Opt → Word
  done : Party → Bool

/-- The access structures of the seven arrays. -/
structure Access where
  ins : Fss
  m : Fss
  dm : Fss
  beta : Fss
  mem : Fss
  tape1 : Fss
  tape2 : Fss

/-- What `load_ins` consumes. -/
structure FetchDraw where
  ins : Party → FssTriple
  mi : Party → FssTriple
  mj : Party → FssTriple
  dm : Party → FssTriple
  beta : Party → FssTriple
  flag : ZeroDraw
  imme : ZeroDraw

/-- What the circuits return: one word for all opcodes at the first pair, a list at the second. -/
structure Bitwise where
  r : Word
  r_flag : Word
  r_set : Opt → Word
  rflag_set : Opt → Word

structure RunDraw where
  eq_cmp : EqDraw
  ae_cmp : OverflowDraw
  read_flag0 : EqDraw
  read_flag1 : EqDraw
  add_op : AddDraw
  sub_op : AddDraw
  mul_op : MulDraw
  mov_op : ZeroDraw
  cmov_op : ZeroDraw
  load_op : ZeroDraw
  load_tr : Party → FssTriple
  store_op : ZeroDraw
  store_tr : Party → WriteTuple
  read_op : ReadOpDraw
  bitwise : Bitwise

structure CycleDraw where
  fetch : FetchDraw
  run : RunDraw
  m_tr : Party → WriteTuple

/-! ## `load_ins` -/

/-- What `load_ins` leaves for the other two phases. -/
structure Fetched where
  now_ins : Party → Ins
  flag : Party → Word
  Ri : Party → Word
  Rj : Party → Word
  A : Party → Word
  betas : Party → Opt → Word
  stop : Party → Word

/-- The first half of the array is the immediate, the second half the registers. -/
def dupliM (A : Word) (m : ℕ → Word) (i : ℕ) : Word :=
  if i < mLen.len then A else if 2*mLen.len ≤ i then A else m (i-mLen.len)

section cycle
variable (f : Access)

def nowIns (d : FetchDraw) (s : Env) (p : Party) : Ins :=
  let data := m2i (read insLen f.ins d.ins s.ins s.pc false mulInsSingle addIns p)
  if p.isEven then data else data.neg

def loadIns (d : FetchDraw) (s : Env) : Fetched :=
  let now_ins := nowIns f d s
  let imme := toReplicated d.imme fun p => (now_ins p).imme
  let dm p := dupliM (imme p) (s.m p)
  let i p := (now_ins p).i.setWidth 32
  let j p := (now_ins p).j.setWidth 32
  let idic p := (now_ins p).idic.setWidth 32
  let optr p := (now_ins p).optr.setWidth 32
  let betas p (o : Opt) :=
    negOdd (fun q => recoverList betaLen f.beta d.beta optr false q o.code) p
  { now_ins := now_ins
    flag := toReplicated d.flag s.flag
    Ri := negOdd (read mLen f.m d.mi s.m i false (· * ·) (· + ·))
    Rj := negOdd (read mLen f.m d.mj s.m j false (· * ·) (· + ·))
    A := negOdd (read dmLen f.dm d.dm dm idic false (· * ·) (· + ·))
    betas := betas
    stop := twopcReveal fun p => betas p .ANSWER }

/-! ## `run_op` -/

def Bitwise.slot (b : Bitwise) (p : Party) (o : Opt) : Word := if p.isFirst then b.r else b.r_set o

def Bitwise.flagSlot (b : Bitwise) (p : Party) (o : Opt) : Word :=
  if p.isFirst then b.r_flag else b.rflag_set o

structure RunOut where
  pc : Party → Word
  rc0 : Party → Word
  rc1 : Party → Word
  mem : Party → ℕ → Word
  res : Party → Opt → Word
  flags : Party → Opt → Word
  Ri_rep : Party → Word

def runOp (d : RunDraw) (s : Mechine) (x : Fetched) : RunOut :=
  let beta o p := x.betas p o
  let pc p := if p = player0 then s.pc p+1 else s.pc p
  let read_eq0 := equal d.read_flag0 s.rc0 s.num0
  let read_eq1 := equal d.read_flag1 s.rc1 s.num1
  let eq_cmp := equal d.eq_cmp x.Ri x.A
  let ae_cmp := notFlag (overflow d.ae_cmp overflowSub x.Ri x.A)
  let add_op := addOp d.add_op x.Rj x.A
  let sub_op := subOp d.sub_op x.Rj x.A
  let mul_op := mulOp d.mul_op x.Rj x.A
  let mov_op := movOp d.mov_op x.A
  let cmov_op := cmovOp d.cmov_op x.A x.Ri x.flag
  let load_op := loadOp d.load_op memLen f.mem d.load_tr s.mem x.A
  let store_op := storeOp d.store_op memLen f.mem d.store_tr s.mem x.Ri x.A load_op (beta .STORE)
  let read_op := readOp d.read_op tapeLen f.tape1 f.tape2 s.tape1 s.tape2 s.rc0 s.rc1 x.A (beta .READ)
    read_eq0 read_eq1
  let jump_op := jumpOp x.A pc (beta .JMP)
  let cjump_op := cjumpOp x.A pc x.flag (beta .CJMP)
  let cnjump_op := cnjumpOp x.A pc x.flag (beta .CNJMP)
  { pc := fun p => pc p+(jump_op p+cjump_op p+cnjump_op p)
    rc0 := read_op.rc0
    rc1 := read_op.rc1
    mem := store_op.mem
    res := fun p => fun
      | .ANSWER => s.res p .ANSWER
      | .AND => d.bitwise.slot p .AND
      | .OR => d.bitwise.slot p .OR
      | .EXOR => d.bitwise.slot p .EXOR
      | .NOT => d.bitwise.slot p .NOT
      | .SHL => d.bitwise.slot p .SHL
      | .SHR => d.bitwise.slot p .SHR
      | .ADD => add_op.1 p
      | .SUB => sub_op.1 p
      | .MULL => mul_op.low p
      | .MULLH => mul_op.high p
      | .MOV => mov_op p
      | .CMOV => cmov_op p
      | .LOAD => load_op p
      | .READ => read_op.res p
      -- compares, jumps and the store give back the register
      | .COMPE | .COMPA | .COMPAE | .JMP | .CJMP | .CNJMP | .STORE => store_op.res p
    flags := fun p => fun
      | .ANSWER => s.flags p .ANSWER
      | .AND => d.bitwise.flagSlot p .AND
      | .OR => d.bitwise.flagSlot p .OR
      | .EXOR => d.bitwise.flagSlot p .EXOR
      | .NOT => d.bitwise.flagSlot p .NOT
      | .SHL => d.bitwise.flagSlot p .SHL
      | .SHR => d.bitwise.flagSlot p .SHR
      | .ADD => add_op.2 p
      | .SUB => sub_op.2 p
      | .MULL | .MULLH => mul_op.flag p
      | .COMPE => eq_cmp p
      | .COMPAE => ae_cmp p
      | .COMPA => ae_cmp p-eq_cmp p
      | .READ => read_op.flag p
      -- no operation writes the slot of `MOV`
      | .MOV => s.flags p .MOV
      | .CMOV | .JMP | .CJMP | .CNJMP | .LOAD | .STORE => x.flag p
    Ri_rep := store_op.res }

/-! ## `ret_res` -/

/-- The sum over all slots that `ret_res` forms. -/
def selected (slots betas : Party → Opt → Word) (p : Party) : Word :=
  Opt.all.foldl (fun now i => now+slots p i*betas p i) 0

def Mechine.cycle (d : CycleDraw) (s : Mechine) : Mechine :=
  let x := loadIns f d.fetch s.toEnv
  let y := runOp f d.run s x
  let now_res := selected y.res x.betas
  let i p := (x.now_ins p).i.setWidth 32
  { s with
    pc := y.pc
    flag := selected y.flags x.betas
    rc0 := y.rc0
    rc1 := y.rc1
    m := write2 mLen f.m d.m_tr s.m i now_res y.Ri_rep false true
      (write1 mLen d.m_tr i now_res y.Ri_rep)
    mem := y.mem
    res := y.res
    flags := y.flags
    done := fun p => s.done p || x.stop p == 1 }

end cycle

end OramPro
