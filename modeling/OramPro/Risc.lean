import OramPro.Mechine

/-!
# The plain machine

The plain machine works on the opened values. Its flag after `MOV` is zero: no operation of the
shared machine writes that slot, and the slots start at zero. Each phase of a shared cycle is
compared with it.
-/
namespace OramPro

open Party

/-! ## The plain machine -/

/-- The cell that `n` addresses. -/
def DataLen.cell (N : DataLen) (n : ℕ) : Fin N.len := ⟨n%N.len,Nat.mod_lt _ N.pos⟩

@[ext] structure Plain where
  pc : Word
  flag : Word
  rc0 : Word
  rc1 : Word
  num0 : Word
  num1 : Word
  ins : Fin insLen.len → Ins
  m : Fin mLen.len → Word
  mem : Fin memLen.len → Word
  tape1 : Fin tapeLen.len → Word
  tape2 : Fin tapeLen.len → Word

structure Effect where
  res : Word
  flag : Word

namespace Plain
variable (t : Plain)

def word : Ins := t.ins (insLen.cell t.pc.toNat)

def opt : Option Opt := Opt.all.find? fun o => o.code == t.word.optr.toNat%2^optLen

def i : Fin mLen.len := mLen.cell t.word.i.toNat
def j : Fin mLen.len := mLen.cell t.word.j.toNat
def Ri : Word := t.m t.i
def Rj : Word := t.m t.j

/-- The operand: the immediate, or a register when the indicator is large. -/
def A : Word :=
  if t.word.idic.toNat%dmLen.len < mLen.len then t.word.imme
  else t.m (mLen.cell t.word.idic.toNat)

def address : Fin memLen.len := memLen.cell t.A.toNat

/-- The tapes at their read counters, and whether they are read to the end. -/
def x0 : Word := t.tape1 (tapeLen.cell t.rc0.toNat)
def x1 : Word := t.tape2 (tapeLen.cell t.rc1.toNat)
def end0 : Word := if t.rc0 = t.num0 then 1 else 0
def end1 : Word := if t.rc1 = t.num1 then 1 else 0

def overflows : Word := if 2^32 ≤ t.Rj.toNat*t.A.toNat then 1 else 0

/-- What an instruction writes to register `i` and to the flag. The bitwise opcodes are left to
the circuits. -/
def effect : Opt → Option Effect
  | .ADD => some ⟨t.Rj+t.A,if 2^32 ≤ t.Rj.toNat+t.A.toNat then 1 else 0⟩
  | .SUB => some ⟨t.Rj-t.A,if t.Rj.toNat < t.A.toNat then 1 else 0⟩
  | .MULL => some ⟨t.Rj*t.A,t.overflows⟩
  | .MULLH => some ⟨BitVec.ofNat 32 (t.Rj.toNat*t.A.toNat/2^32),t.overflows⟩
  | .COMPE => some ⟨t.Ri,if t.Ri = t.A then 1 else 0⟩
  | .COMPA => some ⟨t.Ri,if t.A.toNat < t.Ri.toNat then 1 else 0⟩
  | .COMPAE => some ⟨t.Ri,if t.A.toNat ≤ t.Ri.toNat then 1 else 0⟩
  | .MOV => some ⟨t.A,0⟩
  | .CMOV => some ⟨if t.flag = 1 then t.A else t.Ri,t.flag⟩
  | .JMP | .CJMP | .CNJMP | .STORE => some ⟨t.Ri,t.flag⟩
  | .LOAD => some ⟨t.mem t.address,t.flag⟩
  -- `A` selects the tape
  | .READ => some ⟨t.x0+t.A*(t.x1-t.x0),(1-t.A)*t.end0+t.A*t.end1⟩
  | .ANSWER | .AND | .OR | .EXOR | .NOT | .SHL | .SHR => none

def nextPc : Opt → Word
  | .JMP => t.A
  | .CJMP => if t.flag = 1 then t.A else t.pc+1
  | .CNJMP => if t.flag = 1 then t.pc+1 else t.A
  | _ => t.pc+1

/-- One instruction. A tape's counter stands still at its end. -/
def exec (o : Opt) (e : Effect) : Plain :=
  { t with
    pc := t.nextPc o
    flag := e.flag
    m := Function.update t.m t.i e.res
    mem := if o = .STORE then Function.update t.mem t.address t.Ri else t.mem
    rc0 := if o = .READ then t.rc0+(1-t.A)*(1-t.end0) else t.rc0
    rc1 := if o = .READ then t.rc1+t.A*(1-t.end1) else t.rc1 }

def step : Option Plain := do
  let o ← t.opt
  let e ← t.effect o
  return t.exec o e

lemma opt_eq_some {o : Opt} : t.opt = some o ↔ o.code = t.word.optr.toNat%2^optLen := by
  have hmem : ∀ o : Opt, o ∈ Opt.all := Finset.mem_univ
  constructor
  · intro h
    simpa using List.find?_some h
  · intro h
    cases hf : t.opt with
    | none =>
      have := List.find?_eq_none.mp hf o (hmem o)
      simp [h] at this
    | some o' =>
      have ho' : o'.code = t.word.optr.toNat%2^optLen := by simpa using List.find?_some hf
      rw [Opt.code_injective (ho'.trans h.symm)]

end Plain

/-! ## Opening the shared machine -/

/-- The plain state behind the shares. Instruction words open field by field. -/
def Mechine.opens (s : Mechine) : Plain where
  pc := open4 s.pc
  flag := open4 s.flag
  rc0 := open4 s.rc0
  rc1 := open4 s.rc1
  num0 := open4 s.num0
  num1 := open4 s.num1
  ins k := (m2i (s.ins player0 k)).add (m2i (s.ins player2 k))
  m k := openRep fun p => s.m p k
  mem k := openRep fun p => s.mem p k
  tape1 k := openRep fun p => s.tape1 p k
  tape2 k := openRep fun p => s.tape2 p k

/-- The sharing invariant. It covers the slots that no operation writes. -/
structure Mechine.Shared (s : Mechine) : Prop where
  ins : ∀ k < insLen.len, Replicated fun p => s.ins p k
  m : ∀ k < mLen.len, Replicated fun p => s.m p k
  mem : ∀ k < memLen.len, Replicated fun p => s.mem p k
  tape1 : ∀ k < tapeLen.len, Replicated fun p => s.tape1 p k
  tape2 : ∀ k < tapeLen.len, Replicated fun p => s.tape2 p k
  answer : Replicated fun p => s.res p .ANSWER
  answerFlag : Replicated fun p => s.flags p .ANSWER
  movFlag : Replicated fun p => s.flags p .MOV

structure FetchDraw.Ok (f : Access) (d : FetchDraw) : Prop where
  ins : ReadOk insLen f.ins d.ins
  mi : ReadOk mLen f.m d.mi
  mj : ReadOk mLen f.m d.mj
  dm : ReadOk dmLen f.dm d.dm
  beta : ReadOk betaLen f.beta d.beta

structure RunDraw.Ok (f : Access) (d : RunDraw) : Prop where
  eq_cmp : d.eq_cmp.Ok
  read_flag0 : d.read_flag0.Ok
  read_flag1 : d.read_flag1.Ok
  load : ReadOk memLen f.mem d.load_tr
  store : WriteOk memLen f.mem d.store_tr
  tape1 : ReadOk tapeLen f.tape1 d.read_op.tr1
  tape2 : ReadOk tapeLen f.tape2 d.read_op.tr2

/-- The keys of a cycle are correct. -/
structure CycleDraw.Ok (f : Access) (d : CycleDraw) : Prop where
  fetch : d.fetch.Ok f
  run : d.run.Ok f
  m : WriteOk mLen f.m d.m_tr

lemma insLen_dvd : insLen.len ∣ 2^32 := by norm_num [insLen]
lemma mLen_dvd : mLen.len ∣ 2^32 := by norm_num [mLen]
lemma dmLen_dvd : dmLen.len ∣ 2^32 := by norm_num [dmLen]
lemma betaLen_dvd : betaLen.len ∣ 2^32 := by norm_num [betaLen]
lemma memLen_dvd : memLen.len ∣ 2^32 := by norm_num [memLen]
lemma tapeLen_dvd : tapeLen.len ∣ 2^32 := by norm_num [tapeLen]

/-! ## Fetching -/

section fetch
variable {f : Access} {d : FetchDraw} {s : Mechine}

lemma nowIns_open (hs : s.Shared) (hd : d.Ok f) {R : Type*} [CommRing R] {φ : Ins → R}
    {ψ : Word →+* R} (hφ : Linear (fun x => φ (m2i x)) ψ mulInsSingle addIns)
    (hneg : ∀ a, φ a.neg = -φ a) (hadd : ∀ a b, φ (a.add b) = φ a+φ b) :
    open4 (fun p => φ (nowIns f d s.toEnv p)) = φ s.opens.word := by
  have hrep : ∀ k < insLen.len, Replicated fun p => φ (m2i (s.ins p k)) := by
    intro k hk
    obtain ⟨h0, h2⟩ := hs.ins k hk
    exact ⟨congrArg (fun x => φ (m2i x)) h0,congrArg (fun x => φ (m2i x)) h2⟩
  have hread := read_open hφ hd.ins (readIndex_four insLen_dvd s.pc) hrep
  have hopen : φ s.opens.word = openRep fun p => φ (m2i (s.ins p ((open4 s.pc).toNat%insLen.len))) :=
    hadd _ _
  rw [hopen, ← hread]
  simp only [open4, openRead, nowIns, isEven, if_true, Bool.false_eq_true, if_false, hneg]
  ring

lemma imme_open (hs : s.Shared) (hd : d.Ok f) :
    open4 (fun p => (nowIns f d s.toEnv p).imme) = s.opens.word.imme :=
  nowIns_open (φ := Ins.imme) hs hd imme_linear (fun _ => rfl) fun _ _ => rfl

lemma field_open (hs : s.Shared) (hd : d.Ok f) (F : Field) {N : DataLen} (hN : N.len = 2^F.k) :
    (open4 fun p => (F.get (nowIns f d s.toEnv p)).setWidth 32).toNat%N.len =
      (F.get s.opens.word).toNat%N.len := by
  have hpart := nowIns_open hs hd F.linear F.part_neg F.part_add
  rw [hN, ← F.part_toNat, ← hpart, ← F.trunc_toNat]
  simp only [open4, map_add, F.trunc_word]

lemma dupliM_open {imme : Party → Word} {m : Party → ℕ → Word} (himme : Replicated imme)
    (hm : ∀ k < mLen.len, Replicated fun p => m p k) {k : ℕ} (hk : k < dmLen.len) :
    Replicated (fun p => dupliM (imme p) (m p) k) ∧
      openRep (fun p => dupliM (imme p) (m p) k) =
        if k < mLen.len then openRep imme else openRep fun p => m p (k-mLen.len) := by
  have hlen : dmLen.len = 2*mLen.len := rfl
  by_cases hlow : k < mLen.len
  · simp only [dupliM, hlow, if_true]
    exact ⟨himme,trivial⟩
  · simp only [dupliM, hlow, if_false, if_neg (by omega : ¬2*mLen.len ≤ k)]
    exact ⟨hm _ (by omega),trivial⟩

/-- The one-hot selector. -/
def Plain.beta (t : Plain) (o : Opt) : Word := if t.opt = some o then 1 else 0

/-- What the other phases use of a fetch. -/
structure Fetched.Holds (x : Fetched) (t : Plain) : Prop where
  flag : Replicated x.flag
  flagOpen : openRep x.flag = t.flag
  Ri : open4 x.Ri = t.Ri
  Rj : open4 x.Rj = t.Rj
  A : open4 x.A = t.A
  i : (open4 fun p => (x.now_ins p).i.setWidth 32).toNat%mLen.len = t.i
  beta : ∀ o, PairShared (fun p => x.betas p o) (t.beta o)

lemma loadIns_Ri (hs : s.Shared) (hd : d.Ok f) : open4 (loadIns f d s.toEnv).Ri = s.opens.Ri := by
  have h := open4_read mLen_dvd hd.mi hs.m fun p => (nowIns f d s.toEnv p).i.setWidth 32
  have hi : (open4 fun p => (nowIns f d s.toEnv p).i.setWidth 32).toNat%mLen.len = _ :=
    field_open hs hd iField rfl
  rw [hi] at h
  exact h

lemma loadIns_Rj (hs : s.Shared) (hd : d.Ok f) : open4 (loadIns f d s.toEnv).Rj = s.opens.Rj := by
  have h := open4_read mLen_dvd hd.mj hs.m fun p => (nowIns f d s.toEnv p).j.setWidth 32
  have hj : (open4 fun p => (nowIns f d s.toEnv p).j.setWidth 32).toNat%mLen.len = _ :=
    field_open hs hd jField rfl
  rw [hj] at h
  exact h

lemma loadIns_A (hs : s.Shared) (hd : d.Ok f) : open4 (loadIns f d s.toEnv).A = s.opens.A := by
  have himme := toReplicated_rep d.imme fun p => (nowIns f d s.toEnv p).imme
  have hdm := fun k (hk : k < dmLen.len) => dupliM_open himme hs.m hk
  have h := open4_read dmLen_dvd hd.dm (fun k hk => (hdm k hk).1)
    fun p => (nowIns f d s.toEnv p).idic.setWidth 32
  have hidic : (open4 fun p => (nowIns f d s.toEnv p).idic.setWidth 32).toNat%dmLen.len =
    s.opens.word.idic.toNat%dmLen.len := field_open hs hd idicField rfl
  have hlt : s.opens.word.idic.toNat%dmLen.len < dmLen.len := Nat.mod_lt _ dmLen.pos
  rw [hidic, (hdm _ hlt).2, toReplicated_open, imme_open hs hd] at h
  refine h.trans ?_
  have hlen : dmLen.len = 64 := rfl
  have hm : mLen.len = 32 := rfl
  rw [Plain.A]
  split
  · rfl
  · next hbig =>
    have hcell : s.opens.word.idic.toNat%dmLen.len-mLen.len = s.opens.word.idic.toNat%mLen.len := by
      rw [hlen, hm] at hbig ⊢
      omega
    rw [hcell]
    rfl

lemma loadIns_beta (hs : s.Shared) (hd : d.Ok f) (o : Opt) :
    PairShared (fun p => (loadIns f d s.toEnv).betas p o) (s.opens.beta o) := by
  have hi : ReadIndex betaLen (fun p => (nowIns f d s.toEnv p).optr.setWidth 32) false
      (s.opens.word.optr.toNat%betaLen.len) :=
    field_open hs hd optrField (N := betaLen) rfl ▸ readIndex_four betaLen_dvd _
  have hsel := fun p hp => recoverList_open hd.beta hi (o.code_lt : o.code < betaLen.len) p hp
  have hbeta : s.opens.beta o = if o.code = s.opens.word.optr.toNat%betaLen.len then 1 else 0 := by
    rw [Plain.beta]
    simp only [Plain.opt_eq_some]
    rfl
  rw [hbeta]
  constructor
  · rw [← hsel player0 rfl, sub_eq_add_neg]
    rfl
  · rw [← hsel player2 rfl, sub_eq_add_neg]
    rfl

theorem loadIns_holds (hs : s.Shared) (hd : d.Ok f) : (loadIns f d s.toEnv).Holds s.opens where
  flag := toReplicated_rep _ _
  flagOpen := toReplicated_open _ _
  Ri := loadIns_Ri hs hd
  Rj := loadIns_Rj hs hd
  A := loadIns_A hs hd
  i := field_open hs hd iField rfl
  beta := loadIns_beta hs hd

end fetch

/-! ## Selecting a slot -/

section select
variable {slots betas : Party → Opt → Word}

lemma selected_eq_sum (p : Party) : selected slots betas p = ∑ o, slots p o*betas p o := by
  have hsum : ∑ o, slots p o*betas p o = (Opt.all.map fun o => slots p o*betas p o).sum := rfl
  rw [hsum, List.sum_eq_foldl, List.foldl_map]
  rfl

lemma selected_open {t : Plain} (hrep : ∀ o, Replicated fun p => slots p o)
    (hb : ∀ o, PairShared (fun p => betas p o) (t.beta o)) {o : Opt} (ho : t.opt = some o) :
    open4 (selected slots betas) = openRep fun p => slots p o := by
  have hsum : open4 (selected slots betas) = ∑ o', (openRep fun p => slots p o')*t.beta o' := by
    have hswap : open4 (selected slots betas) = ∑ o', open4 fun p => slots p o'*betas p o' := by
      simp only [open4, selected_eq_sum, Finset.sum_add_distrib]
    rw [hswap]
    exact Finset.sum_congr rfl fun o' _ => open4_mul_pair (hrep o') (hb o')
  have hone : ∀ o', (openRep fun p => slots p o')*t.beta o' =
      if o = o' then openRep fun p => slots p o' else 0 := by
    intro o'
    rw [Plain.beta, ho]
    by_cases he : o = o' <;> simp [he]
  rw [hsum]
  simp only [hone, Finset.sum_ite_eq, Finset.mem_univ, if_true]

end select

/-! ## Running all operations -/

section run
variable {f : Access} {d : RunDraw} {s : Mechine} {x : Fetched}

lemma Plain.beta_cases (t : Plain) (o : Opt) : t.beta o = 0 ∨ t.beta o = 1 := by
  unfold Plain.beta
  split
  · exact .inr rfl
  · exact .inl rfl

lemma tapes_open (hs : s.Shared) (hd : d.Ok f) (hx : x.Holds s.opens) :
    let t := s.opens
    let out := readOp d.read_op tapeLen f.tape1 f.tape2 s.tape1 s.tape2 s.rc0 s.rc1 x.A
      (fun p => x.betas p .READ) (equal d.read_flag0 s.rc0 s.num0) (equal d.read_flag1 s.rc1 s.num1)
    (Replicated out.res ∧ openRep out.res = t.x0+t.A*(t.x1-t.x0)) ∧
    (Replicated out.flag ∧ openRep out.flag = (1-t.A)*t.end0+t.A*t.end1) ∧
    open4 out.rc0 = t.rc0+(1-t.A)*(1-t.end0)*t.beta .READ ∧
    open4 out.rc1 = t.rc1+t.A*(1-t.end1)*t.beta .READ := by
  obtain ⟨h0, e0⟩ := equal_open hd.read_flag0 s.rc0 s.num0
  obtain ⟨h1, e1⟩ := equal_open hd.read_flag1 s.rc1 s.num1
  have h := readOp_open s.rc0 s.rc1 x.A tapeLen_dvd hd.tape1 hd.tape2 hs.tape1 hs.tape2 h0 h1
    (hx.beta .READ) (Plain.beta_cases _ _)
  rw [hx.A, e0, e1] at h
  exact h

/-- Every slot is replicated, whatever its operation computes. -/
lemma runOp_res_rep (hs : s.Shared) (hd : d.Ok f) (hx : x.Holds s.opens) (o : Opt) :
    Replicated fun p => (runOp f d s x).res p o := by
  cases o with
  | ANSWER => exact hs.answer
  | AND | OR | EXOR | NOT | SHL | SHR => exact ⟨rfl,rfl⟩
  | ADD | SUB | MOV | CMOV | LOAD => exact toReplicated_rep _ _
  | MULL => exact mulOp_open.1.1
  | MULLH => exact mulOp_open.2.1.1
  | READ => exact (tapes_open hs hd hx).1.1
  | COMPE | COMPA | COMPAE | JMP | CJMP | CNJMP | STORE => exact toReplicated_rep _ _

lemma runOp_flags_rep (hs : s.Shared) (hd : d.Ok f) (hx : x.Holds s.opens) (o : Opt) :
    Replicated fun p => (runOp f d s x).flags p o := by
  cases o with
  | ANSWER => exact hs.answerFlag
  | MOV => exact hs.movFlag
  | AND | OR | EXOR | NOT | SHL | SHR => exact ⟨rfl,rfl⟩
  | ADD | SUB => exact toReplicated_rep _ _
  | MULL | MULLH => exact mulOp_open.2.2.1
  | COMPE => exact (equal_open hd.eq_cmp _ _).1
  | COMPAE => exact (notFlag_spec overflow_sub.1).1
  | COMPA => exact sub_rep (notFlag_spec overflow_sub.1).1 (equal_open hd.eq_cmp _ _).1
  | READ => exact (tapes_open hs hd hx).2.1.1
  | CMOV | JMP | CJMP | CNJMP | LOAD | STORE => exact hx.flag

lemma runOp_res_open (hs : s.Shared) (hd : d.Ok f) (hx : x.Holds s.opens)
    (hflag : s.opens.flag = 0 ∨ s.opens.flag = 1) {o : Opt} {e : Effect}
    (he : s.opens.effect o = some e) :
    (openRep fun p => (runOp f d s x).res p o) = e.res := by
  cases o with
  | ANSWER | AND | OR | EXOR | NOT | SHL | SHR => cases he
  | ADD =>
    obtain rfl := Option.some.inj he
    refine (toReplicated_open _ _).trans ?_
    rw [open4_add, hx.Rj, hx.A]
  | SUB =>
    obtain rfl := Option.some.inj he
    refine (toReplicated_open _ _).trans ?_
    rw [open4_sub, hx.Rj, hx.A]
  | MULL =>
    obtain rfl := Option.some.inj he
    refine mulOp_open.1.2.trans ?_
    rw [hx.Rj, hx.A]
  | MULLH =>
    obtain rfl := Option.some.inj he
    refine mulOp_open.2.1.2.trans ?_
    rw [hx.Rj, hx.A]
  | MOV =>
    obtain rfl := Option.some.inj he
    exact (toReplicated_open _ _).trans hx.A
  | CMOV =>
    obtain rfl := Option.some.inj he
    refine (cmovOp_open hx.flag).trans ?_
    rw [hx.flagOpen, hx.A, hx.Ri]
    rcases hflag with h | h <;> simp [h]
  | LOAD =>
    obtain rfl := Option.some.inj he
    refine (toReplicated_open _ _).trans ?_
    rw [open4_read memLen_dvd hd.load hs.mem, hx.A]
    rfl
  | READ =>
    obtain rfl := Option.some.inj he
    exact (tapes_open hs hd hx).1.2
  | COMPE | COMPA | COMPAE | JMP | CJMP | CNJMP | STORE =>
    obtain rfl := Option.some.inj he
    exact (toReplicated_open _ _).trans hx.Ri

lemma runOp_flags_open (hs : s.Shared) (hd : d.Ok f) (hx : x.Holds s.opens) {o : Opt} {e : Effect}
    (he : s.opens.effect o = some e) (hmov : o ≠ .MOV) :
    (openRep fun p => (runOp f d s x).flags p o) = e.flag := by
  have hov := overflow_sub (d := d.ae_cmp) (R := x.Ri) (A := x.A)
  have heq := equal_open hd.eq_cmp x.Ri x.A
  have hcmp := notFlag_order hov.1 hov.2 (equal d.eq_cmp x.Ri x.A)
  rw [hx.Ri, hx.A] at hcmp heq
  cases o with
  | ANSWER | AND | OR | EXOR | NOT | SHL | SHR => cases he
  | ADD =>
    obtain rfl := Option.some.inj he
    refine overflow_add.2.trans ?_
    rw [hx.Rj, hx.A]
  | SUB =>
    obtain rfl := Option.some.inj he
    refine overflow_sub.2.trans ?_
    rw [hx.Rj, hx.A]
  | MULL | MULLH =>
    obtain rfl := Option.some.inj he
    refine mulOp_open.2.2.2.trans ?_
    rw [hx.Rj, hx.A]
    rfl
  | COMPE =>
    obtain rfl := Option.some.inj he
    exact heq.2
  | COMPAE =>
    obtain rfl := Option.some.inj he
    exact hcmp.1
  | COMPA =>
    obtain rfl := Option.some.inj he
    exact hcmp.2.mpr heq.2
  | MOV => exact absurd rfl hmov
  | READ =>
    obtain rfl := Option.some.inj he
    exact (tapes_open hs hd hx).2.1.2
  | CMOV | JMP | CJMP | CNJMP | LOAD | STORE =>
    obtain rfl := Option.some.inj he
    exact hx.flagOpen

lemma Plain.beta_self {t : Plain} {o : Opt} (ho : t.opt = some o) : t.beta o = 1 := if_pos ho

lemma Plain.beta_ne {t : Plain} {o o' : Opt} (ho : t.opt = some o) (hne : o ≠ o') : t.beta o' = 0 :=
  if_neg fun h => hne (Option.some.inj (ho.symm.trans h))

/-- The three jumps add what is missing to the next instruction. -/
lemma runOp_pc_open (hx : x.Holds s.opens) (hflag : s.opens.flag = 0 ∨ s.opens.flag = 1) {o : Opt}
    (ho : s.opens.opt = some o) : open4 (runOp f d s x).pc = s.opens.nextPc o := by
  obtain ⟨hn, hnOpen⟩ := notFlag_spec hx.flag
  have hpc : (open4 fun p => if p = player0 then s.pc p+1 else s.pc p) = s.opens.pc+1 := by
    have hone : open4 s.pc+1 = s.opens.pc+1 := rfl
    rw [← hone]
    simp [open4]
    ring
  have hj := jumpOp_open x.A (fun p => if p = player0 then s.pc p+1 else s.pc p) (hx.beta .JMP)
  have hcj := condJump_open x.A (fun p => if p = player0 then s.pc p+1 else s.pc p) hx.flag hn
    (hx.beta .CJMP)
  have hcn := condJump_open x.A (fun p => if p = player0 then s.pc p+1 else s.pc p) hn hx.flag
    (hx.beta .CNJMP)
  rw [hpc, hx.A] at hj hcj hcn
  rw [hnOpen, hx.flagOpen] at hcj hcn
  have hsum : open4 (runOp f d s x).pc = s.opens.pc+1+((s.opens.A-(s.opens.pc+1))*s.opens.beta .JMP
      +(s.opens.A*s.opens.flag+(s.opens.pc+1)*(1-s.opens.flag)-(s.opens.pc+1))*s.opens.beta .CJMP
      +(s.opens.A*(1-s.opens.flag)+(s.opens.pc+1)*s.opens.flag-(s.opens.pc+1))
        *s.opens.beta .CNJMP) := by
    rw [← hj, ← hcj, ← hcn, ← hpc, ← open4_add, ← open4_add, ← open4_add]
    rfl
  rw [hsum]
  by_cases h1 : o = .JMP
  · subst h1
    rw [Plain.beta_self ho, Plain.beta_ne ho (by decide : Opt.JMP ≠ .CJMP),
      Plain.beta_ne ho (by decide : Opt.JMP ≠ .CNJMP), Plain.nextPc]
    ring
  by_cases h2 : o = .CJMP
  · subst h2
    rw [Plain.beta_self ho, Plain.beta_ne ho (by decide : Opt.CJMP ≠ .JMP),
      Plain.beta_ne ho (by decide : Opt.CJMP ≠ .CNJMP), Plain.nextPc]
    rcases hflag with h | h <;> simp [h]
  by_cases h3 : o = .CNJMP
  · subst h3
    rw [Plain.beta_self ho, Plain.beta_ne ho (by decide : Opt.CNJMP ≠ .JMP),
      Plain.beta_ne ho (by decide : Opt.CNJMP ≠ .CJMP), Plain.nextPc]
    rcases hflag with h | h <;> simp [h]
  rw [Plain.beta_ne ho h1, Plain.beta_ne ho h2, Plain.beta_ne ho h3]
  have hnext : s.opens.nextPc o = s.opens.pc+1 := by
    cases o <;> first | rfl | contradiction
  rw [hnext]
  ring

/-- The store that every cycle performs keeps the memory replicated and changes it for `STORE` only. -/
lemma runOp_mem (hs : s.Shared) (hd : d.Ok f) (hx : x.Holds s.opens) {k : ℕ}
    (hk : k < memLen.len) :
    Replicated (fun p => (runOp f d s x).mem p k) ∧
      openRep (fun p => (runOp f d s x).mem p k) = openRep (fun p => s.mem p k)+
        if k = s.opens.address then
          (s.opens.Ri-openRep fun p => s.mem p k)*s.opens.beta .STORE else 0 := by
  have hload := open4_read memLen_dvd hd.load hs.mem x.A
  have h := storeOp_open (d := d.store_op) x.Ri memLen_dvd hd.store hs.mem
    (toReplicated_rep d.load_op _) ((toReplicated_open d.load_op _).trans hload) (hx.beta .STORE) hk
  rw [hx.Ri, hx.A] at h
  exact h

end run

end OramPro
