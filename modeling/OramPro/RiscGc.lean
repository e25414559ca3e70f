import OramPro.GcOp
import OramPro.Reach
import OramPro.RiscRun

/-!
# The machine with its garbled circuits

A cycle in which the slots of the bitwise opcodes hold what the circuits of the cycle return. The plain
machine then has every opcode but `ANSWER`, at which the machine stops.
-/
namespace OramPro

open Party GcOp

/-! ## The bitwise slots -/

/-- The circuit of an opcode. The results of opcode `i` are at `i-AND` of the lists. -/
def Opt.gcFile : Opt → Option GcFile
  | .AND => some .and_32
  | .OR => some .or_32
  | .EXOR => some .xor_32
  | .NOT => some .not_32
  | .SHL => some .left_shift
  | .SHR => some .right_shift
  | _ => none

/-- How the parties garble and transfer. -/
structure Circuits (γ ε P : Type) where
  E : Execution γ ε
  KDF : P → Block
  gen : P
  order : ℕ

structure Circuits.Ok {γ ε P : Type} [AddCommGroup P] (C : Circuits γ ε P) (Sync : γ → ε → Prop) : Prop where
  sound : C.E.Sound Sync
  delta : upper C.E.delta ≠ 0
  order : C.order • C.gen = 0

/-- What the circuits of a cycle consume. -/
structure GcDraw (γ ε : Type) where
  ot : OtDraw
  y : YDraw
  g : γ
  e : ε

section cycle
variable {γ ε P : Type} [AddCommGroup P] (C : Circuits γ ε P) (f : Access)

/-- `player1` and `player3` give their shares to the garbler and the evaluator. -/
def gcOuts (d : GcDraw γ ε) (x : Fetched) : Outs :=
  (GcOp.bitwise C.E C.KDF C.gen C.order d.ot d.y d.g d.e
    ((x.Rj player0+x.Rj player1).setWidth 64) ((x.A player0+x.A player1).setWidth 64)
    ((x.Rj player2+x.Rj player3).setWidth 64) ((x.A player2+x.A player3).setWidth 64) gcfiles).1

def gcBitwise (d : GcDraw γ ε) (x : Fetched) : Bitwise where
  r := d.y.r.setWidth 32
  r_flag := d.y.r_flag.setWidth 32
  r_set o := ((gcOuts C d x).r_set.getD (o.code-Opt.AND.code) 0).setWidth 32
  rflag_set o := ((gcOuts C d x).rflag_set.getD (o.code-Opt.AND.code) 0).setWidth 32

/-- The draws of a cycle, with the results of its circuits. -/
def gcDraw (d : CycleDraw) (c : GcDraw γ ε) (s : Mechine) : CycleDraw :=
  { d with run := { d.run with bitwise := gcBitwise C c (loadIns f d.fetch s.toEnv) } }

def Mechine.gcCycle (d : CycleDraw × GcDraw γ ε) (s : Mechine) : Mechine := s.cycle f (gcDraw C f d.1 d.2 s)

end cycle

/-! ## The plain machine -/

namespace Plain
variable (t : Plain)

def bits (file : GcFile) : Effect := ⟨file.op t.Rj t.A,file.flag (file.op t.Rj t.A)⟩

/-- The effects of all opcodes but `ANSWER`. -/
def fullEffect (o : Opt) : Option Effect :=
  match o.gcFile with
  | some file => some (t.bits file)
  | none => t.effect o

/-- One instruction. The jumps and `CMOV` need a flag that is a bit. -/
def fullStep : Option Plain :=
  if t.flag = 0 ∨ t.flag = 1 then do
    let o ← t.opt
    let e ← t.fullEffect o
    return t.exec o e
  else none

lemma fullStep_cases {t u : Plain} (h : t.fullStep = some u) : (t.flag = 0 ∨ t.flag = 1) ∧
    ∃ o e, t.opt = some o ∧ t.fullEffect o = some e ∧ u = t.exec o e := by
  simp only [fullStep, Option.ite_none_right_eq_some, bind, Option.bind_eq_some_iff, pure,
    Option.some.injEq] at h
  obtain ⟨hflag, o, ho, e, he, rfl⟩ := h
  exact ⟨hflag,o,e,ho,he,rfl⟩

end Plain

/-! ## What the bitwise slots hold -/

section slots
variable {γ ε P : Type} [AddCommGroup P] {C : Circuits γ ε P} {Sync : γ → ε → Prop} {f : Access}
  {x : Fetched} {t : Plain}

lemma halves_open (a : Party → Word) :
    (((a player2+a player3).setWidth 64).setWidth 32+((a player0+a player1).setWidth 64).setWidth 32 : Word) =
      open4 a := by
  have hback : ∀ w : Word, ((w.setWidth 64).setWidth 32 : Word) = w := fun w => by
    rw [BitVec.setWidth_setWidth_of_le _ (by norm_num), BitVec.setWidth_eq]
  rw [hback, hback, open4]
  ring

lemma slots_get {l : List (BitVec 64)} {r : Word} {ws : List Word}
    (h : l.map (fun w => w.setWidth 32+r) = ws) (k : ℕ) : r+(l.getD k 0).setWidth 32 = ws.getD k r := by
  have hdefault : (0 : BitVec 64).setWidth 32+r = r := BitVec.zero_add r
  have hget : (l.map fun w => w.setWidth 32+r).getD k ((0 : BitVec 64).setWidth 32+r) =
    (l.getD k 0).setWidth 32+r := List.getD_map l 0 _
  rw [add_comm, ← hget, hdefault, h]

lemma gcBitwise_shares (hC : C.Ok Sync) (hx : x.Holds t) {d : GcDraw γ ε} (hd : Sync d.g d.e) {o : Opt}
    {file : GcFile} (ho : o.gcFile = some file) :
    let b := gcBitwise C d x
    b.r+b.r_set o = (t.bits file).res ∧ b.r_flag+b.rflag_set o = (t.bits file).flag := by
  obtain ⟨hres, hflag, -⟩ := bitwise_shares hC.sound hC.delta hC.order d.ot d.y hd
    ((x.Rj player0+x.Rj player1).setWidth 64) ((x.A player0+x.A player1).setWidth 64)
    ((x.Rj player2+x.Rj player3).setWidth 64) ((x.A player2+x.A player3).setWidth 64) gcfiles
  rw [halves_open, halves_open, hx.Rj, hx.A] at hres hflag
  have h := slots_get hres (o.code-Opt.AND.code)
  have hf := slots_get hflag (o.code-Opt.AND.code)
  cases o with
  | AND | OR | EXOR | NOT | SHL | SHR =>
    obtain rfl := Option.some.inj ho
    exact ⟨h,hf⟩
  | _ => cases ho

end slots

/-! ## A cycle -/

section cycle
variable {f : Access} {d : CycleDraw} {s : Mechine}

/-- A cycle executes the opcode if the slots hold its effect. -/
lemma cycle_exec (hs : s.Shared) (hd : d.Ok f) (hflag : s.opens.flag = 0 ∨ s.opens.flag = 1) {o : Opt}
    {e : Effect} (ho : s.opens.opt = some o)
    (hres : (openRep fun p => (runOp f d.run s (loadIns f d.fetch s.toEnv)).res p o) = e.res)
    (hfl : (openRep fun p => (runOp f d.run s (loadIns f d.fetch s.toEnv)).flags p o) = e.flag) :
    (s.cycle f d).opens = s.opens.exec o e := by
  have hx := loadIns_holds hs hd.fetch
  obtain ⟨h0, h1⟩ := cycle_counters (e := e) hs hd ho
  have hsel := selected_open (fun o => runOp_res_rep hs hd.run hx o) hx.beta ho
  have hm : (s.cycle f d).opens.m = Function.update s.opens.m s.opens.i e.res := by
    funext k
    refine (cycle_m hs hd k.isLt).2.trans ?_
    rw [hsel, hres]
    by_cases hk : k = s.opens.i
    · rw [if_pos (congrArg Fin.val hk), hk, Function.update_self]
      exact add_sub_cancel _ _
    · rw [if_neg fun h => hk (Fin.ext h), Function.update_of_ne hk, add_zero]
      rfl
  exact Plain.ext (runOp_pc_open (f := f) (d := d.run) hx hflag ho) ((cycle_flag hs hd ho).trans hfl) h0 h1
    rfl rfl rfl hm (cycle_mem hs hd ho) rfl rfl

variable {γ ε P : Type} [AddCommGroup P] {C : Circuits γ ε P} {Sync : γ → ε → Prop} {c : GcDraw γ ε}
  {t : Plain}

lemma gcDraw_ok (hd : d.Ok f) : (gcDraw C f d c s).Ok f :=
  ⟨hd.fetch,⟨hd.run.eq_cmp,hd.run.read_flag0,hd.run.read_flag1,hd.run.load,hd.run.store,hd.run.tape1,
    hd.run.tape2⟩,hd.m⟩

lemma gcCycle_shared (hs : s.Shared) (hd : d.Ok f) : (s.gcCycle C f (d,c)).Shared := hs.cycle (gcDraw_ok hd)

/-- One cycle of the four parties, circuits included, simulates one step of the plain machine. -/
lemma gcCycle_opens (hC : C.Ok Sync) (hs : s.Shared) (hmov : ∀ p, s.flags p .MOV = 0) (hd : d.Ok f)
    (hc : Sync c.g c.e) (hstep : s.opens.fullStep = some t) : (s.gcCycle C f (d,c)).opens = t := by
  obtain ⟨hflag, o, e, ho, he, rfl⟩ := Plain.fullStep_cases hstep
  have hd' := gcDraw_ok (C := C) (c := c) (s := s) hd
  unfold Plain.fullEffect at he
  split at he
  · next file hfile =>
    obtain rfl := Option.some.inj he
    obtain ⟨hres, hfl⟩ := gcBitwise_shares hC (loadIns_holds hs hd.fetch) hc hfile
    refine cycle_exec hs hd' hflag ho (Eq.trans ?_ hres) (Eq.trans ?_ hfl)
    · cases o with
      | AND | OR | EXOR | NOT | SHL | SHR => rfl
      | _ => cases hfile
    · cases o with
      | AND | OR | EXOR | NOT | SHL | SHR => rfl
      | _ => cases hfile
  · have hplain : s.opens.step = some (s.opens.exec o e) := by
      simp [Plain.step, ho, he]
    exact cycle_opens hs hmov hd' hflag hplain

def Mechine.gcRun (C : Circuits γ ε P) (f : Access) (ds : List (CycleDraw × GcDraw γ ε)) (s : Mechine) : Mechine :=
  ds.foldl (fun s d => s.gcCycle C f d) s

def Plain.fullRun (n : ℕ) (t : Plain) : Option Plain := Reach.iterate Plain.fullStep n t

/-- What a cycle consumes is correct. -/
structure DrawOk (f : Access) (Sync : γ → ε → Prop) (d : CycleDraw × GcDraw γ ε) : Prop where
  cycle : d.1.Ok f
  sync : Sync d.2.g d.2.e

end cycle

section results
variable {γ ε P : Type} [AddCommGroup P] {C : Circuits γ ε P} {Sync : γ → ε → Prop} {f : Access}
  {s : Mechine} {t : Plain}

/-- Any number of cycles simulates as many steps of the plain machine with all its opcodes. -/
theorem gcRun_simulates (hC : C.Ok Sync) (hs : s.Shared) (hmov : ∀ p, s.flags p .MOV = 0)
    {ds : List (CycleDraw × GcDraw γ ε)} (hds : ∀ d ∈ ds, DrawOk f Sync d)
    (hrun : s.opens.fullRun ds.length = some t) :
    (s.gcRun C f ds).opens = t ∧ (s.gcRun C f ds).Shared := by
  induction ds generalizing s with
  | nil => exact ⟨Option.some.inj hrun,hs⟩
  | cons d ds ih =>
    obtain ⟨hd, hds⟩ := List.forall_mem_cons.mp hds
    obtain ⟨u, hstep, hrest⟩ := Option.bind_eq_some_iff.mp hrun
    have hone := gcCycle_opens hC hs hmov hd.cycle hd.sync hstep
    exact ih (s := s.gcCycle C f d) (gcCycle_shared hs hd.cycle) hmov hds (hone ▸ hrest)

def demoCircuits : Circuits ℕ ℕ (ZMod 5) := ⟨ofScheme (halfGates countHash demoDelta) demoDelta,demoKdf,1,5⟩

lemma demoCircuits_ok : demoCircuits.Ok Eq := ⟨halfGates_sound countHash (by decide),by decide,demo_order⟩

def demoGc : GcDraw ℕ ℕ := ⟨⟨2,fun i => i+1,fun i => i+3⟩,demoDraw,0,0⟩

lemma demo_draws_ok : ∀ d ∈ [(copyDraw,demoGc)], DrawOk copyAccess Eq d := by
  intro d hd
  obtain rfl := List.mem_singleton.mp hd
  exact ⟨copyDraw_ok,rfl⟩

/-- Register 0 XOR the immediate 7. -/
theorem gcRun_simulates_xor : ∃ t, (demo .EXOR 0).opens.fullRun 1 = some t ∧
    ((demo .EXOR 0).gcRun demoCircuits copyAccess [(copyDraw,demoGc)]).opens = t ∧ t.pc = 1 ∧ t.flag = 1 ∧
      t.m ⟨0,by decide⟩ = 7 := by
  have hstep : (demo .EXOR 0).opens.fullStep =
      some ((demo .EXOR 0).opens.exec .EXOR ((demo .EXOR 0).opens.bits .xor_32)) := by
    have hflag : (demo .EXOR 0).opens.flag = 0 := by decide
    rw [Plain.fullStep, if_pos (.inl hflag), demo_opt]
    rfl
  have hrun : (demo .EXOR 0).opens.fullRun 1 = some _ := Option.bind_eq_some_iff.mpr ⟨_,hstep,rfl⟩
  have h := gcRun_simulates demoCircuits_ok (demo_shared .EXOR 0) (fun _ => rfl) demo_draws_ok hrun
  exact ⟨_,hrun,h.1,rfl,by decide,by decide⟩

end results

end OramPro
