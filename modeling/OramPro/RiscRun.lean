import OramPro.RamRun
import OramPro.Risc

/-!
# Cycles of the machine

A cycle simulates a step of the plain machine, and it keeps the sharing invariant whatever it
executes.
-/
namespace OramPro

open Party

section cycle
variable {f : Access} {d : CycleDraw} {s : Mechine} {t : Plain}

lemma cycle_m (hs : s.Shared) (hd : d.Ok f) {k : ℕ} (hk : k < mLen.len) :
    let y := runOp f d.run s (loadIns f d.fetch s.toEnv)
    Replicated (fun p => (s.cycle f d).m p k) ∧
      openRep (fun p => (s.cycle f d).m p k) = openRep (fun p => s.m p k)+
        if k = s.opens.i then
          open4 (selected y.res (loadIns f d.fetch s.toEnv).betas)-s.opens.Ri else 0 := by
  intro y
  have hx := loadIns_holds hs hd.fetch
  have hi : WriteIndex mLen (fun p => ((loadIns f d.fetch s.toEnv).now_ins p).i.setWidth 32) false
      s.opens.i := hx.i ▸ writeIndex_four mLen_dvd _
  have htarget : Target (selected y.res (loadIns f d.fetch s.toEnv).betas) true
      (open4 (selected y.res (loadIns f d.fetch s.toEnv).betas)) := rfl
  have hrep : Replicated y.Ri_rep := toReplicated_rep _ _
  have hopen : openRep y.Ri_rep = s.opens.Ri := (toReplicated_open _ _).trans hx.Ri
  have h := write2_open hd.m hi htarget hrep hk (hs.m k hk)
  rw [hopen] at h
  exact h

/-- The invariant survives every cycle, whatever the opcode. -/
lemma Mechine.Shared.cycle (hs : s.Shared) (hd : d.Ok f) : (s.cycle f d).Shared where
  ins := hs.ins
  m _ hk := (cycle_m hs hd hk).1
  mem _ hk := (runOp_mem hs hd.run (loadIns_holds hs hd.fetch) hk).1
  tape1 := hs.tape1
  tape2 := hs.tape2
  answer := hs.answer
  answerFlag := hs.answerFlag
  movFlag := hs.movFlag

lemma cycle_flag (hs : s.Shared) (hd : d.Ok f) {o : Opt} (ho : s.opens.opt = some o) :
    open4 (s.cycle f d).flag =
      openRep fun p => (runOp f d.run s (loadIns f d.fetch s.toEnv)).flags p o := by
  have hx := loadIns_holds hs hd.fetch
  exact selected_open (fun o => runOp_flags_rep hs hd.run hx o) hx.beta ho

lemma cycle_regs (hs : s.Shared) (hd : d.Ok f) (hflag : s.opens.flag = 0 ∨ s.opens.flag = 1)
    {o : Opt} {e : Effect} (ho : s.opens.opt = some o) (he : s.opens.effect o = some e) :
    (s.cycle f d).opens.m = Function.update s.opens.m s.opens.i e.res := by
  have hx := loadIns_holds hs hd.fetch
  have hres := (selected_open (fun o => runOp_res_rep hs hd.run hx o) hx.beta ho).trans
    (runOp_res_open hs hd.run hx hflag he)
  funext k
  refine (cycle_m hs hd k.isLt).2.trans ?_
  rw [hres]
  by_cases hk : k = s.opens.i
  · rw [if_pos (congrArg Fin.val hk), hk, Function.update_self]
    exact add_sub_cancel _ _
  · rw [if_neg fun h => hk (Fin.ext h), Function.update_of_ne hk, add_zero]
    rfl

lemma cycle_mem (hs : s.Shared) (hd : d.Ok f) {o : Opt} (ho : s.opens.opt = some o) :
    (s.cycle f d).opens.mem =
      if o = .STORE then Function.update s.opens.mem s.opens.address s.opens.Ri
      else s.opens.mem := by
  have hx := loadIns_holds hs hd.fetch
  funext k
  refine (runOp_mem hs hd.run hx k.isLt).2.trans ?_
  by_cases hst : o = .STORE
  · subst hst
    rw [if_pos rfl, Plain.beta_self ho]
    by_cases hk : k = s.opens.address
    · rw [if_pos (congrArg Fin.val hk), hk, Function.update_self, mul_one]
      exact add_sub_cancel _ _
    · rw [if_neg fun h => hk (Fin.ext h), Function.update_of_ne hk, add_zero]
      rfl
  · rw [if_neg hst, Plain.beta_ne ho hst, mul_zero, ite_self, add_zero]
    rfl

lemma cycle_counters (hs : s.Shared) (hd : d.Ok f) {o : Opt} {e : Effect}
    (ho : s.opens.opt = some o) :
    open4 (s.cycle f d).rc0 = (s.opens.exec o e).rc0 ∧
      open4 (s.cycle f d).rc1 = (s.opens.exec o e).rc1 := by
  obtain ⟨-, -, h0, h1⟩ := tapes_open hs hd.run (loadIns_holds hs hd.fetch)
  have hexec0 : (s.opens.exec o e).rc0 =
    if o = .READ then s.opens.rc0+(1-s.opens.A)*(1-s.opens.end0) else s.opens.rc0 := rfl
  have hexec1 : (s.opens.exec o e).rc1 =
    if o = .READ then s.opens.rc1+s.opens.A*(1-s.opens.end1) else s.opens.rc1 := rfl
  rw [hexec0, hexec1]
  by_cases hr : o = .READ
  · subst hr
    rw [Plain.beta_self ho, mul_one] at h0 h1
    exact ⟨h0,h1⟩
  · rw [Plain.beta_ne ho hr, mul_zero, add_zero] at h0 h1
    rw [if_neg hr, if_neg hr]
    exact ⟨h0,h1⟩

lemma cycle_opens (hs : s.Shared) (hmov : ∀ p, s.flags p .MOV = 0) (hd : d.Ok f)
    (hflag : s.opens.flag = 0 ∨ s.opens.flag = 1) (hstep : s.opens.step = some t) :
    (s.cycle f d).opens = t := by
  simp only [Plain.step, bind, Option.bind_eq_some_iff, pure, Option.some.injEq] at hstep
  obtain ⟨o, ho, e, he, rfl⟩ := hstep
  have hx := loadIns_holds hs hd.fetch
  obtain ⟨h0, h1⟩ := cycle_counters (e := e) hs hd ho
  have hfl : open4 (s.cycle f d).flag = e.flag := by
    rw [cycle_flag hs hd ho]
    by_cases hm : o = .MOV
    · subst hm
      obtain rfl := Option.some.inj he
      have hzero : (openRep fun p => s.flags p .MOV) = 0 := by simp [openRep, hmov]
      exact hzero
    · exact runOp_flags_open hs hd.run hx he hm
  exact Plain.ext (runOp_pc_open (f := f) (d := d.run) hx hflag ho) hfl h0 h1 rfl rfl rfl (cycle_regs hs hd hflag ho he)
    (cycle_mem hs hd ho) rfl rfl

def Mechine.run (f : Access) (ds : List CycleDraw) (s : Mechine) : Mechine :=
  ds.foldl (fun s d => s.cycle f d) s

lemma Mechine.Shared.run {ds : List CycleDraw} (hs : s.Shared) (hds : ∀ d ∈ ds, d.Ok f) :
    (s.run f ds).Shared := by
  induction ds generalizing s with
  | nil => exact hs
  | cons d ds ih =>
    exact ih (hs.cycle (hds d List.mem_cons_self)) fun d' h => hds d' (List.mem_cons_of_mem d h)

/-- The plain machine, as long as the flag is a bit. -/
def Plain.run : ℕ → Plain → Option Plain
  | 0,t => some t
  | n+1,t => if t.flag = 0 ∨ t.flag = 1 then t.step.bind (Plain.run n) else none

/-- Any number of cycles simulates as many steps. -/
theorem run_simulates {ds : List CycleDraw} (hs : s.Shared) (hmov : ∀ p, s.flags p .MOV = 0)
    (hds : ∀ d ∈ ds, d.Ok f) (hrun : s.opens.run ds.length = some t) : (s.run f ds).opens = t := by
  induction ds generalizing s with
  | nil => exact Option.some.inj hrun
  | cons d ds ih =>
    have hd := hds d List.mem_cons_self
    simp only [List.length_cons, Plain.run] at hrun
    split at hrun
    · next hflag =>
      obtain ⟨t', hstep, hrest⟩ := Option.bind_eq_some_iff.mp hrun
      have hone := cycle_opens hs hmov hd hflag hstep
      exact ih (s := s.cycle f d) (hs.cycle hd) hmov (fun d' h => hds d' (List.mem_cons_of_mem d h))
        (hone ▸ hrest)
    · cases hrun

end cycle

/-! ## A concrete machine -/

section demo
variable {N : DataLen}

def copyTriple (N : DataLen) : Party → FssTriple :=
  prepareRead (ramAccess copyPrg 0 N) N ⟨0,0,0,0,copyKey,copyKey⟩

def copyTuple (N : DataLen) : Party → WriteTuple :=
  prepareWrite (ramAccess copyPrg 0 N) N ⟨0,0,0,0,0,0,copyKey,copyKey⟩

lemma copyTriple_ok (h0 : 2 ≤ logn N.len) (h1 : logn N.len ≤ 29) :
    ReadOk N (ramAccess copyPrg 0 N) (copyTriple N) :=
  prepareRead_ok h0 h1 (logn_spec (N.le.trans (by norm_num))).1 (copyKey_fine _ rfl _) (copyKey_fine _ rfl _)

lemma copyTuple_ok (h0 : 2 ≤ logn N.len) (h1 : logn N.len ≤ 29) :
    WriteOk N (ramAccess copyPrg 0 N) (copyTuple N) :=
  prepareWrite_ok h0 h1 (logn_spec (N.le.trans (by norm_num))).1 (copyKey_fine _ rfl _) (copyKey_fine _ rfl _)

/-- Keys for the point 0: on the path they evaluate to 1 and 0. -/
def copyEq : EqDraw where
  f := ⟨copyPrg,32,4294967311⟩
  k0 := ⟨treeKey copyPrg (pathBits 32 0) copyKey.root copyKey.level true,1839342905⟩
  k1 := ⟨treeKey copyPrg (pathBits 32 0) copyKey.root copyKey.level false,1839342905⟩
  r_cmpe := 0
  d0 := 0
  d1 := 0
  d2 := 0

lemma copyEq_eval (k : ServerKeyEq) (x : Word) :
    evalEqKey copyEq k x =
      let s := (walk copyPrg k.toTreeKey (pathBits 32 (x.zeroExtend 64)) 31).1
      BitVec.ofNat 32 ((import16 s*2^128+import16 s)*2^16*k.w%4294967311) := by
  simp [evalEqKey, evaluateEq, copyEq]

lemma copyEq_ok : copyEq.Ok := by
  intro x
  have hx : (x.zeroExtend 64).toNat%2^32 = x.toNat := by
    have := x.isLt
    rw [BitVec.toNat_setWidth]
    omega
  have hleaf := prefixOf_leaf (n := 32) (by norm_num) (by norm_num) (x.zeroExtend 64)
  have hzero : prefixOf (pathBits 32 0) 31 = 0 := prefixOf_leaf (by norm_num) (by norm_num) 0
  have hlt : x.toNat < 2^(31+1) := x.isLt
  rw [hx] at hleaf
  have hx31 : prefixOf (pathBits 32 (x.zeroExtend 64)) 31 = x.toNat := hleaf
  have hk0 : copyEq.k0.toTreeKey = treeKey copyPrg (pathBits 32 0) copyKey.root copyKey.level true :=
    rfl
  have hk1 : copyEq.k1.toTreeKey = treeKey copyPrg (pathBits 32 0) copyKey.root copyKey.level false :=
    rfl
  rw [copyEq_eval, copyEq_eval, hk0, hk1]
  simp only [walk_eq_nodeAt, hx31]
  by_cases h0 : x = copyEq.r_cmpe
  · have hpath : x.toNat = prefixOf (pathBits 32 0) 31 := by
      rw [h0, hzero]
      rfl
    rw [if_pos h0, hpath, nodeAt_path, nodeAt_path, copy_path]
    decide
  · have hne : x.toNat ≠ prefixOf (pathBits 32 0) 31 := by
      rw [hzero]
      exact fun h => h0 (BitVec.eq_of_toNat_eq h)
    have hw : copyEq.k0.w = copyEq.k1.w := rfl
    rw [if_neg h0, nodeAt_off_path copyPrg _ copyKey.root copyKey.level hlt hne, hw, sub_self]

/-- An access structure for every array. -/
def copyAccess : Access where
  ins := ramAccess copyPrg 0 insLen
  m := ramAccess copyPrg 0 mLen
  dm := ramAccess copyPrg 0 dmLen
  beta := ramAccess copyPrg 0 betaLen
  mem := ramAccess copyPrg 0 memLen
  tape1 := ramAccess copyPrg 0 tapeLen
  tape2 := ramAccess copyPrg 0 tapeLen

def zeroSharing : ZeroDraw := ⟨0,0,0⟩

def zeroLt : LtDraw := ⟨copyKey.root,copyKey.level,⟨0,0⟩,fun _ => ⟨0,0⟩⟩

def zeroGate : GateDraw := ⟨⟨copyPrg,0,0⟩,0,zeroLt,zeroLt,0,0,0⟩

def zeroOverflow : OverflowDraw := ⟨zeroGate,zeroGate,zeroGate,zeroSharing⟩

def copyDraw : CycleDraw where
  fetch := ⟨copyTriple insLen,copyTriple mLen,copyTriple mLen,copyTriple dmLen,copyTriple betaLen,
    zeroSharing,zeroSharing⟩
  run :=
    { eq_cmp := copyEq
      ae_cmp := zeroOverflow
      read_flag0 := copyEq
      read_flag1 := copyEq
      add_op := ⟨zeroSharing,zeroOverflow⟩
      sub_op := ⟨zeroSharing,zeroOverflow⟩
      mul_op := ⟨zeroGate,zeroGate,zeroGate,zeroGate,zeroGate,zeroGate⟩
      mov_op := zeroSharing
      cmov_op := zeroSharing
      load_op := zeroSharing
      load_tr := copyTriple memLen
      store_op := zeroSharing
      store_tr := copyTuple memLen
      read_op := ⟨zeroSharing,copyTriple tapeLen,copyTriple tapeLen⟩
      bitwise := ⟨0,0,fun _ => 0,fun _ => 0⟩ }
  m_tr := copyTuple mLen

lemma copyDraw_ok : copyDraw.Ok copyAccess := by
  have hins : 2 ≤ logn insLen.len ∧ logn insLen.len ≤ 29 := by decide
  have hdm : 2 ≤ logn dmLen.len ∧ logn dmLen.len ≤ 29 := by decide
  have hmem : 2 ≤ logn memLen.len ∧ logn memLen.len ≤ 29 := by decide
  have h32 := copyTriple_ok hins.1 hins.2
  refine ⟨⟨h32,h32,h32,copyTriple_ok hdm.1 hdm.2,h32⟩,?_,copyTuple_ok hins.1 hins.2⟩
  exact ⟨copyEq_ok,copyEq_ok,copyEq_ok,copyTriple_ok hmem.1 hmem.2,copyTuple_ok hmem.1 hmem.2,h32,h32⟩

/-- All words are zero but the flag and the first instruction, which has the immediate 7. -/
def demo (o : Opt) (flag : Word) : Mechine where
  pc _ := 0
  flag p := if p = player0 then flag else 0
  rc0 _ := 0
  rc1 _ := 0
  num0 _ := 0
  num1 _ := 0
  ins p k := if p.isFirst && k == 0 then i2m ⟨BitVec.ofNat 8 o.code,0,0,0,0,7⟩ else 0
  m _ _ := 0
  mem _ _ := 0
  tape1 _ _ := 0
  tape2 _ _ := 0
  res _ _ := 0
  flags _ _ := 0
  done _ := false

lemma demo_shared (o : Opt) (flag : Word) : (demo o flag).Shared :=
  ⟨fun _ _ => ⟨rfl,rfl⟩,fun _ _ => ⟨rfl,rfl⟩,fun _ _ => ⟨rfl,rfl⟩,fun _ _ => ⟨rfl,rfl⟩,
    fun _ _ => ⟨rfl,rfl⟩,⟨rfl,rfl⟩,⟨rfl,rfl⟩,⟨rfl,rfl⟩⟩

lemma demo_opt (o : Opt) (flag : Word) : (demo o flag).opens.opt = some o := by
  have hword : (demo o flag).opens.word.optr =
    ((m2i (i2m ⟨BitVec.ofNat 8 o.code,0,0,0,0,7⟩)).add (m2i 0)).optr := rfl
  rw [Plain.opt_eq_some, hword]
  cases o <;> decide

end demo

/-! ## What a cycle does -/

section results
variable {f : Access} {d : CycleDraw} {s : Mechine} {t : Plain}

/-- One cycle of the four parties simulates one step of the plain machine. -/
theorem cycle_simulates (hs : s.Shared) (hmov : ∀ p, s.flags p .MOV = 0) (hd : d.Ok f)
    (hflag : s.opens.flag = 0 ∨ s.opens.flag = 1) (hstep : s.opens.step = some t) :
    (s.cycle f d).Shared ∧ (∀ p, (s.cycle f d).flags p .MOV = 0) ∧ (s.cycle f d).opens = t :=
  ⟨hs.cycle hd,hmov,cycle_opens hs hmov hd hflag hstep⟩

/-- A move of the immediate 7 into register 0. -/
theorem cycle_simulates_mov : ∃ t, (demo .MOV 1).opens.step = some t ∧
    ((demo .MOV 1).cycle copyAccess copyDraw).opens = t ∧ t.pc = 1 ∧ t.m ⟨0,by decide⟩ = 7 := by
  have hstep : (demo .MOV 1).opens.step = some ((demo .MOV 1).opens.exec .MOV ⟨7,0⟩) := by
    rw [Plain.step, demo_opt]
    rfl
  have h := cycle_simulates (demo_shared .MOV 1) (fun _ => rfl) copyDraw_ok (.inr rfl) hstep
  exact ⟨_,hstep,h.2.2,rfl,rfl⟩

/-- In every reachable state, an instruction that defines no flag keeps the flag, unless it is a
`MOV` and its slot, which no operation refreshes, holds another value. -/
theorem run_keeps_flag {ds : List CycleDraw} (hs : s.Shared) (hds : ∀ d ∈ ds, d.Ok f)
    (hd : d.Ok f) {o : Opt} (hk : o ∈ [Opt.MOV,.CMOV,.JMP,.CJMP,.CNJMP,.LOAD,.STORE])
    (ho : (s.run f ds).opens.opt = some o) :
    ((s.run f ds).cycle f d).opens.flag = (s.run f ds).opens.flag ↔
      o ≠ .MOV ∨ (openRep fun p => (s.run f ds).flags p .MOV) = (s.run f ds).opens.flag := by
  have hrun := hs.run hds
  have hx := loadIns_holds hrun hd.fetch
  have hflag : ((s.run f ds).cycle f d).opens.flag = _ := cycle_flag hrun hd ho
  rw [hflag]
  by_cases hm : o = .MOV
  · subst hm
    simp only [ne_eq, not_true, false_or]
    rfl
  · have he : ∃ e, (s.run f ds).opens.effect o = some e ∧ e.flag = (s.run f ds).opens.flag := by
      fin_cases hk
      · exact absurd rfl hm
      all_goals exact ⟨_,rfl,rfl⟩
    obtain ⟨e, he, hefl⟩ := he
    have hkeep := (runOp_flags_open hrun hd.run hx he hm).trans hefl
    exact ⟨fun _ => .inl hm,fun _ => hkeep⟩

theorem run_keeps_flag_cmov :
    ((demo .CMOV 1).cycle copyAccess copyDraw).opens.flag = (demo .CMOV 1).opens.flag :=
  (run_keeps_flag (demo_shared .CMOV 1) (List.forall_mem_nil _) copyDraw_ok (by simp)
    (demo_opt .CMOV 1)).mpr (.inl (by decide))

/-- A `MOV` loses a flag that is set, as the slots start at zero. -/
theorem mov_loses_flag : ((demo .MOV 1).cycle copyAccess copyDraw).opens.flag ≠
    (demo .MOV 1).opens.flag := by
  have h : ((demo .MOV 1).cycle copyAccess copyDraw).opens.flag = _ :=
    cycle_flag (demo_shared .MOV 1) copyDraw_ok (demo_opt .MOV 1)
  rw [h]
  decide

end results

end OramPro
