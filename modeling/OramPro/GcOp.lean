import OramPro.CircuitFiles
import OramPro.Garbling
import OramPro.RandomOt

/-!
# The garbled operations of a cycle

`Bitwise` at the garbler `player0` and the evaluator `player2`, who hold the sum of two shares each. The
garbled circuits add the halves up, apply each circuit and subtract random words of the garbler. How a
circuit is garbled is a parameter; the messages of the other operations of a cycle are left out.
-/
namespace OramPro.GcOp

open BMR Cir Garbling

def lens : ℕ := 32

/-- The files of `run_op`. -/
inductive GcFile
  | and_32 | or_32 | xor_32 | not_32 | left_shift | right_shift
  deriving DecidableEq

def GcFile.circuit : GcFile → Circuit
  | .and_32 => Cir.and_32
  | .or_32 => Cir.or_32
  | .xor_32 => Cir.xor_32
  | .not_32 => Cir.not_32
  | .left_shift => Cir.left_shift
  | .right_shift => Cir.right_shift

def gcfiles : List GcFile := [.and_32,.or_32,.xor_32,.not_32,.left_shift,.right_shift]

/-- `compute` under the `circ_exec` of each party. -/
structure Execution (γ ε : Type) where
  delta : Block
  gen : Circuit → (ℕ → Block) → (ℕ → Block) → Sends γ Block (ℕ → Block)
  eva : Circuit → (ℕ → Block) → (ℕ → Block) → Reads ε Block (ℕ → Block)

/-! ## `to_Y` -/

/-- The labels of the inputs that a party holds after `to_Y`. -/
structure Labels where
  R0 : ℕ → Block
  R1 : ℕ → Block
  A0 : ℕ → Block
  A1 : ℕ → Block
  R_plus : ℕ → Block
  Flag_plus : ℕ → Block

def to_binary (a : BitVec 64) (i : ℕ) : Bool := a.getLsbD i

def label (delta a : Block) (x : Bool) : Block := if x then a ^^^ delta else a

def send_block {γ : Type} (data : ℕ → Block) (n : ℕ) : Sends γ Block Unit :=
  send ((List.range n).map data)

def recv_block {ε : Type} (n : ℕ) : Reads ε Block (ℕ → Block) := do
  let l ← recv n
  return fun i => l.getD i 0

/-- `tmps` holds `lens` blocks of `R`, then those of `A`. -/
def tmps {α : Type} (R A : ℕ → α) (i : ℕ) : α := if i < lens then R i else A (i-lens)

/-- What `to_Y` draws at the garbler, and the words that will mask the results. -/
structure YDraw extends Labels where
  r : BitVec 64
  r_flag : BitVec 64

section to_Y
variable {γ ε : Type} (E : Execution γ ε)

/-- The garbler transfers the labels of the evaluator's words before it sends those of its own. -/
def to_Y_send (d : YDraw) (R A : BitVec 64) : Sends γ Block Labels := do
  send_block (fun i => label E.delta (d.R1 i) (to_binary R i)) lens
  send_block (fun i => label E.delta (d.A1 i) (to_binary A i)) lens
  send_block (fun i => label E.delta (d.R_plus i) (to_binary d.r i)) lens
  send_block (fun i => label E.delta (d.Flag_plus i) (to_binary d.r_flag i)) lens
  return d.toLabels

/-- The evaluator, with the blocks of the transfer. -/
def to_Y_recv (tmps : ℕ → Block) : Reads ε Block Labels := do
  let R1 ← recv_block lens
  let A1 ← recv_block lens
  let R_plus ← recv_block lens
  let Flag_plus ← recv_block lens
  return ⟨tmps,R1,fun i => tmps (lens+i),A1,R_plus,Flag_plus⟩

end to_Y

/-- The exponents of the transfer. -/
structure OtDraw where
  d : ℕ
  rs : ℕ → ℕ
  ks : ℕ → ℕ

/-- The blocks that the evaluator gets for the choice `b`. -/
def transfer {P : Type*} [AddCommGroup P] (KDF : P → Block) (gen : P) (order : ℕ) (x : OtDraw)
    (data0 data1 : ℕ → Block) (b : ℕ → Bool) (i : ℕ) : Block :=
  RandomOt.recv KDF (x.ks i) (x.rs i • gen) (b i)
    (RandomOt.send KDF gen order x.d (x.rs i) (RandomOt.pk gen (x.d • gen) (x.ks i) (b i)) (data0 i) (data1 i))

/-! ## `runs` -/

/-- A circuit writes its `n3` outputs; the rest of the array stays. -/
def store (n3 : ℕ) (out old : ℕ → Block) (i : ℕ) : Block := if i < n3 then out i else old i

structure Tmp where
  tmp : ℕ → Block
  tmp_flag : ℕ → Block
  res_set : List (ℕ → Block)
  flagres_set : List (ℕ → Block)

section runs
variable {m : Type → Type} [Monad m] (compute : Circuit → (ℕ → Block) → (ℕ → Block) → m (ℕ → Block))

/-- The flag of a shift is a bit of the result; the others check the result for zero. -/
def flagOf (file : GcFile) (tmp tmp_flag : ℕ → Block) : m (ℕ → Block) :=
  match file with
  | .left_shift => return Function.update tmp_flag 0 (tmp (lens-1))
  | .right_shift => return Function.update tmp_flag 0 (tmp 0)
  | _ => do return store zero_check.n3 (← compute zero_check tmp tmp) tmp_flag

def runsTurn (b : Labels) (R A : ℕ → Block) (s : Tmp) (file : GcFile) : m Tmp := do
  let tmp := store file.circuit.n3 (← compute file.circuit R A) s.tmp
  let tmp_flag ← flagOf compute file tmp s.tmp_flag
  let tmp2 ← compute sub_32 tmp b.R_plus
  let tmp3 ← compute sub_32 tmp_flag b.Flag_plus
  return ⟨tmp,tmp_flag,s.res_set++[tmp2],s.flagres_set++[tmp3]⟩

/-- Both parties run it, each with its own `compute`. -/
def runs (b : Labels) (files : List GcFile) : m Tmp := do
  let R ← compute add_32 b.R0 b.R1
  let A ← compute add_32 b.A0 b.A1
  files.foldlM (runsTurn compute b R A) ⟨fun _ => 0,fun _ => 0,[],[]⟩

end runs

/-! ## `to_As` -/

/-- The upper word of a block. -/
def upper (b : Block) : BitVec 64 := b.extractLsb' 64 64

/-- The bits where the labels differ, the most significant first. -/
def unmask (tmpd ele : ℕ → Block) : BitVec 64 :=
  (List.range lens).foldr (fun i r => if upper (tmpd i) = upper (ele i) then r*2 else r*2+1) 0

def to_As_send {γ : Type} (t : Tmp) : Sends γ Block Unit := do
  t.res_set.forM fun ele => send_block ele lens
  t.flagres_set.forM fun ele => send_block ele lens

def unmaskAll {ε : Type} (set : List (ℕ → Block)) : Reads ε Block (List (BitVec 64)) :=
  set.mapM fun ele => do return unmask (← recv_block lens) ele

structure Outs where
  r_set : List (BitVec 64)
  rflag_set : List (BitVec 64)

def to_As_recv {ε : Type} (t : Tmp) : Reads ε Block Outs := do
  let r_set ← unmaskAll t.res_set
  let rflag_set ← unmaskAll t.flagres_set
  return ⟨r_set,rflag_set⟩

/-! ## Both parties -/

section parties
variable {γ ε : Type} (E : Execution γ ε)

def garbler (d : YDraw) (R A : BitVec 64) (files : List GcFile) : Sends γ Block Unit := do
  let b ← to_Y_send E d R A
  to_As_send (← runs E.gen b files)

def evaluator (ot : ℕ → Block) (files : List GcFile) : Reads ε Block Outs := do
  let b ← to_Y_recv ot
  to_As_recv (← runs E.eva b files)

/-- What the evaluator gets, starting with its words `R` and `A`. -/
def bitwise {P : Type*} [AddCommGroup P] (KDF : P → Block) (gen : P) (order : ℕ) (x : OtDraw) (d : YDraw)
    (g : γ) (e : ε) (R0 A0 R A : BitVec 64) (files : List GcFile) : Outs × ε × List Block :=
  let ot := transfer KDF gen order x (tmps d.R0 d.A0)
    (tmps (fun i => d.R0 i ^^^ E.delta) fun i => d.A0 i ^^^ E.delta) (tmps (to_binary R) (to_binary A))
  evaluator E ot files e (garbler E d R0 A0 files g).2.2

end parties

/-! ## What the labels stand for -/

section carries
variable (delta : Block)

/-- The evaluator's labels `a'` stand for the word `w`. -/
def Carries (a a' : ℕ → Block) (w : Word) : Prop := ∀ i < lens, a' i = label delta (a i) (w.getLsbD i)

/-- The circuits are garbled correctly, and the evaluator reads what the garbler sends. -/
structure Execution.Sound {γ ε : Type} (E : Execution γ ε) (Sync : γ → ε → Prop) : Prop where
  compute : ∀ cf : Circuit, cf.Topological → ∀ (a b a' b' : ℕ → Block) (x : ℕ → Bool),
    (∀ i < cf.n1, a' i = label E.delta (a i) (x i)) →
    (∀ i < cf.n2, b' i = label E.delta (b i) (x (cf.n1+i))) →
    Agree Sync (E.gen cf a b) (E.eva cf a' b') fun o o' =>
      ∀ i < cf.n3, o' i = label E.delta (o i) (cf.plain x (cf.num_wire-cf.n3+i))

variable {delta}

lemma carries_bit {a a' : ℕ → Block} {x : Bool} (h0 : a' 0 = label delta (a 0) x)
    (h : ∀ i < lens, i ≠ 0 → a' i = a i) : Carries delta a a' (if x then 1 else 0) := by
  intro i hi
  rcases Nat.eq_zero_or_pos i with rfl | hpos
  · rw [h0]
    cases x <;> rfl
  · have hbit : (if x then 1 else 0 : Word).getLsbD i = false := by
      cases x with
      | false => exact BitVec.getLsbD_zero
      | true =>
        have hone : (1 : Word).getLsbD i = _ := BitVec.getLsbD_one
        rw [decide_eq_false (by omega : ¬i = 0), Bool.and_false] at hone
        exact hone
    rw [hbit, h i hi (by omega)]
    rfl

end carries

section agree
variable {γ ε : Type} {E : Execution γ ε} {Sync : γ → ε → Prop}

lemma compute_word (hE : E.Sound Sync) {cf : Circuit} (hcf : cf ∈ Cir.files) (hn1 : cf.n1 = 32)
    (hn2 : cf.n2 ≤ 32) {op : Word → Word → Word} (hop : Computes cf op) {a a' b b' : ℕ → Block} {x y : Word}
    (ha : Carries E.delta a a' x) (hb : Carries E.delta b b' y) :
    Agree Sync (E.gen cf a b) (E.eva cf a' b') fun o o' =>
      ∀ i < cf.n3, o' i = label E.delta (o i) ((op x y).getLsbD i) := by
  obtain ⟨z, hz⟩ : ∃ z, Loaded cf x y z := by
    refine ⟨fun i => if i < 32 then x.getLsbD i else y.getLsbD (i-32),fun i hi => if_pos (hn1 ▸ hi),fun i _ => ?_⟩
    rw [hn1, if_neg (by omega), Nat.add_sub_cancel_left]
  have hrun := hE.compute cf (files_topological hcf) a b a' b' z
    (fun i hi => hz.first i hi ▸ ha i (hi.trans_eq hn1)) fun i hi => hz.second i hi ▸ hb i (hi.trans_le hn2)
  refine hrun.mono fun o o' h i hi => ?_
  rw [h i hi, hop x y z hz i hi]

end agree

/-! ## The operations -/

def GcFile.op : GcFile → Word → Word → Word
  | .and_32 => fun a b => a &&& b
  | .or_32 => fun a b => a ||| b
  | .xor_32 => fun a b => a ^^^ b
  | .not_32 => fun a _ => ~~~a
  | .left_shift => fun a b => a <<< (b.toNat%32)
  | .right_shift => fun a b => a.sshiftRight (b.toNat%32)

/-- The flag that goes with a result. -/
def GcFile.flag : GcFile → Word → Word
  | .left_shift => fun w => if w.getLsbD 31 then 1 else 0
  | .right_shift => fun w => if w.getLsbD 0 then 1 else 0
  | _ => fun w => if w = 0 then 0 else 1

lemma circuit_computes (file : GcFile) : Computes file.circuit file.op := by
  cases file with
  | and_32 => exact and_computes
  | or_32 => exact or_computes
  | xor_32 => exact xor_computes
  | not_32 => exact not_computes
  | left_shift => exact left_computes
  | right_shift => exact right_computes

lemma circuit_mem (file : GcFile) : file.circuit ∈ Cir.files := by
  cases file <;> simp [GcFile.circuit, Cir.files]

lemma circuit_sizes (file : GcFile) : file.circuit.n1 = 32 ∧ file.circuit.n2 ≤ 32 ∧ file.circuit.n3 = 32 := by
  cases file <;> decide

section agree
variable {γ ε : Type} {E : Execution γ ε} {Sync : γ → ε → Prop}

lemma sub_agree (hE : E.Sound Sync) {a a' b b' : ℕ → Block} {x y : Word} (ha : Carries E.delta a a' x)
    (hb : Carries E.delta b b' y) :
    Agree Sync (E.gen sub_32 a b) (E.eva sub_32 a' b') fun o o' => Carries E.delta o o' (x-y) :=
  compute_word hE (by simp [Cir.files]) rfl (le_refl 32) sub_computes ha hb

lemma add_agree (hE : E.Sound Sync) {a a' b b' : ℕ → Block} {x y : Word} (ha : Carries E.delta a a' x)
    (hb : Carries E.delta b b' y) :
    Agree Sync (E.gen add_32 a b) (E.eva add_32 a' b') fun o o' => Carries E.delta o o' (x+y) :=
  compute_word hE (by simp [Cir.files]) rfl (le_refl 32) add_computes ha hb

/-- Above the first wire, the flag arrays of the parties are the same. -/
def SameTail (a a' : ℕ → Block) : Prop := ∀ i < lens, i ≠ 0 → a' i = a i

lemma SameTail.update {a a' : ℕ → Block} (h : SameTail a a') (x y : Block) :
    SameTail (Function.update a 0 x) (Function.update a' 0 y) := by
  intro i hi hne
  rw [Function.update_of_ne hne, Function.update_of_ne hne]
  exact h i hi hne

lemma flagOf_agree (hE : E.Sound Sync) (file : GcFile) {t t' a a' : ℕ → Block} {w : Word}
    (ht : Carries E.delta t t' w) (ha : SameTail a a') :
    Agree Sync (flagOf E.gen file t a) (flagOf E.eva file t' a') fun o o' =>
      SameTail o o' ∧ Carries E.delta o o' (file.flag w) := by
  have hbit : ∀ i < lens, SameTail (Function.update a 0 (t i)) (Function.update a' 0 (t' i)) ∧
      Carries E.delta (Function.update a 0 (t i)) (Function.update a' 0 (t' i))
        (if w.getLsbD i then 1 else 0) := by
    intro i hi
    refine ⟨ha.update _ _,carries_bit ?_ (ha.update _ _)⟩
    rw [Function.update_self, Function.update_self]
    exact ht i hi
  have hzero : Agree Sync (do return store zero_check.n3 (← E.gen zero_check t t) a)
      (do return store zero_check.n3 (← E.eva zero_check t' t') a') fun o o' =>
      SameTail o o' ∧ Carries E.delta o o' (if w = 0 then 0 else 1) := by
    refine (compute_word hE (by simp [Cir.files]) rfl (Nat.zero_le _) zero_computes ht ht).bind
      fun o o' ho => .pure ?_
    have htail : SameTail (store zero_check.n3 o a) (store zero_check.n3 o' a') := by
      intro i hi hne
      have hbig : ¬i < zero_check.n3 := fun h => hne (Nat.lt_one_iff.mp h)
      rw [store, store, if_neg hbig, if_neg hbig]
      exact ha i hi hne
    refine ⟨htail,?_⟩
    have hfirst : store zero_check.n3 o' a' 0 = label E.delta (store zero_check.n3 o a 0) (decide (w ≠ 0)) := by
      refine (ho 0 Nat.zero_lt_one).trans ?_
      by_cases hw : w = 0
      · subst hw
        rfl
      · rw [if_neg hw, decide_eq_true hw]
        rfl
    have hflag : (if w = 0 then 0 else 1 : Word) = if decide (w ≠ 0) then 1 else 0 := by
      by_cases hw : w = 0 <;> simp [hw]
    rw [hflag]
    exact carries_bit hfirst htail
  cases file with
  | and_32 | or_32 | xor_32 | not_32 => exact hzero
  | left_shift => exact .pure (hbit 31 (by decide))
  | right_shift => exact .pure (hbit 0 (by decide))

/-- Lists of labels that stand for a list of words. -/
inductive CarriesAll (delta : Block) : List (ℕ → Block) → List (ℕ → Block) → List Word → Prop
  | nil : CarriesAll delta [] [] []
  | cons {a a' : ℕ → Block} {w : Word} {as as' : List (ℕ → Block)} {ws : List Word}
      (h : Carries delta a a' w) (hs : CarriesAll delta as as' ws) :
      CarriesAll delta (a :: as) (a' :: as') (w :: ws)

lemma CarriesAll.concat {delta : Block} {as as' : List (ℕ → Block)} {ws : List Word}
    (hs : CarriesAll delta as as' ws) {a a' : ℕ → Block} {w : Word} (h : Carries delta a a' w) :
    CarriesAll delta (as++[a]) (as'++[a']) (ws++[w]) := by
  induction hs with
  | nil => exact .cons h .nil
  | cons h1 _ ih => exact .cons h1 ih

/-- The results for words `R` and `A`, less the garbler's words. -/
def results (R A r : Word) (files : List GcFile) : List Word :=
  (files.map fun file => file.op R A).map (· - r)

def flagResults (R A r : Word) (files : List GcFile) : List Word :=
  (files.map fun file => file.flag (file.op R A)).map (· - r)

/-- After the files of `done`. -/
structure TmpRel (delta : Block) (R A r r_flag : Word) (done : List GcFile) (s t : Tmp) : Prop where
  tail : SameTail s.tmp_flag t.tmp_flag
  res : CarriesAll delta s.res_set t.res_set (results R A r done)
  flags : CarriesAll delta s.flagres_set t.flagres_set (flagResults R A r_flag done)

lemma runsTurn_agree (hE : E.Sound Sync) {b b' : Labels} {R R' A A' : ℕ → Block} {x y r r_flag : Word}
    (hR : Carries E.delta R R' x) (hA : Carries E.delta A A' y)
    (hr : Carries E.delta b.R_plus b'.R_plus r) (hrf : Carries E.delta b.Flag_plus b'.Flag_plus r_flag)
    {done : List GcFile} {s t : Tmp} (h : TmpRel E.delta x y r r_flag done s t) (file : GcFile) :
    Agree Sync (runsTurn E.gen b R A s file) (runsTurn E.eva b' R' A' t file) fun s' t' =>
      TmpRel E.delta x y r r_flag (done++[file]) s' t' := by
  obtain ⟨hn1, hn2, hn3⟩ := circuit_sizes file
  refine (compute_word hE (circuit_mem file) hn1 hn2 (circuit_computes file) hR hA).bind fun o o' ho => ?_
  have hop : Carries E.delta (store file.circuit.n3 o s.tmp) (store file.circuit.n3 o' t.tmp)
      (file.op x y) := by
    intro i hi
    have hlt : i < file.circuit.n3 := hn3 ▸ hi
    rw [store, store, if_pos hlt, if_pos hlt]
    exact ho i hlt
  refine (flagOf_agree hE file hop h.tail).bind fun f f' hf => ?_
  refine (sub_agree hE hop hr).bind fun u u' hu => ?_
  refine (sub_agree hE hf.2 hrf).bind fun v v' hv => .pure ⟨hf.1,?_,?_⟩
  · rw [results, List.map_append, List.map_append]
    exact h.res.concat hu
  · rw [flagResults, List.map_append, List.map_append]
    exact h.flags.concat hv

lemma runs_agree (hE : E.Sound Sync) {b b' : Labels} {x0 x1 y0 y1 r r_flag : Word}
    (hR0 : Carries E.delta b.R0 b'.R0 x0) (hR1 : Carries E.delta b.R1 b'.R1 x1)
    (hA0 : Carries E.delta b.A0 b'.A0 y0) (hA1 : Carries E.delta b.A1 b'.A1 y1)
    (hr : Carries E.delta b.R_plus b'.R_plus r) (hrf : Carries E.delta b.Flag_plus b'.Flag_plus r_flag)
    (files : List GcFile) :
    Agree Sync (runs E.gen b files) (runs E.eva b' files)
      (TmpRel E.delta (x0+x1) (y0+y1) r r_flag files) := by
  refine (add_agree hE hR0 hR1).bind fun R R' hR => (add_agree hE hA0 hA1).bind fun A A' hA => ?_
  refine (Agree.foldlM (I := fun s t left => ∃ done, done++left = files ∧
    TmpRel E.delta (x0+x1) (y0+y1) r r_flag done s t) (fun s t file left ⟨done, hdone, hst⟩ => ?_)
    ⟨[],rfl,?_⟩).mono fun s t ⟨done, hdone, hst⟩ => ?_
  · refine (runsTurn_agree hE hR hA hr hrf hst file).mono fun s' t' hst' => ⟨done++[file],?_,hst'⟩
    rw [List.append_assoc]
    exact hdone
  · exact ⟨fun _ _ _ => rfl,.nil,.nil⟩
  · rw [List.append_nil] at hdone
    exact hdone ▸ hst

end agree

/-! ## Transfers of blocks -/

section blocks
variable {γ ε : Type} {Sync : γ → ε → Prop}

lemma block_agree (data : ℕ → Block) :
    Agree Sync (send_block data lens) (recv_block lens) fun _ got => ∀ i < lens, got i = data i := by
  intro g e hs rest
  have hlist : Agree Sync (send ((List.range lens).map data)) (recv lens) fun _ l =>
    l = (List.range lens).map data := agree_send_recv (by rw [List.length_map, List.length_range])
  obtain ⟨hl, hrest⟩ := hlist g e hs rest
  refine ⟨fun i hi => ?_,hrest⟩
  have hget : ((List.range lens).map data).getD i 0 = data i := by
    simp [List.getD_eq_getElem?_getD, hi]
  rw [← hget]
  exact congrArg (fun l : List Block => l.getD i 0) hl

end blocks

/-! ## Unmasking -/

lemma upper_label {delta : Block} (hd : upper delta ≠ 0) (a : Block) (x : Bool) :
    upper a = upper (label delta a x) ↔ x = false := by
  cases x with
  | false => exact ⟨fun _ => rfl,fun _ => rfl⟩
  | true =>
    have hxor : upper (label delta a true) = upper a ^^^ upper delta := by
      simp only [upper, label, if_true]
      exact BitVec.extractLsb'_xor
    rw [hxor]
    refine ⟨fun h => absurd ?_ hd,fun h => by cases h⟩
    have hself : upper a ^^^ upper a = upper a ^^^ (upper a ^^^ upper delta) := congrArg (upper a ^^^ ·) h
    rw [BitVec.xor_self, ← BitVec.xor_assoc, BitVec.xor_self, BitVec.zero_xor] at hself
    exact hself.symm

lemma unmask_eq {delta : Block} (hd : upper delta ≠ 0) {tmpd ele ele' : ℕ → Block} {w : Word}
    (hsent : ∀ i < lens, tmpd i = ele i) (h : Carries delta ele ele' w) :
    unmask tmpd ele' = w.setWidth 64 := by
  have hfold : ∀ n k, n+k = lens → (List.range' k n).foldr
      (fun i r => if upper (tmpd i) = upper (ele' i) then r*2 else r*2+1) 0 =
        BitVec.ofNat 64 (w.toNat/2^k) := by
    intro n
    induction n with
    | zero =>
      intro k hk
      have hlt : w.toNat < 2^k := by
        rw [(by omega : k = lens)]
        exact w.isLt
      rw [Nat.div_eq_of_lt hlt]
      rfl
    | succ n ih =>
      intro k hk
      have hklt : k < lens := by omega
      have hbit : w.getLsbD k = decide (w.toNat/2^k%2 = 1) := Nat.testBit_eq_decide_div_mod_eq
      have hhalf : w.toNat/2^(k+1) = w.toNat/2^k/2 := by rw [pow_succ, Nat.div_div_eq_div_mul]
      have hdouble : BitVec.ofNat 64 (w.toNat/2^(k+1))*2 = BitVec.ofNat 64 (w.toNat/2^k/2*2) := by
        rw [hhalf]
        exact (BitVec.ofNat_mul _ 2).symm
      rw [List.range'_succ, List.foldr_cons, ih (k+1) (by omega), hsent k hklt, h k hklt, hdouble]
      simp only [upper_label hd, hbit, decide_eq_false_iff_not]
      split
      · next hodd =>
        congr 1
        omega
      · next hodd =>
        have hnext : w.toNat/2^k = w.toNat/2^k/2*2+1 := by omega
        rw [hnext, BitVec.ofNat_add]
        congr 3
        omega
  have hall := hfold lens 0 rfl
  rw [pow_zero, Nat.div_one] at hall
  rw [unmask, List.range_eq_range', hall]
  exact BitVec.ofNat_toNat 64 w

/-! ## Both parties agree -/

section agree
variable {γ ε : Type} {E : Execution γ ε} {Sync : γ → ε → Prop}

lemma unmaskAll_agree (hd : upper E.delta ≠ 0) {set set' : List (ℕ → Block)} {ws : List Word}
    (h : CarriesAll E.delta set set' ws) :
    Agree Sync (set.forM fun ele => send_block ele lens) (unmaskAll set') fun _ r =>
      r = ws.map (·.setWidth 64) := by
  induction h with
  | nil => exact .pure rfl
  | @cons a a' w _ _ _ h1 _ ih =>
    have hone : Agree Sync (send_block a lens) (do return unmask (← recv_block lens) a') fun _ r =>
      r = w.setWidth 64 := (block_agree a).map_recv fun _ got hgot => unmask_eq hd hgot h1
    rw [unmaskAll, List.mapM_cons]
    refine hone.bind fun _ r hr => ?_
    exact ih.map_recv fun _ rs hrs => by rw [List.map_cons, ← hr, ← hrs]

lemma to_As_agree (hd : upper E.delta ≠ 0) {R A r r_flag : Word} {files : List GcFile} {s t : Tmp}
    (h : TmpRel E.delta R A r r_flag files s t) :
    Agree Sync (to_As_send s) (to_As_recv t) fun _ o =>
      o = ⟨(results R A r files).map (·.setWidth 64),(flagResults R A r_flag files).map (·.setWidth 64)⟩ := by
  refine (unmaskAll_agree hd h.res).bind fun _ r_set hr => ?_
  exact (unmaskAll_agree hd h.flags).map_recv fun _ rflag_set hrf => by rw [hr, hrf]

/-- The labels of the evaluator stand for the words of both. -/
structure LabelRel (delta : Block) (R0 A0 R1 A1 r r_flag : Word) (b b' : Labels) : Prop where
  R0 : Carries delta b.R0 b'.R0 R0
  A0 : Carries delta b.A0 b'.A0 A0
  R1 : Carries delta b.R1 b'.R1 R1
  A1 : Carries delta b.A1 b'.A1 A1
  r : Carries delta b.R_plus b'.R_plus r
  r_flag : Carries delta b.Flag_plus b'.Flag_plus r_flag

lemma word_bit (a : BitVec 64) {i : ℕ} (hi : i < lens) : (a.setWidth 32).getLsbD i = to_binary a i := by
  have hlt : i < 32 := hi
  rw [BitVec.getLsbD_setWidth, decide_eq_true hlt, Bool.true_and]
  rfl

lemma carries_labels {delta : Block} {a a' : ℕ → Block} {x : BitVec 64}
    (h : ∀ i < lens, a' i = label delta (a i) (to_binary x i)) : Carries delta a a' (x.setWidth 32) := by
  intro i hi
  rw [word_bit x hi]
  exact h i hi

lemma to_Y_agree {d : YDraw} {R0 A0 R A : BitVec 64} {ot : ℕ → Block}
    (hot : ∀ i < 2*lens, ot i = label E.delta (tmps d.R0 d.A0 i) (tmps (to_binary R) (to_binary A) i)) :
    Agree Sync (to_Y_send E d R0 A0) (to_Y_recv ot) (LabelRel E.delta (R.setWidth 32) (A.setWidth 32)
      (R0.setWidth 32) (A0.setWidth 32) (d.r.setWidth 32) (d.r_flag.setWidth 32)) := by
  refine (block_agree _).bind fun _ R1 hR1 => (block_agree _).bind fun _ A1 hA1 =>
    (block_agree _).bind fun _ r hr => (block_agree _).bind fun _ rf hrf => .pure ?_
  refine ⟨carries_labels fun i hi => ?_,carries_labels fun i hi => ?_,carries_labels hR1,carries_labels hA1,
    carries_labels hr,carries_labels hrf⟩
  · have h := hot i (by omega)
    rwa [tmps, tmps, if_pos hi, if_pos hi] at h
  · have h := hot (lens+i) (by omega)
    rwa [tmps, tmps, if_neg (by omega), if_neg (by omega), Nat.add_sub_cancel_left] at h

lemma parties_agree (hE : E.Sound Sync) (hd : upper E.delta ≠ 0) {d : YDraw} {R A : BitVec 64}
    {ot : ℕ → Block}
    (hot : ∀ i < 2*lens, ot i = label E.delta (tmps d.R0 d.A0 i) (tmps (to_binary R) (to_binary A) i))
    (R0 A0 : BitVec 64) (files : List GcFile) :
    Agree Sync (garbler E d R0 A0 files) (evaluator E ot files) fun _ o =>
      let sR := R.setWidth 32+R0.setWidth 32
      let sA := A.setWidth 32+A0.setWidth 32
      o = ⟨(results sR sA (d.r.setWidth 32) files).map (·.setWidth 64),
        (flagResults sR sA (d.r_flag.setWidth 32) files).map (·.setWidth 64)⟩ :=
  (to_Y_agree hot).bind fun _ _ hb =>
    (runs_agree hE hb.R0 hb.R1 hb.A0 hb.A1 hb.r hb.r_flag files).bind fun _ _ hst => to_As_agree hd hst

end agree

/-! ## Gate by gate -/

section scheme
variable {γ ε : Type}

/-- `compute` over the gates of the file, with a garbling of each gate. -/
def ofScheme (S : Scheme BMR.Gate Block Block γ ε) (delta : Block) : Execution γ ε where
  delta := delta
  gen cf a b := do
    let wires ← S.garble BMR.Gate.out cf.gates fun i => if i < cf.n1 then a i else b (i-cf.n1)
    return fun i => wires (cf.num_wire-cf.n3+i)
  eva cf a b := do
    let wires ← S.evaluate BMR.Gate.out cf.gates fun i => if i < cf.n1 then a i else b (i-cf.n1)
    return fun i => wires (cf.num_wire-cf.n3+i)

/-- `b` is the label of `x` under the garbler's label `a`. -/
def IsLabel (delta a b : Block) (x : Bool) : Prop := b = label delta a x

lemma ofScheme_sound {S : Scheme BMR.Gate Block Block γ ε} {delta : Block} {Sync : γ → ε → Prop}
    (hgate : ∀ t a b v, (∀ w ∈ BMR.Gate.ins t, IsLabel delta (a w) (b w) (v w)) →
      Agree Sync (S.gen t a) (S.eva t b) fun l l' => IsLabel delta l l' (t.value v)) :
    (ofScheme S delta).Sound Sync := by
  refine ⟨fun cf hcf a b a' b' x ha hb => ?_⟩
  have hin : ∀ w ∈ Finset.range cf.in_size, IsLabel delta (if w < cf.n1 then a w else b (w-cf.n1))
      (if w < cf.n1 then a' w else b' (w-cf.n1)) (x w) := by
    intro w hw
    rw [Finset.mem_range, Circuit.in_size] at hw
    split
    · next h => exact ha w h
    · next h =>
      rw [IsLabel, hb (w-cf.n1) (by omega), Nat.add_sub_cancel' (Nat.not_lt.mp h)]
      rfl
  have hrun := Scheme.run_agree (f := fun g v => g.value v) hgate hcf.order hin
  refine hrun.bind fun u u' hu => .pure fun i hi => ?_
  have hout := hcf.outputs
  exact hu _ (by omega)

end scheme

section half_gates
variable (hash : ℕ → Block → Block) (delta : Block)

def lsb (b : Block) : Bool := b.getLsbD 0

def when (x : Bool) (b : Block) : Block := if x then b else 0

/-- An `AND` gate costs two blocks; the lowest bit of a label tells which ones the evaluator adds. -/
def halfGates : Scheme BMR.Gate Block Block ℕ ℕ where
  gen g w :=
    match g with
    | .XOR i j _ => fun n => (w i ^^^ w j,n,[])
    | .NOT i _ => fun n => (w i ^^^ delta,n,[])
    | .AND i j _ => fun n =>
      let a0 := hash n (w i)
      let b0 := hash (n+1) (w j)
      let t := a0 ^^^ hash n (w i ^^^ delta) ^^^ when (lsb (w j)) delta
      let u := b0 ^^^ hash (n+1) (w j ^^^ delta)
      (a0 ^^^ when (lsb (w i)) t ^^^ b0 ^^^ when (lsb (w j)) u,n+2,[t,u ^^^ w i])
  eva g w :=
    match g with
    | .XOR i j _ => fun n l => (w i ^^^ w j,n,l)
    | .NOT i _ => fun n l => (w i,n,l)
    | .AND i j _ => fun n l =>
      (hash n (w i) ^^^ hash (n+1) (w j) ^^^ when (lsb (w i)) (l.getD 0 0) ^^^
        when (lsb (w j)) (l.getD 1 0 ^^^ w i),n+2,l.drop 2)

variable {delta}

lemma lsb_xor (a b : Block) : lsb (a ^^^ b) = (lsb a ^^ lsb b) := BitVec.getLsbD_xor

lemma xor_left_comm (a b c : Block) : a ^^^ (b ^^^ c) = b ^^^ (a ^^^ c) := by
  rw [← BitVec.xor_assoc, BitVec.xor_comm a, BitVec.xor_assoc]

lemma label_xor (a b : Block) (x y : Bool) :
    label delta a x ^^^ label delta b y = label delta (a ^^^ b) (x ^^ y) := by
  cases x <;> cases y <;> simp [label, BitVec.xor_assoc, BitVec.xor_comm, xor_left_comm]

lemma label_not (a : Block) (x : Bool) : label delta a x = label delta (a ^^^ delta) !x := by
  cases x <;> simp [label]

lemma half_gate (hd : lsb delta = true) (H H' : Block → Block) (a b : Block) (x y : Bool) :
    let t := H a ^^^ H (a ^^^ delta) ^^^ when (lsb b) delta
    let u := H' b ^^^ H' (b ^^^ delta)
    let a' := label delta a x
    let b' := label delta b y
    H a' ^^^ H' b' ^^^ when (lsb a') t ^^^ when (lsb b') (u ^^^ a ^^^ a') =
      label delta (H a ^^^ when (lsb a) t ^^^ H' b ^^^ when (lsb b) u) (x && y) := by
  cases x <;> cases y <;> cases ha : lsb a <;> cases hb : lsb b <;>
    simp [label, when, ha, hb, hd, lsb_xor, BitVec.xor_assoc, BitVec.xor_comm, xor_left_comm]

lemma halfGates_sound (hd : lsb delta = true) :
    (ofScheme (halfGates hash delta) delta).Sound Eq := by
  refine ofScheme_sound fun t a b v h => ?_
  rintro n _ rfl rest
  cases t with
  | XOR i j w =>
    have hi : b i = label delta (a i) (v i) := h i (by simp [BMR.Gate.ins])
    have hj : b j = label delta (a j) (v j) := h j (by simp [BMR.Gate.ins])
    refine ⟨?_,rfl,rfl⟩
    simp only [halfGates, IsLabel, hi, hj, label_xor]
    rfl
  | NOT i w =>
    have hi : b i = label delta (a i) (v i) := h i (by simp [BMR.Gate.ins])
    exact ⟨hi.trans (label_not _ _),rfl,rfl⟩
  | AND i j w =>
    have hi : b i = label delta (a i) (v i) := h i (by simp [BMR.Gate.ins])
    have hj : b j = label delta (a j) (v j) := h j (by simp [BMR.Gate.ins])
    refine ⟨?_,rfl,rfl⟩
    simp only [halfGates, IsLabel, hi, hj]
    exact half_gate hd (hash n) (hash (n+1)) (a i) (a j) (v i) (v j)

end half_gates

section result
variable {γ ε : Type} {E : Execution γ ε} {Sync : γ → ε → Prop} {P : Type*} [AddCommGroup P]
  {KDF : P → Block} {gen : P} {order : ℕ}

lemma transfer_label (hgen : order • gen = 0) (x : OtDraw) (delta : Block) (R A : ℕ → Block) (b : ℕ → Bool)
    (i : ℕ) : transfer KDF gen order x (tmps R A) (tmps (fun i => R i ^^^ delta) fun i => A i ^^^ delta) b i =
      label delta (tmps R A i) (b i) := by
  have hother : tmps (fun i => R i ^^^ delta) (fun i => A i ^^^ delta) i = tmps R A i ^^^ delta := by
    unfold tmps
    split <;> rfl
  rw [transfer, RandomOt.recv_send KDF hgen, hother]
  rfl

lemma map_unmask (ws : List Word) (r : Word) :
    ((ws.map (· - r)).map (·.setWidth 64)).map (fun w => w.setWidth 32+r) = ws := by
  rw [List.map_map, List.map_map]
  refine (List.map_congr_left fun w _ => ?_).trans (List.map_id ws)
  have hback : ((w-r).setWidth 64).setWidth 32 = w-r := by
    rw [BitVec.setWidth_setWidth_of_le _ (by norm_num), BitVec.setWidth_eq]
  rw [Function.comp_apply, Function.comp_apply, hback, BitVec.sub_add_cancel]
  rfl

/-- The parties end up with shares of every result and of its flag, and no message is left over. -/
theorem bitwise_shares (hE : E.Sound Sync) (hd : upper E.delta ≠ 0) (hgen : order • gen = 0) (x : OtDraw)
    (d : YDraw) {g : γ} {e : ε} (hs : Sync g e) (R0 A0 R A : BitVec 64) (files : List GcFile) :
    let o := bitwise E KDF gen order x d g e R0 A0 R A files
    let sR := R.setWidth 32+R0.setWidth 32
    let sA := A.setWidth 32+A0.setWidth 32
    o.1.r_set.map (fun w => w.setWidth 32+d.r.setWidth 32) = files.map (fun file => file.op sR sA) ∧
      o.1.rflag_set.map (fun w => w.setWidth 32+d.r_flag.setWidth 32) =
        files.map (fun file => file.flag (file.op sR sA)) ∧ o.2.2 = [] := by
  intro o sR sA
  have hot : ∀ i < 2*lens, transfer KDF gen order x (tmps d.R0 d.A0)
      (tmps (fun i => d.R0 i ^^^ E.delta) fun i => d.A0 i ^^^ E.delta) (tmps (to_binary R) (to_binary A)) i =
      label E.delta (tmps d.R0 d.A0 i) (tmps (to_binary R) (to_binary A) i) :=
    fun i _ => transfer_label hgen x E.delta d.R0 d.A0 _ i
  obtain ⟨hout, hleft⟩ := (parties_agree hE hd hot R0 A0 files).run hs
  have hres := map_unmask (files.map fun file => file.op sR sA) (d.r.setWidth 32)
  have hflag := map_unmask (files.map fun file => file.flag (file.op sR sA)) (d.r_flag.setWidth 32)
  have ho : o.1 = _ := hout
  rw [ho]
  exact ⟨hres,hflag,hleft⟩

/-- A hash that adds the number of the gate. -/
def countHash (n : ℕ) (x : Block) : Block := x+BitVec.ofNat 128 n

def demoDelta : Block := BitVec.ofNat 128 (2^64+1)

def demoDraw : YDraw := ⟨⟨fun i => BitVec.ofNat 128 i,0,0,0,0,0⟩,7,9⟩

def demoKdf (x : ZMod 5) : Block := BitVec.ofNat 128 x.val

lemma demo_order : 5 • (1 : ZMod 5) = 0 := by decide

/-- Half gates, and a transfer in the integers modulo 5. -/
theorem bitwise_shares_half_gates :
    let o := bitwise (ofScheme (halfGates countHash demoDelta) demoDelta) demoKdf 1 5
      ⟨2,fun i => i+1,fun i => i+3⟩ demoDraw 0 0 3 1 100 2 gcfiles
    o.1.r_set.map (fun w => w.setWidth 32+7) = [3,103,100,~~~103,824,12] ∧
      o.1.rflag_set.map (fun w => w.setWidth 32+9) = [1,1,1,1,0,0] ∧ o.2.2 = [] := by
  intro o
  have hE := halfGates_sound countHash (show lsb demoDelta = true by decide)
  have hupper : upper demoDelta ≠ 0 := by decide
  have hsync : (0 : ℕ) = 0 := rfl
  obtain ⟨hres, hflag, hleft⟩ : _ ∧ _ ∧ o.2.2 = [] := bitwise_shares hE hupper demo_order
    ⟨2,fun i => i+1,fun i => i+3⟩ demoDraw hsync 3 1 100 2 gcfiles
  refine ⟨hres.trans ?_,hflag.trans ?_,hleft⟩
  · decide
  · decide

end result

end OramPro.GcOp
