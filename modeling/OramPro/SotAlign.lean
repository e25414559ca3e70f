import OramPro.FssEqPrime
import OramPro.Ram
import OramPro.Sot

/-!
# Repeated offline phases of the transfer

`offline` and `offline_t` of `SOT`. Both replace the key halves of the last call. The points are
appended to `filis`, which `online` reads from its beginning.
-/
namespace OramPro.SotAlign
open Csot (suc pre)

abbrev Party := Csot.Party

structure Object where
  prg : ℕ → Block → Block
  prime : ℕ
  data_lens : Word
  prime_gt : 1 < prime
  pos : 0 < data_lens.toNat
  lt : data_lens.toNat < 2^16

/-- The access structure that `init` shares. -/
def Object.myfss (o : Object) : Fss := ⟨o.prg,logn o.data_lens.toNat,o.prime⟩

/-- Random values of an owner for one key pair. -/
structure Draw where
  fili : Word
  rop : ℕ
  root : RootDraw
  lv : ℕ → LevelDraw

structure Player where
  times : ℕ
  filis : List Word
  sks : List ServerKeyEq
  gks : List ServerKeyEq

abbrev State := Party → Player

def init : State := fun _ => ⟨0,[],[],[]⟩

inductive Form
  | offline
  | offline_t

/-- A call of all three players. -/
structure Call where
  form : Form
  times : ℕ
  draw : Party → ℕ → Draw

section run
variable (o : Object)

def Draw.point (d : Draw) : Word := d.fili%o.data_lens

def Draw.keys (d : Draw) : ServerKeyEq × ServerKeyEq :=
  generateTreeEq o.myfss ((d.point o).setWidth 64) 1 d.rop d.root d.lv

/-- Every owner appends its next point. -/
def Call.own (c : Call) (st : State) (t : ℕ) : State := fun p =>
  { st p with filis := (st p).filis++[(c.draw p t).point o] }

/-- Every player receives `k0` of its predecessor and `k1` of its successor. -/
def Call.receive (c : Call) (st : State) (t : ℕ) : State := fun p =>
  { st p with
    sks := (st p).sks++[((c.draw (pre p) t).keys o).1]
    gks := (st p).gks++[((c.draw (suc p) t).keys o).2] }

def clear (st : State) : State := fun p => { st p with sks := [], gks := [] }

def Call.run (c : Call) (st : State) : State :=
  let st : State := fun p => { st p with times := c.times }
  match c.form with
  | .offline =>
    (List.range c.times).foldl (c.receive o) (clear ((List.range c.times).foldl (c.own o) st))
  | .offline_t => (List.range c.times).foldl (fun st t => c.receive o (c.own o st t) t) (clear st)

def runAll (cs : List Call) : State := cs.foldl (fun st c => c.run o st) init

/-! ## What a call leaves -/

/-- The points of one owner in one call. -/
def Call.points (c : Call) (j : Party) : List Word :=
  (List.range c.times).map fun t => (c.draw j t).point o

variable (c : Call) (st : State) (p : Party)

lemma foldl_own (n : ℕ) : (List.range n).foldl (c.own o) st p =
    { st p with filis := (st p).filis++(List.range n).map fun t => (c.draw p t).point o } := by
  induction n with
  | zero => simp
  | succ n ih =>
    rw [List.range_succ, List.foldl_append, List.foldl_cons, List.foldl_nil, Call.own, ih]
    simp

lemma foldl_receive (n : ℕ) : (List.range n).foldl (c.receive o) st p =
    { st p with
      sks := (st p).sks++(List.range n).map fun t => ((c.draw (pre p) t).keys o).1
      gks := (st p).gks++(List.range n).map fun t => ((c.draw (suc p) t).keys o).2 } := by
  induction n with
  | zero => simp
  | succ n ih =>
    rw [List.range_succ, List.foldl_append, List.foldl_cons, List.foldl_nil, Call.receive, ih]
    simp

/-- Sending and receiving in one loop is the same as in two. -/
lemma foldl_both (n : ℕ) :
    (List.range n).foldl (fun st t => c.receive o (c.own o st t) t) st =
      (List.range n).foldl (c.receive o) ((List.range n).foldl (c.own o) st) := by
  induction n with
  | zero => rfl
  | succ n ih =>
    funext p
    rw [List.range_succ, List.foldl_append, List.foldl_append, List.foldl_append, ih]
    simp only [List.foldl_cons, List.foldl_nil, Call.receive, Call.own, foldl_own, foldl_receive]

/-- The halves are those of this call, the points those of all calls. -/
lemma run_eq : c.run o st p = ⟨c.times,(st p).filis++c.points o p,
    (List.range c.times).map fun t => ((c.draw (pre p) t).keys o).1,
    (List.range c.times).map fun t => ((c.draw (suc p) t).keys o).2⟩ := by
  cases hform : c.form with
  | offline =>
    rw [Call.run, hform]
    simp only [foldl_receive, clear, foldl_own, List.nil_append, Call.points]
  | offline_t =>
    rw [Call.run, hform]
    simp only [foldl_both, foldl_receive, clear, foldl_own, List.nil_append, Call.points]

end run

/-! ## Alignment -/

section align
variable (o : Object)

/-- `k0` and `k1` are a key pair of the point `x`. -/
def IsPoint (x : Word) (k0 k1 : ServerKeyEq) : Prop :=
  ∃ rop root lv, generateTreeEq o.myfss (x.setWidth 64) 1 rop root lv = (k0,k1)

def Aligned (st : State) : Prop :=
  ∀ j, ∀ t < (st j).times, ∃ x k0 k1, (st j).filis[t]? = some x ∧ (st (suc j)).sks[t]? = some k0 ∧
    (st (pre j)).gks[t]? = some k1 ∧ IsPoint o x k0 k1

/-- Behind the points that are there already the call's own points are read at their positions. -/
def Fits (st : State) (c : Call) : Prop :=
  ∀ j, ∀ t < c.times, ((st j).filis++c.points o j)[t]? = some ((c.draw j t).point o)

/-- The keys that the call generates are correct. -/
def Call.Correct (c : Call) : Prop := ∀ j, ∀ t < c.times,
  Invertible o.myfss (((c.draw j t).point o).setWidth 64) (c.draw j t).root (c.draw j t).lv

variable {o} {st : State} {c : Call}

lemma fits_of_empty (h : ∀ j, (st j).filis = []) : Fits o st c := by
  intro j t ht
  rw [h j, List.nil_append, Call.points, List.getElem?_map, List.getElem?_range ht]
  rfl

variable (o) in
lemma point_lt (d : Draw) : (d.point o).toNat < o.data_lens.toNat := by
  rw [Draw.point, BitVec.toNat_umod]
  exact Nat.mod_lt _ o.pos

lemma low_bits {x : Word} {n : ℕ} (hx : x.toNat < 2^n) : (x.setWidth 64).toNat%2^n = x.toNat := by
  rw [BitVec.toNat_setWidth_of_le (by norm_num), Nat.mod_eq_of_lt hx]

/-- A correct pair has one point. -/
lemma isPoint_unique {d : Draw} (hd : Invertible o.myfss ((d.point o).setWidth 64) d.root d.lv) {x : Word}
    (hx : x.toNat < o.data_lens.toNat) (h : IsPoint o x (d.keys o).1 (d.keys o).2) : x = d.point o := by
  obtain ⟨rop, root, lv, hgen⟩ := h
  have hlen : o.data_lens.toNat ≤ 2^o.myfss.numBits := (logn_spec (by have := o.lt; omega)).1
  have hpoint := point_lt o d
  by_contra hne
  have hx64 := low_bits (hx.trans_le hlen)
  have hd64 := low_bits (hpoint.trans_le hlen)
  have hvals : (d.point o).toNat ≠ x.toNat := fun hv => hne (BitVec.eq_of_toNat_eq hv.symm)
  have hn : 0 < o.myfss.numBits := by
    by_contra h0
    rw [Nat.eq_zero_of_not_pos h0, pow_zero] at hlen
    omega
  have hoff : evaluateEq o.myfss (generateTreeEq o.myfss (x.setWidth 64) 1 rop root lv).1
      ((d.point o).setWidth 64) =
      evaluateEq o.myfss (generateTreeEq o.myfss (x.setWidth 64) 1 rop root lv).2
        ((d.point o).setWidth 64) := evaluateEq_off hn (by rw [hx64, hd64]; exact hvals)
  have hon : (evaluateEq o.myfss (d.keys o).1 ((d.point o).setWidth 64) : ℤ)
      -evaluateEq o.myfss (d.keys o).2 ((d.point o).setWidth 64) ≡ (1 : BitVec 64).toNat
        [ZMOD o.myfss.prime] := evaluateEq_on hn o.prime_gt hd rfl
  rw [hgen] at hoff
  rw [hoff, sub_self] at hon
  have hprime := o.prime_gt
  have hdvd := Int.modEq_iff_dvd.mp hon
  have hone : ((1 : BitVec 64).toNat : ℤ) = 1 := rfl
  rw [hone, sub_zero] at hdvd
  have hle := Int.le_of_dvd one_pos hdvd
  have hsame : o.myfss.prime = o.prime := rfl
  omega

/-- The points of every reachable state are in range. -/
lemma runAll_filis (cs : List Call) (j : Party) :
    ∀ x ∈ (runAll o cs j).filis, x.toNat < o.data_lens.toNat := by
  induction cs using List.reverseRecOn with
  | nil => exact fun x hx => nomatch hx
  | append_singleton cs c ih =>
    intro x hx
    rw [runAll, List.foldl_append, List.foldl_cons, List.foldl_nil, run_eq, List.mem_append] at hx
    rcases hx with hold | hnew
    · exact ih x hold
    · obtain ⟨t, -, rfl⟩ := List.mem_map.mp hnew
      exact point_lt o _

variable (o st) in
/-- Where the halves of the pair number `t` of an owner are after the call. -/
lemma halves_get (j : Party) {t : ℕ} (ht : t < c.times) :
    (c.run o st (suc j)).sks[t]? = some ((c.draw j t).keys o).1 ∧
      (c.run o st (pre j)).gks[t]? = some ((c.draw j t).keys o).2 := by
  have hget : ∀ g : ℕ → ServerKeyEq, ((List.range c.times).map g)[t]? = some (g t) := by
    intro g
    rw [List.getElem?_map, List.getElem?_range ht]
    rfl
  have hsuc : pre (suc j) = j := by fin_cases j <;> rfl
  have hpre : suc (pre j) = j := by fin_cases j <;> rfl
  rw [run_eq, run_eq]
  exact ⟨(hget _).trans (by rw [hsuc]),(hget _).trans (by rw [hpre])⟩

lemma aligned_of_fits (h : Fits o st c) : Aligned o (c.run o st) := by
  intro j t ht
  rw [run_eq] at ht
  obtain ⟨hsks, hgks⟩ := halves_get o st j ht
  refine ⟨(c.draw j t).point o,_,_,?_,hsks,hgks,(c.draw j t).rop,(c.draw j t).root,(c.draw j t).lv,rfl⟩
  rw [run_eq]
  exact h j t ht

lemma fits_of_aligned (hc : c.Correct o) (hfilis : ∀ j, ∀ x ∈ (st j).filis, x.toNat < o.data_lens.toNat)
    (h : Aligned o (c.run o st)) : Fits o st c := by
  intro j t ht
  obtain ⟨hsks, hgks⟩ := halves_get o st j ht
  obtain ⟨x, k0, k1, hx, hk0, hk1, hpoint⟩ := h j t (by rw [run_eq]; exact ht)
  rw [hsks, Option.some_inj] at hk0
  rw [hgks, Option.some_inj] at hk1
  rw [← hk0, ← hk1] at hpoint
  rw [run_eq] at hx
  have hlt : x.toNat < o.data_lens.toNat := by
    rcases List.mem_append.mp (List.mem_of_getElem? hx) with hold | hnew
    · exact hfilis j x hold
    · obtain ⟨t, -, rfl⟩ := List.mem_map.mp hnew
      exact point_lt o _
  exact hx.trans (congrArg some (isPoint_unique (hc j t ht) hlt hpoint))

end align

/-! ## Runs -/

section runs
variable (o : Object)

/-- Every call of the run meets the condition in the state that it finds. -/
def AllFit (cs : List Call) : Prop :=
  ∀ before c after, cs = before++c :: after → Fits o (runAll o before) c

/-- Every state of the run is aligned. -/
def AllAligned (cs : List Call) : Prop := ∀ before, before <+: cs → Aligned o (runAll o before)

lemma runAll_snoc (cs : List Call) (c : Call) : runAll o (cs++[c]) = c.run o (runAll o cs) := by
  rw [runAll, List.foldl_append, List.foldl_cons, List.foldl_nil, runAll]

/-- A run stays aligned when every call fits, and with correct keys only then. -/
theorem aligned_iff (cs : List Call) :
    (AllFit o cs → AllAligned o cs) ∧ ((∀ c ∈ cs, c.Correct o) → AllAligned o cs → AllFit o cs) := by
  constructor
  · rintro hfit before ⟨after, rfl⟩
    obtain rfl | ⟨cs, c, rfl⟩ := before.eq_nil_or_concat
    · exact fun j t ht => absurd ht (Nat.not_lt_zero t)
    · rw [List.concat_eq_append] at hfit ⊢
      rw [runAll_snoc]
      exact aligned_of_fits (hfit cs c after (List.append_assoc ..))
  · rintro hc halign before c after rfl
    have hnext := halign (before++[c]) ⟨after,List.append_assoc ..⟩
    rw [runAll_snoc] at hnext
    exact fits_of_aligned (hc c (by simp)) (runAll_filis before) hnext

end runs

/-! ### Two calls for two entries -/

/-- A generator that returns its seed, and the prime of `initializeClient`. -/
def pairObject : Object := ⟨fun _ s => s,4294967311,2,by decide,by decide,by decide⟩

/-- Every owner draws the point `x` once. -/
def onePoint (x : Word) : Call := ⟨.offline,1,fun _ _ => ⟨x,0,⟨0,1,0,0,0⟩,fun _ => ⟨0,0,0,0,0⟩⟩⟩

lemma onePoint_correct : (onePoint 0).Correct pairObject := by
  intro j t _
  show Int.gcd (leafDiff pairObject.myfss 0 ⟨0,1,0,0,0⟩ fun _ => ⟨0,0,0,0,0⟩) 4294967311 = 1
  decide +kernel

/-- After a call with the point 1 and a call with the point 0 the first point is not that of the keys. -/
theorem aligned_two : ¬AllAligned pairObject [onePoint 1,onePoint 0] := by
  intro h
  have hlast := h [onePoint 1,onePoint 0] (List.prefix_refl _)
  have hfit : Fits pairObject ((onePoint 1).run pairObject init) (onePoint 0) :=
    fits_of_aligned onePoint_correct (runAll_filis [onePoint 1]) hlast
  have hread := hfit 0 0 Nat.one_pos
  rw [run_eq] at hread
  exact absurd hread (by decide +kernel)

end OramPro.SotAlign
