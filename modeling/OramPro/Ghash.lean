import OramPro.BmrOffline
import OramPro.Gmw

/-!
# Circuits on public and shared wires

The gate loop of `GCM::do_Ghash`. A wire of type 0 is public, with the same data at both parties; on a
wire of type 1 the data of the parties are XOR shares. The gates steer by the types.
-/
namespace OramPro.Ghash
open GMW (and_c scale_c xor_c Operands)

abbrev Byte := BitVec 8

@[ext]
structure Shareholder where
  types : Byte
  data : Byte
  deriving Inhabited, DecidableEq

/-- The wires of player 0, `false`, and player 1, `true`. -/
abbrev Wires := ℕ → Bool → Shareholder

section program

/-- An AND gate at player `p`. Both shared, it takes the triple for zeros. -/
def andGate (p : Bool) (x y : Bool → Shareholder) : Shareholder :=
  let x0 := x p
  let y0 := y p
  if x0.types = 0 then ⟨if y0.types = 0 then 0 else 1,scale_c y0.data x0.data⟩
  else if y0.types = 0 then ⟨1,scale_c y0.data x0.data⟩
  else ⟨1,and_c p ⟨y0.data,x0.data,0,0,0⟩ (Operands.alpha ⟨(y !p).data,(x !p).data,0,0,0⟩)⟩

/-- An XOR gate; player 0 alone adds a public value to a shared one. -/
def xorGate (p : Bool) (x y : Shareholder) : Shareholder :=
  if x.types = 0 then
    if y.types = 0 then ⟨0,xor_c y.data x.data⟩
    else ⟨1,if p then y.data else xor_c y.data x.data⟩
  else
    if y.types = 0 then ⟨1,if p then x.data else xor_c y.data x.data⟩
    else ⟨1,xor_c y.data x.data⟩

/-- One gate. The condition of an `INV` gate is an assignment: it makes the input public and is false,
so the branch for a shared input runs. -/
def step (wires : Wires) : BMR.Gate → Wires
  | .AND a b w => Function.update wires w fun p => andGate p (wires a) (wires b)
  | .XOR a b w => Function.update wires w fun p => xorGate p (wires a p) (wires b p)
  | .NOT a w =>
    let wires := Function.update wires a fun p => { wires a p with types := 0 }
    Function.update wires w fun p =>
      ⟨(wires a p).types,if p then (wires a p).data else (wires a p).data ^^^ 1⟩

def run (gates : List BMR.Gate) (wires : Wires) : Wires := gates.foldl step wires

end program

/-! ## Plain values -/

/-- The plain value of a gate. -/
def value (v : ℕ → Byte) : BMR.Gate → Byte
  | .AND a b _ => v a &&& v b
  | .XOR a b _ => v a ^^^ v b
  | .NOT a _ => v a ^^^ 1

def plain (gates : List BMR.Gate) (x : ℕ → Byte) : ℕ → Byte :=
  gates.foldl (fun v g => Function.update v g.out (value v g)) x

/-- Whether an output of a gate is shared, by what its inputs are. -/
def sharedGate (s : ℕ → Bool) : BMR.Gate → Bool
  | .AND a b _ | .XOR a b _ => s a || s b
  | .NOT a _ => s a

def shared (gates : List BMR.Gate) (s : ℕ → Bool) : ℕ → Bool :=
  gates.foldl (fun s g => Function.update s g.out (sharedGate s g)) s

/-- A wire that carries `v`: the same types at both parties, and the same data or shares. -/
def Carries (x : Bool → Shareholder) (v : Byte) : Prop :=
  (x false).types = (x true).types ∧
    ((x false).types = 0 ∧ (x false).data = v ∧ (x true).data = v ∨
      (x false).types = 1 ∧ (x false).data ^^^ (x true).data = v)

/-- A circuit, and input wires that carry `x`, such that no AND gate has two shared inputs. -/
structure Setup where
  cf : BMR.Circuit
  topological : cf.Topological
  wires : Wires
  x : ℕ → Byte
  inputs : ∀ i < cf.in_size, Carries (wires i) (x i)
  single : ∀ a b w, BMR.Gate.AND a b w ∈ cf.gates →
    let s := shared cf.gates fun i => (wires i false).types == 1
    ¬(s a = true ∧ s b = true)

/-! ## The gates -/

section gates
variable {x y : Bool → Shareholder} {u v : Byte}

/-- Both parties hold the value, or each a share of it. -/
lemma carries_iff : Carries x u ↔
    (∀ p, x p = ⟨0,u⟩) ∨ (∀ p, (x p).types = 1) ∧ (x false).data ^^^ (x true).data = u := by
  rw [Carries, Bool.forall_bool, Bool.forall_bool, Shareholder.ext_iff, Shareholder.ext_iff]
  constructor
  · rintro ⟨ht, ⟨h0, hf, hr⟩ | ⟨h1, hs⟩⟩
    · exact .inl ⟨⟨h0,hf⟩,ht ▸ h0,hr⟩
    · exact .inr ⟨⟨h1,ht ▸ h1⟩,hs⟩
  · rintro (⟨⟨h0, hf⟩, h0', hr⟩ | ⟨⟨h1, h1'⟩, hs⟩)
    · exact ⟨h0.trans h0'.symm,.inl ⟨h0,hf,hr⟩⟩
    · exact ⟨h1.trans h1'.symm,.inr ⟨h1,hs⟩⟩

lemma carries_public {f : Bool → Shareholder} (h : ∀ p, f p = ⟨0,u⟩) : Carries f u := carries_iff.mpr (.inl h)

lemma carries_shared {f : Bool → Shareholder} {d : Bool → Byte} (h : ∀ p, f p = ⟨1,d p⟩)
    (hd : d false ^^^ d true = u) : Carries f u :=
  carries_iff.mpr (.inr ⟨fun p => congrArg Shareholder.types (h p),by rw [h, h]; exact hd⟩)

lemma xor_and (a b c : Byte) : (a &&& c) ^^^ (b &&& c) = (a ^^^ b) &&& c := by
  ext i hi
  simp only [BitVec.getElem_xor, BitVec.getElem_and]
  exact (Bool.and_xor_distrib_right _ _ _).symm

/-- An AND gate with a public input. -/
lemma and_carries (hx : Carries x u) (hy : Carries y v)
    (hone : ¬((x false).types = 1 ∧ (y false).types = 1)) :
    Carries (fun p => andGate p x y) (u &&& v) ∧
      ((andGate false x y).types = 1 ↔ (x false).types = 1 ∨ (y false).types = 1) := by
  rcases carries_iff.mp hx with hx | ⟨hx, hxs⟩ <;> rcases carries_iff.mp hy with hy | ⟨hy, hys⟩
  · have hgate : ∀ p, andGate p x y = ⟨0,u &&& v⟩ := by
      intro p
      rw [andGate, hx, hy, BitVec.and_comm u]
      rfl
    exact ⟨carries_public hgate,by rw [hgate, hx, hy]; simp⟩
  · have hgate : ∀ p, andGate p x y = ⟨1,(y p).data &&& u⟩ := by
      intro p
      rw [andGate, hx, hy]
      rfl
    exact ⟨carries_shared hgate (by rw [xor_and, hys, BitVec.and_comm]),by rw [hgate, hx, hy]; simp⟩
  · have hgate : ∀ p, andGate p x y = ⟨1,v &&& (x p).data⟩ := by
      intro p
      rw [andGate, hx, hy]
      rfl
    refine ⟨carries_shared hgate ?_,by rw [hgate, hx, hy]; simp⟩
    rw [BitVec.and_comm v, BitVec.and_comm v, xor_and, hxs]
  · exact absurd ⟨hx false,hy false⟩ hone

/-- An XOR gate. -/
lemma xor_carries (hx : Carries x u) (hy : Carries y v) :
    Carries (fun p => xorGate p (x p) (y p)) (u ^^^ v) ∧
      ((xorGate false (x false) (y false)).types = 1 ↔ (x false).types = 1 ∨ (y false).types = 1) := by
  rcases carries_iff.mp hx with hx | ⟨hx, hxs⟩ <;> rcases carries_iff.mp hy with hy | ⟨hy, hys⟩
  · have hgate : ∀ p, xorGate p (x p) (y p) = ⟨0,u ^^^ v⟩ := by
      intro p
      rw [xorGate, hx, hy, BitVec.xor_comm u]
      rfl
    exact ⟨carries_public hgate,by rw [hgate, hx, hy]; simp⟩
  · have hgate : ∀ p, xorGate p (x p) (y p) = ⟨1,if p then (y p).data else (y p).data ^^^ u⟩ := by
      intro p
      rw [xorGate, hx, hy]
      rfl
    refine ⟨carries_shared hgate ?_,by rw [hgate, hx, hy]; simp⟩
    rw [← hys, if_pos rfl, if_neg (by decide)]
    ac_rfl
  · have hgate : ∀ p, xorGate p (x p) (y p) = ⟨1,if p then (x p).data else v ^^^ (x p).data⟩ := by
      intro p
      rw [xorGate, hx, hy]
      rfl
    refine ⟨carries_shared hgate ?_,by rw [hgate, hx, hy]; simp⟩
    rw [← hxs, if_pos rfl, if_neg (by decide)]
    ac_rfl
  · have hgate : ∀ p, xorGate p (x p) (y p) = ⟨1,(y p).data ^^^ (x p).data⟩ := by
      intro p
      rw [xorGate, hx, hy]
      rfl
    refine ⟨carries_shared hgate ?_,by rw [hgate, hx, hy]; simp⟩
    rw [← hxs, ← hys]
    ac_rfl

end gates

/-! ## The gate loop -/

section loop
variable {D : Finset ℕ} {W : ℕ} {gs : List BMR.Gate}

lemma run_cons (g : BMR.Gate) (gs : List BMR.Gate) (wires : Wires) :
    run (g :: gs) wires = run gs (step wires g) := rfl

lemma step_keeps (wires : Wires) {g : BMR.Gate} {w : ℕ} (hw : w ≠ g.out) (p : Bool) :
    (step wires g w p).data = (wires w p).data ∧ ((wires w p).types = 0 → (step wires g w p).types = 0) := by
  cases g with
  | AND a b c =>
    change w ≠ c at hw
    rw [step, Function.update_of_ne hw]
    exact ⟨rfl,id⟩
  | XOR a b c =>
    change w ≠ c at hw
    rw [step, Function.update_of_ne hw]
    exact ⟨rfl,id⟩
  | NOT a c =>
    change w ≠ c at hw
    rw [step, Function.update_of_ne hw]
    by_cases ha : w = a
    · rw [ha, Function.update_self]
      exact ⟨rfl,fun _ => rfl⟩
    · rw [Function.update_of_ne ha]
      exact ⟨rfl,id⟩

/-- The parties tag every wire alike, so they call `and_c` at the same gates. -/
lemma step_types {wires : Wires} (h : ∀ w, (wires w true).types = (wires w false).types) (g : BMR.Gate) (w : ℕ) :
    (step wires g w true).types = (step wires g w false).types := by
  cases g with
  | AND a b c =>
    simp only [step, Function.update_apply]
    split
    · simp only [andGate, h]
      split_ifs <;> rfl
    · exact h w
  | XOR a b c =>
    simp only [step, Function.update_apply]
    split
    · simp only [xorGate, h]
      split_ifs <;> rfl
    · exact h w
  | NOT a c =>
    simp only [step, Function.update_apply]
    split_ifs
    · rfl
    · rfl
    · exact h w

theorem run_types {wires : Wires} (h : ∀ w, (wires w true).types = (wires w false).types) (w : ℕ) :
    (run gs wires w true).types = (run gs wires w false).types := by
  induction gs generalizing wires with
  | nil => exact h w
  | cons g gs ih => exact ih (step_types h g)

/-- Later gates leave the data of a known wire alone, and do not make it shared. -/
lemma run_keeps (h : Netlist.Ordered BMR.Gate.ins BMR.Gate.out W D gs) (wires : Wires) {w : ℕ} (hw : w ∈ D)
    (p : Bool) :
    (run gs wires w p).data = (wires w p).data ∧ ((wires w p).types = 0 → (run gs wires w p).types = 0) := by
  induction gs generalizing D wires with
  | nil => exact ⟨rfl,id⟩
  | cons g gs ih =>
    obtain ⟨-, hnew, -, hrest⟩ := h
    obtain ⟨hdata, htypes⟩ := step_keeps wires (ne_of_mem_of_not_mem hw hnew) p
    obtain ⟨hdata', htypes'⟩ := ih hrest (step wires g) (Finset.mem_insert_of_mem hw)
    exact ⟨hdata'.trans hdata,fun h0 => htypes' (htypes h0)⟩

/-- What an `INV` gate leaves: both wires public, and the data of player 0 alone inverted. -/
lemma run_not (h : Netlist.Ordered BMR.Gate.ins BMR.Gate.out W D gs) (wires : Wires) {a w : ℕ}
    (hg : BMR.Gate.NOT a w ∈ gs) :
    (run gs wires a false).types = 0 ∧ (run gs wires w false).types = 0 ∧
      (run gs wires w false).data = (run gs wires a false).data ^^^ 1 ∧
      (run gs wires w true).data = (run gs wires a true).data := by
  induction gs generalizing D wires with
  | nil => cases hg
  | cons g gs ih =>
    obtain ⟨hin, hnew, -, hrest⟩ := h
    rcases List.mem_cons.mp hg with rfl | hg
    · have ha : a ∈ D := hin a (List.mem_singleton_self a)
      have hne : a ≠ w := ne_of_mem_of_not_mem ha hnew
      have hkeep := run_keeps hrest (step wires (.NOT a w)) (Finset.mem_insert_of_mem ha)
      have hkeep' := run_keeps hrest (step wires (.NOT a w)) (Finset.mem_insert_self w D)
      have hstep : ∀ p, step wires (.NOT a w) a p = { wires a p with types := 0 } := by
        intro p
        rw [step, Function.update_of_ne hne, Function.update_self]
      have hstep' : ∀ p, step wires (.NOT a w) w p =
          ⟨0,if p then (wires a p).data else (wires a p).data ^^^ 1⟩ := by
        intro p
        simp only [step, Function.update_self]
      refine ⟨(hkeep false).2 (by rw [hstep]),(hkeep' false).2 (by rw [hstep']),?_,?_⟩
      · rw [run_cons, (hkeep' false).1, (hkeep false).1, hstep, hstep']
        rfl
      · rw [run_cons, (hkeep' true).1, (hkeep true).1, hstep, hstep']
        rfl
    · exact ih hrest (step wires g) hg

/-- What a gate that is no `INV` gate writes. -/
def written (wires : Wires) : BMR.Gate → Bool → Shareholder
  | .AND a b _ => fun p => andGate p (wires a) (wires b)
  | .XOR a b _ => fun p => xorGate p (wires a p) (wires b p)
  | .NOT a _ => wires a

lemma run_eq (hnot : ∀ a w, BMR.Gate.NOT a w ∉ gs) (wires : Wires) :
    run gs wires = gs.foldl (fun v g => Function.update v g.out (written v g)) wires := by
  induction gs generalizing wires with
  | nil => rfl
  | cons g gs ih =>
    have hstep : step wires g = Function.update wires g.out (written wires g) := by
      cases g with
      | AND a b w => rfl
      | XOR a b w => rfl
      | NOT a w => exact absurd List.mem_cons_self (hnot a w)
    rw [run_cons, List.foldl_cons, ← hstep]
    exact ih (fun a w h => hnot a w (List.mem_cons_of_mem _ h)) (step wires g)

end loop

/-! ## Correctness -/

section correct
variable (s : Setup)

lemma value_congr (g : BMR.Gate) (v v' : ℕ → Byte) (h : ∀ a ∈ g.ins, v a = v' a) : value v g = value v' g := by
  cases g with
  | AND a b w => simp_all [value, BMR.Gate.ins]
  | XOR a b w => simp_all [value, BMR.Gate.ins]
  | NOT a w => simp_all [value, BMR.Gate.ins]

lemma sharedGate_congr (g : BMR.Gate) (v v' : ℕ → Bool) (h : ∀ a ∈ g.ins, v a = v' a) :
    sharedGate v g = sharedGate v' g := by
  cases g with
  | AND a b w => simp_all [sharedGate, BMR.Gate.ins]
  | XOR a b w => simp_all [sharedGate, BMR.Gate.ins]
  | NOT a w => simp_all [sharedGate, BMR.Gate.ins]

lemma written_congr (g : BMR.Gate) (v v' : Wires) (h : ∀ a ∈ g.ins, v a = v' a) : written v g = written v' g := by
  cases g with
  | AND a b w => simp_all [written, BMR.Gate.ins]
  | XOR a b w => simp_all [written, BMR.Gate.ins]
  | NOT a w => simp_all [written, BMR.Gate.ins]

def Setup.final : Wires := run s.cf.gates s.wires

def Setup.plain : ℕ → Byte := Ghash.plain s.cf.gates s.x

def Setup.split : ℕ → Bool := shared s.cf.gates fun i => (s.wires i false).types == 1

/-- Every wire carries its plain value after the loop. -/
def Setup.Correct : Prop := ∀ w < s.cf.num_wire, Carries (s.final w) (s.plain w)

/-- Without `INV` gates the wires follow the plain values and the types the sharing. -/
lemma final_carries (hnot : ∀ a w, BMR.Gate.NOT a w ∉ s.cf.gates) : s.Correct := by
  obtain ⟨hwire, hwrite⟩ := s.topological.order.foldl_fix (f := fun g v => written v g) written_congr s.wires
  obtain ⟨hx, hvalue⟩ := s.topological.order.foldl_fix (f := fun g v => value v g) value_congr s.x
  obtain ⟨hs, hshared⟩ := s.topological.order.foldl_fix (f := fun g v => sharedGate v g) sharedGate_congr
    fun i => (s.wires i false).types == 1
  rw [← run_eq hnot] at hwire hwrite
  change ∀ w ∈ _, s.final w = s.wires w at hwire
  change ∀ g ∈ _, s.final g.out = written s.final g at hwrite
  change ∀ w ∈ _, s.plain w = s.x w at hx
  change ∀ g ∈ _, s.plain g.out = value s.plain g at hvalue
  change ∀ w ∈ _, s.split w = _ at hs
  change ∀ g ∈ _, s.split g.out = sharedGate s.split g at hshared
  have hall := s.topological.order.forall_wire
    (Q := fun w => Carries (s.final w) (s.plain w) ∧ ((s.final w false).types = 1 ↔ s.split w = true)) ?_ ?_
  · exact fun w hw => (hall w hw).1
  · intro w hw
    rw [hwire w hw, hx w hw, hs w hw, beq_iff_eq]
    exact ⟨s.inputs w (Finset.mem_range.mp hw),Iff.rfl⟩
  · intro g hg hin
    rw [hwrite g hg, hvalue g hg, hshared g hg]
    cases g with
    | AND a b w =>
      obtain ⟨ha, hta⟩ := hin a (by simp [BMR.Gate.ins])
      obtain ⟨hb, htb⟩ := hin b (by simp [BMR.Gate.ins])
      have hone : ¬((s.final a false).types = 1 ∧ (s.final b false).types = 1) := by
        rw [hta, htb]
        exact s.single a b w hg
      rw [sharedGate, Bool.or_eq_true, ← hta, ← htb]
      exact and_carries ha hb hone
    | XOR a b w =>
      obtain ⟨ha, hta⟩ := hin a (by simp [BMR.Gate.ins])
      obtain ⟨hb, htb⟩ := hin b (by simp [BMR.Gate.ins])
      rw [sharedGate, Bool.or_eq_true, ← hta, ← htb]
      exact xor_carries ha hb
    | NOT a w => exact absurd hg (hnot a w)

/-- An `INV` gate leaves its input and its output public with different relations between the parties. -/
lemma final_not {a w : ℕ} (hg : BMR.Gate.NOT a w ∈ s.cf.gates) : ¬s.Correct := by
  intro h
  obtain ⟨ha, hw, h0, h1⟩ := run_not s.topological.order s.wires hg
  obtain ⟨hlt, hin⟩ := s.topological.order.lt (BMR.range_lt s.topological) hg
  have hpub : ∀ i < s.cf.num_wire, (s.final i false).types = 0 → (s.final i false).data = (s.final i true).data := by
    intro i hi h0
    rcases carries_iff.mp (h i hi) with hp | ⟨h1, -⟩
    · rw [hp, hp]
    · rw [h1] at h0
      exact absurd h0 (by decide)
  have hout := hpub w hlt hw
  have hinv := hpub a (hin a (List.mem_singleton_self a)) ha
  change (s.final w false).data = (s.final a false).data ^^^ 1 at h0
  change (s.final w true).data = (s.final a true).data at h1
  rw [h0, h1, ← hinv] at hout
  have hzero := congrArg ((s.final a false).data ^^^ ·) hout
  simp only [← BitVec.xor_assoc, BitVec.xor_self, BitVec.zero_xor] at hzero
  exact absurd hzero (by decide)

/-- The gate loop is correct exactly for the circuits without `INV` gates. -/
theorem ghash_exact : s.Correct ↔ ∀ a w, BMR.Gate.NOT a w ∉ s.cf.gates :=
  ⟨fun h _ _ hg => final_not s hg h,final_carries s⟩

end correct

/-- One inverted public wire. -/
def invSetup : Setup where
  cf := ⟨2,1,0,1,[.NOT 0 1]⟩
  topological := ⟨by decide,by decide,by decide⟩
  wires _ _ := ⟨0,0⟩
  x _ := 0
  inputs := fun _ _ => ⟨rfl,.inl ⟨rfl,rfl,rfl⟩⟩
  single := fun a b w h => by simp at h

/-- The parties end with different data on the public output. -/
theorem ghash_inv : ¬invSetup.Correct := final_not invSetup List.mem_cons_self

end OramPro.Ghash
