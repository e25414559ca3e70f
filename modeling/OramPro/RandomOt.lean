import Mathlib.Algebra.Group.Basic
import Mathlib.Algebra.Module.NatInt
import Mathlib.Data.ZMod.Defs
import OramPro.FssCommon

/-!
# Precomputed oblivious transfer

`gen_rot` transfers random blocks `a0`, `a1` for random choices `r`, by the `send` and `recv` of
`Pratical_OT`. A later transfer masks its messages with these blocks, from the first one on.
-/
namespace OramPro.RandomOt

lemma unmask (x m : Block) : x ^^^ m ^^^ x = m := by
  rw [BitVec.xor_comm, ← BitVec.xor_assoc, BitVec.xor_self, BitVec.zero_xor]

lemma unmask_pair (x m m' : Block) : (x ^^^ m) ^^^ (x ^^^ m') = m ^^^ m' := by
  rw [BitVec.xor_comm x m, BitVec.xor_assoc, ← BitVec.xor_assoc x, BitVec.xor_self, BitVec.zero_xor]

/-! ## `send` and `recv` -/

section base
variable {E : Type*} [AddCommGroup E] (KDF : E → Block) (gen : E) (order : ℕ)

/-- The receiver's point for its choice; `C` is the sender's. -/
def pk (C : E) (k : ℕ) (b : Bool) : E := if b then C-k • gen else k • gen

/-- What `send` answers for a place. -/
def send (d r : ℕ) (pk0 : E) (data0 data1 : Block) : Block × Block :=
  let Cr := (r*d%order) • gen
  let pk0 := r • pk0
  let pk1 := Cr-pk0
  (KDF pk0 ^^^ data0,KDF pk1 ^^^ data1)

def recv (k : ℕ) (gr : E) (b : Bool) (m : Block × Block) : Block :=
  (if b then m.2 else m.1) ^^^ KDF (k • gr)

variable {gen order}

lemma recv_send (hgen : order • gen = 0) (d r k : ℕ) (b : Bool) (data0 data1 : Block) :
    recv KDF k (r • gen) b (send KDF gen order d r (pk gen (d • gen) k b) data0 data1) =
      if b then data1 else data0 := by
  have hkey : k • r • gen = r • k • gen := smul_comm k r gen
  cases b with
  | false =>
    simp only [recv, send, pk, Bool.false_eq_true, if_false, hkey, unmask]
  | true =>
    have hpk : (r*d%order) • gen-r • (d • gen-k • gen) = r • k • gen := by
      rw [← nsmul_eq_mod_nsmul (r*d) hgen, smul_sub, ← mul_smul, sub_sub_cancel]
    simp only [recv, send, pk, if_true, hkey, hpk, unmask]

end base

/-! ## The three calls -/

structure Sender where
  a0 : ℕ → Block
  a1 : ℕ → Block
  deriving Inhabited

structure Receiver where
  r : ℕ → Bool
  a0 : ℕ → Block
  deriving Inhabited

/-- What the parties draw in `gen_rot`: the pads, the choices and, in `send` and `recv`, exponents. -/
structure Draws where
  a0 : ℕ → Block
  a1 : ℕ → Block
  r : ℕ → Bool
  d : ℕ
  rs : ℕ → ℕ
  ks : ℕ → ℕ

def send_with_rot (s : Sender) (masked : ℕ → Bool) (data0 data1 : ℕ → Block) (length : ℕ) :
    List Block :=
  ((List.range length).map fun i => if masked i then s.a1 i ^^^ data0 i else s.a0 i ^^^ data0 i) ++
  (List.range length).map fun i => if masked i then s.a0 i ^^^ data1 i else s.a1 i ^^^ data1 i

/-- The masked choices that `recv_with_rot` sends. -/
def masked (x : Receiver) (b : ℕ → Bool) (i : ℕ) : Bool := x.r i ^^ b i

def recv_with_rot (x : Receiver) (b : ℕ → Bool) (d : List Block) (length : ℕ) : List Block :=
  (List.range length).map fun i =>
    if b i = false then d.getD i 0 ^^^ x.a0 i else d.getD (i+length) 0 ^^^ x.a0 i

inductive Call
  | gen_rot (length : ℕ) (draws : Draws)
  | transfer (length : ℕ) (data0 data1 : ℕ → Block) (b : ℕ → Bool)

/-- A pair of messages on the wire: its call, its pad (the `gen_rot` call and the place) and the
masked messages. -/
structure Use where
  call : ℕ
  pad : ℕ × ℕ
  sent : Block × Block

/-- Both parties, with a record of the messages so far. -/
structure Object where
  length : ℕ
  sender : Sender
  recver : Receiver
  gens : ℕ
  calls : ℕ
  uses : List Use
  outputs : List (List Block)

section run
variable {E : Type*} [AddCommGroup E] (KDF : E → Block) (gen : E) (order : ℕ)

/-- The receiver's `a0`. -/
def received (x : Draws) (i : ℕ) : Block :=
  recv KDF (x.ks i) (x.rs i • gen) (x.r i)
    (send KDF gen order x.d (x.rs i) (pk gen (x.d • gen) (x.ks i) (x.r i)) (x.a0 i) (x.a1 i))

def transferUses (o : Object) (d : List Block) (length : ℕ) : List Use :=
  (List.range length).map fun i => ⟨o.calls,(o.gens,i),(d.getD i 0,d.getD (i+length) 0)⟩

/-- One call at both parties; `none` is a transfer longer than the pads. -/
def step (o : Object) : Call → Option Object
  | .gen_rot length x => some { o with
      length := length
      sender := ⟨x.a0,x.a1⟩
      recver := ⟨x.r,received KDF gen order x⟩
      gens := o.gens+1 }
  | .transfer length data0 data1 b =>
    if length ≤ o.length then
      let d := send_with_rot o.sender (masked o.recver b) data0 data1 length
      some { o with
        calls := o.calls+1
        uses := o.uses++transferUses o d length
        outputs := o.outputs++[recv_with_rot o.recver b d length] }
    else none

def run (calls : List Call) : Option Object :=
  calls.foldlM (step KDF gen order) ⟨0,default,default,0,0,[],[]⟩

end run

/-! ## Every transfer delivers the chosen messages -/

/-- In either half, a message is masked by the pad that the masked choice names. -/
lemma send_with_rot_get (s : Sender) (masked : ℕ → Bool) (data0 data1 : ℕ → Block) {length i : ℕ}
    (hi : i < length) (c : Bool) :
    (send_with_rot s masked data0 data1 length).getD (if c then i+length else i) 0 =
      (if masked i ^^ c then s.a1 i else s.a0 i) ^^^ if c then data1 i else data0 i := by
  cases c <;> cases hm : masked i <;>
    simp [send_with_rot, List.getD_eq_getElem?_getD, List.getElem?_append, hi, hm]

/-- The receiver holds the pad of its random choice. -/
def Object.Matched (o : Object) : Prop :=
  ∀ i < o.length, o.recver.a0 i = if o.recver.r i then o.sender.a1 i else o.sender.a0 i

lemma recv_with_rot_eq {o : Object} (h : o.Matched) (data0 data1 : ℕ → Block) (b : ℕ → Bool)
    {length : ℕ} (hl : length ≤ o.length) :
    recv_with_rot o.recver b
        (send_with_rot o.sender (masked o.recver b) data0 data1 length) length =
      (List.range length).map fun i => if b i then data1 i else data0 i := by
  refine List.map_congr_left fun i hi => ?_
  have hi := List.mem_range.mp hi
  have hget := send_with_rot_get o.sender (masked o.recver b) data0 data1 hi (b i)
  have hpad : (masked o.recver b i ^^ b i) = o.recver.r i := by
    rw [masked, Bool.xor_assoc, Bool.xor_self, Bool.xor_false]
  rw [hpad, ← h i (hi.trans_le hl)] at hget
  cases hb : b i with
  | false =>
    simp only [hb, Bool.false_eq_true, if_false, if_true] at hget ⊢
    rw [hget, unmask]
  | true =>
    simp only [hb, Bool.true_eq_false, if_false, if_true] at hget ⊢
    rw [hget, unmask]

/-- The message that is not chosen stays under the pad that the receiver lacks. -/
lemma sent_unchosen (s : Sender) (x : Receiver) (data0 data1 : ℕ → Block) (b : ℕ → Bool)
    {length i : ℕ} (hi : i < length) :
    (send_with_rot s (masked x b) data0 data1 length).getD (if !b i then i+length else i) 0 =
      (if !x.r i then s.a1 i else s.a0 i) ^^^ if !b i then data1 i else data0 i := by
  rw [send_with_rot_get s (masked x b) data0 data1 hi (!b i)]
  have hpad : (masked x b i ^^ !b i) = !x.r i := by
    rw [masked, Bool.xor_assoc, Bool.xor_not_self, Bool.xor_true]
  rw [hpad]

/-- Two transfers on the same pads tell the receiver the XOR of messages that it did not choose. -/
theorem unchosen_leak (s : Sender) (x : Receiver) (data0 data1 data0' data1' : ℕ → Block)
    (b b' : ℕ → Bool) {length length' i : ℕ} (hi : i < length) (hi' : i < length') :
    (send_with_rot s (masked x b) data0 data1 length).getD (if !b i then i+length else i) 0 ^^^
      (send_with_rot s (masked x b') data0' data1' length').getD
        (if !b' i then i+length' else i) 0 =
      (if !b i then data1 i else data0 i) ^^^ if !b' i then data1' i else data0' i := by
  rw [sent_unchosen s x data0 data1 b hi, sent_unchosen s x data0' data1' b' hi', unmask_pair]

/-- What the receiver chooses in a call. -/
def Call.chosen : Call → Option (List Block)
  | .gen_rot _ _ => none
  | .transfer length data0 data1 b =>
    some ((List.range length).map fun i => if b i then data1 i else data0 i)

section delivery
variable {E : Type*} [AddCommGroup E] {KDF : E → Block} {gen : E} {order : ℕ}

lemma step_outputs (hgen : order • gen = 0) {o o' : Object} {c : Call} (h : o.Matched)
    (hstep : step KDF gen order o c = some o') :
    o'.Matched ∧ o'.outputs = o.outputs++c.chosen.toList := by
  cases c with
  | gen_rot length x =>
    cases hstep
    exact ⟨fun i _ => recv_send KDF hgen x.d (x.rs i) (x.ks i) (x.r i) (x.a0 i) (x.a1 i),
      (List.append_nil _).symm⟩
  | transfer length data0 data1 b =>
    simp only [step, Option.ite_none_right_eq_some, Option.some.injEq] at hstep
    obtain ⟨hl, rfl⟩ := hstep
    refine ⟨h,congrArg (o.outputs++[·]) ?_⟩
    exact recv_with_rot_eq h data0 data1 b hl

lemma foldlM_outputs (hgen : order • gen = 0) {calls : List Call} {o o' : Object} (h : o.Matched)
    (hrun : calls.foldlM (step KDF gen order) o = some o') :
    o'.outputs = o.outputs++calls.filterMap Call.chosen := by
  induction calls generalizing o with
  | nil =>
    cases hrun
    exact (List.append_nil _).symm
  | cons c calls ih =>
    rw [List.foldlM_cons, Option.bind_eq_bind, Option.bind_eq_some_iff] at hrun
    obtain ⟨o1, hstep, hrun⟩ := hrun
    obtain ⟨h1, hout⟩ := step_outputs hgen h hstep
    rw [ih h1 hrun, hout, List.append_assoc]
    cases hc : c.chosen <;> simp [hc]

/-- The transfers of a run deliver what was chosen, on whatever pads. -/
theorem run_outputs (hgen : order • gen = 0) {calls : List Call} {o : Object}
    (hrun : run KDF gen order calls = some o) : o.outputs = calls.filterMap Call.chosen := by
  have hinit : Object.Matched ⟨0,default,default,0,0,[],[]⟩ := fun i hi => absurd hi i.not_lt_zero
  exact (foldlM_outputs hgen hinit hrun).trans (List.nil_append _)

end delivery

/-! ## Single use -/

/-- No pad masks messages of two transfers. -/
def SingleUse (uses : List Use) : Prop := uses.Pairwise fun u v => u.call ≠ v.call → u.pad ≠ v.pad

instance decidableSingleUse (uses : List Use) : Decidable (SingleUse uses) :=
  inferInstanceAs (Decidable (uses.Pairwise _))

/-- Whether the pads have masked something after a call. -/
def Call.after (used : Bool) : Call → Bool
  | .gen_rot _ _ => false
  | .transfer length _ _ _ => used || decide (0 < length)

def Call.fresh (used : Bool) : Call → Bool
  | .gen_rot _ _ => true
  | .transfer length _ _ _ => !(used && decide (0 < length))

/-- Each `gen_rot` serves at most one transfer that is not empty. -/
def oncePerGen (used : Bool) : List Call → Bool
  | [] => true
  | c :: calls => c.fresh used && oncePerGen (c.after used) calls

/-- Of the pads in place, the first is used whenever any is. -/
structure Used (used : Bool) (o : Object) : Prop where
  calls : ∀ u ∈ o.uses, u.call < o.calls
  gens : ∀ u ∈ o.uses, u.pad.1 ≤ o.gens
  unused : used = false → ∀ u ∈ o.uses, u.pad.1 ≠ o.gens
  first : used = true → ∃ u ∈ o.uses, u.pad = (o.gens,0)

lemma mem_transferUses {o : Object} {d : List Block} {length : ℕ} {u : Use} :
    u ∈ transferUses o d length ↔
      ∃ i < length, ⟨o.calls,(o.gens,i),(d.getD i 0,d.getD (i+length) 0)⟩ = u := by
  simp only [transferUses, List.mem_map, List.mem_range]

lemma transferUses_single (o : Object) (d : List Block) (length : ℕ) :
    SingleUse (transferUses o d length) := by
  rw [SingleUse, transferUses, List.pairwise_map]
  exact .imp (fun _ hne => absurd rfl hne) List.nodup_range

section single
variable {E : Type*} [AddCommGroup E] {KDF : E → Block} {gen : E} {order : ℕ}

lemma step_used {used : Bool} {o o' : Object} {c : Call} (h : Used used o)
    (hstep : step KDF gen order o c = some o') : Used (c.after used) o' := by
  cases c with
  | gen_rot length x =>
    cases hstep
    refine ⟨h.calls,fun u hu => (h.gens u hu).trans o.gens.le_succ,fun _ u hu => ?_,nofun⟩
    exact (Nat.lt_succ_of_le (h.gens u hu)).ne
  | transfer length data0 data1 b =>
    simp only [step, Option.ite_none_right_eq_some, Option.some.injEq] at hstep
    obtain ⟨-, rfl⟩ := hstep
    refine ⟨fun u hu => ?_,fun u hu => ?_,fun hused u hu => ?_,fun hused => ?_⟩
    · rcases List.mem_append.mp hu with hu | hu
      · exact (h.calls u hu).trans o.calls.lt_succ_self
      · obtain ⟨i, -, rfl⟩ := mem_transferUses.mp hu
        exact o.calls.lt_succ_self
    · rcases List.mem_append.mp hu with hu | hu
      · exact h.gens u hu
      · obtain ⟨i, -, rfl⟩ := mem_transferUses.mp hu
        exact le_rfl
    · obtain ⟨hused, hzero⟩ := Bool.or_eq_false_iff.mp hused
      rcases List.mem_append.mp hu with hu | hu
      · exact h.unused hused u hu
      · obtain ⟨i, hi, -⟩ := mem_transferUses.mp hu
        exact absurd (Nat.zero_lt_of_lt hi) (of_decide_eq_false hzero)
    · rcases (Bool.or_eq_true _ _).mp hused with hused | hpos
      · obtain ⟨u, hu, hpad⟩ := h.first hused
        exact ⟨u,List.mem_append_left _ hu,hpad⟩
      · exact ⟨_,List.mem_append_right _ (mem_transferUses.mpr ⟨0,of_decide_eq_true hpos,rfl⟩),rfl⟩

/-- A call keeps single use exactly when it does not mask with pads already used. -/
lemma step_single {used : Bool} {o o' : Object} {c : Call} (h : Used used o)
    (hstep : step KDF gen order o c = some o') :
    SingleUse o'.uses ↔ SingleUse o.uses ∧ c.fresh used = true := by
  cases c with
  | gen_rot length x =>
    cases hstep
    exact (and_iff_left rfl).symm
  | transfer length data0 data1 b =>
    simp only [step, Option.ite_none_right_eq_some, Option.some.injEq] at hstep
    obtain ⟨-, rfl⟩ := hstep
    rw [SingleUse, List.pairwise_append]
    refine and_congr_right fun _ => ⟨fun ⟨_, hnew⟩ => ?_,fun hfresh => ⟨transferUses_single _ _ _,?_⟩⟩
    · rw [Call.fresh, Bool.not_eq_true', Bool.eq_false_iff]
      intro hreuse
      obtain ⟨hused, hpos⟩ := (Bool.and_eq_true _ _).mp hreuse
      obtain ⟨u, hu, hpad⟩ := h.first hused
      exact hnew u hu _ (mem_transferUses.mpr ⟨0,of_decide_eq_true hpos,rfl⟩) (h.calls u hu).ne hpad
    · intro u hu v hv _ hpad
      obtain ⟨i, hi, rfl⟩ := mem_transferUses.mp hv
      cases used with
      | false => exact h.unused rfl u hu (congrArg Prod.fst hpad)
      | true =>
        have hpos := Nat.zero_lt_of_lt hi
        simp [Call.fresh, hpos.ne'] at hfresh

lemma foldlM_single {calls : List Call} {used : Bool} {o o' : Object} (h : Used used o)
    (hrun : calls.foldlM (step KDF gen order) o = some o') :
    SingleUse o'.uses ↔ SingleUse o.uses ∧ oncePerGen used calls = true := by
  induction calls generalizing used o with
  | nil =>
    cases hrun
    exact (and_iff_left rfl).symm
  | cons c calls ih =>
    rw [List.foldlM_cons, Option.bind_eq_bind, Option.bind_eq_some_iff] at hrun
    obtain ⟨o1, hstep, hrun⟩ := hrun
    rw [ih (step_used h hstep) hrun, step_single h hstep, oncePerGen, Bool.and_eq_true, and_assoc]

end single

lemma used_init : Used false ⟨0,default,default,0,0,[],[]⟩ :=
  ⟨fun _ hu => absurd hu List.not_mem_nil,fun _ hu => absurd hu List.not_mem_nil,
    fun _ _ hu => absurd hu List.not_mem_nil,nofun⟩

/-- In a run the pads are single-use exactly when between two `gen_rot` calls at most one transfer
is not empty. -/
theorem pads_exact {E : Type*} [AddCommGroup E] (KDF : E → Block) (gen : E) (order : ℕ)
    (calls : List Call) (o : Object) (hrun : run KDF gen order calls = some o) :
    SingleUse o.uses ↔ oncePerGen false calls = true :=
  (foldlM_single used_init hrun).trans (and_iff_right .nil)

/-- Pads of a single place. -/
def smallDraws : Draws := ⟨fun _ => 5,fun _ => 6,fun _ => true,2,fun _ => 3,fun _ => 4⟩

def smallKDF (x : ZMod 7) : Block := BitVec.ofNat 128 x.val

theorem pads_renewed : ∃ o : Object, run smallKDF 1 7
    [.gen_rot 1 smallDraws,.transfer 1 (fun _ => 1) (fun _ => 2) (fun _ => false),
      .gen_rot 1 smallDraws,.transfer 1 (fun _ => 3) (fun _ => 4) (fun _ => true)] = some o ∧
    SingleUse o.uses := by
  obtain ⟨o, ho⟩ := Option.isSome_iff_exists.mp (by decide : (run smallKDF 1 7
    [.gen_rot 1 smallDraws,.transfer 1 (fun _ => 1) (fun _ => 2) (fun _ => false),
      .gen_rot 1 smallDraws,.transfer 1 (fun _ => 3) (fun _ => 4) (fun _ => true)]).isSome)
  exact ⟨o,ho,(pads_exact smallKDF 1 7 _ o ho).mpr (by decide)⟩

/-- Two transfers after one `gen_rot`: both deliver, on the same pad. -/
theorem pads_again : ∃ o : Object, run smallKDF 1 7
    [.gen_rot 1 smallDraws,.transfer 1 (fun _ => 1) (fun _ => 2) (fun _ => false),
      .transfer 1 (fun _ => 3) (fun _ => 4) (fun _ => true)] = some o ∧
    o.outputs = [[1],[4]] ∧ ¬SingleUse o.uses := by
  obtain ⟨o, ho⟩ := Option.isSome_iff_exists.mp (by decide : (run smallKDF 1 7
    [.gen_rot 1 smallDraws,.transfer 1 (fun _ => 1) (fun _ => 2) (fun _ => false),
      .transfer 1 (fun _ => 3) (fun _ => 4) (fun _ => true)]).isSome)
  refine ⟨o,ho,run_outputs (by decide) ho,fun h => ?_⟩
  exact absurd ((foldlM_single used_init ho).mp h).2 (by decide)

end OramPro.RandomOt
