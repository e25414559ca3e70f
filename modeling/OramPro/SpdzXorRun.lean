import OramPro.SpdzXor

/-!
# Runs of `SPDZXOR`

Any sequence of `share`, `add` and `flap`. The bits of a sharing, its random numbers and the
commitment follow a bit and two integer sums. The randomness is reduced modulo an odd number, so
its parity is right as long as the number of wraps is even.
-/
namespace OramPro.SPDZXOR

open SPDZ

/-! ## Dealing and opening -/

/-- A bit and its random numbers at the dealer, with the seeds for the shares. -/
structure Deal where
  b : Byte
  r : ℕ × ℕ
  seed_b : ℕ → Byte
  seed_r1 : ℕ → ℕ → Byte
  seed_r2 : ℕ → ℕ → Byte

section
variable (COM : Commitment) (Ps : List ℕ) (verifier : ℕ)

/-- `add_share` of a byte; the owner adds its own random byte twice. -/
def add_share_byte (owner : ℕ) (seed : ℕ → Byte) (data : Byte) (p : ℕ) : Byte :=
  if p = owner then Ps.foldl (fun a p' => a^^^seed p') data^^^seed owner else seed p

/-- One place of `share`. -/
def share (owner : ℕ) (d : Deal) (p : ℕ) : Xmaterial :=
  ⟨add_share_byte Ps owner d.seed_b d.b p,
    (add_share COM Ps owner d.seed_r1 d.r.1 p,add_share COM Ps owner d.seed_r2 d.r.2 p),
    if p = owner then comit COM d.b (d.r.1/2,d.r.2) else 0⟩

/-- `flap` at party `f`; the verifier flaps the commitment. -/
def flapBy (f : ℕ) (z : ℕ → Xmaterial) (p : ℕ) : Xmaterial :=
  let y := if p = f then flap COM (z p) else z p
  if p = verifier then ⟨y.b,y.r_plus,cflap COM (z p).c⟩ else y

/-- What `reveal` opens at the owner, and its two checks. -/
structure Revealed where
  b : Byte
  parity : Bool
  decomits : Bool
  deriving DecidableEq

def reveal (owner : ℕ) (data : ℕ → List Xmaterial) : List Revealed :=
  let n := (data owner).length
  let rs := add_reveal COM Ps owner fun p =>
    (data p).map (fun z => z.r_plus.1)++(data p).map fun z => z.r_plus.2
  (List.range n).map fun i =>
    let b := (Ps.filter (· ≠ owner)).foldl (fun v p' => v^^^((data p').getD i default).b)
      ((data owner).getD i default).b
    ⟨b,rs i%2 == b.toNat,decomit COM ((data owner).getD i default).c b (rs i/2,rs (i+n))⟩

/-- The sharing is good: the shared randomness has the parity of the shared bit and the
commitment opens to both. -/
def Good (z : ℕ → Xmaterial) : Prop :=
  let b := xorOver Ps fun p => (z p).b
  let r1 := (total Ps fun p => ((z p).r_plus.1 : ZMod COM.q)).val
  let r2 := (total Ps fun p => ((z p).r_plus.2 : ZMod COM.q)).val
  r1%2 = b.toNat ∧ decomit COM (z verifier).c b (r1/2,r2) = true

/-! ## Runs -/

/-- One call; the numbers are places of earlier results, `f` is the party that flaps. -/
inductive Op
  | share (d : Deal)
  | add (i j : ℕ)
  | flap (i f : ℕ)

def step (st : List (ℕ → Xmaterial)) : Op → Option (List (ℕ → Xmaterial))
  | .share d => some (st++[share COM Ps verifier d])
  | .add i j => do
    let x ← st[i]?
    let y ← st[j]?
    return st++[fun p => add COM (x p) (y p)]
  | .flap i f => do
    let x ← st[i]?
    return st++[flapBy COM verifier f x]

def run (ops : List Op) : Option (List (ℕ → Xmaterial)) := ops.foldlM (step COM Ps verifier) []

end

/-- A bit with two sums that are never reduced. -/
structure Plain where
  b : Bool
  r1 : ℕ
  r2 : ℕ
  deriving DecidableEq

def plainStep (st : List Plain) : Op → Option (List Plain)
  | .share d => some (st++[⟨d.b.getLsbD 0,d.r.1,d.r.2⟩])
  | .add i j => do
    let x ← st[i]?
    let y ← st[j]?
    return st++[⟨x.b ^^ y.b,x.r1+y.r1,x.r2+y.r2⟩]
  | .flap i _ => do
    let x ← st[i]?
    return st++[⟨!x.b,x.r1+1,x.r2⟩]

def plainRun (ops : List Op) : Option (List Plain) := ops.foldlM plainStep []

/-- The inputs that the dealer may share, and the parties that may flap. -/
def Op.Ok (COM : Commitment) (Ps : List ℕ) : Op → Prop
  | .share d => d.r.1%2 = d.b.toNat ∧ d.r.1 < COM.q ∧ d.r.2 < COM.q
  | .add _ _ => True
  | .flap _ f => f ∈ Ps

/-! ## Shares of bytes -/

section bytes
variable {Ps : List ℕ} {owner : ℕ}

lemma xorOver_congr {f g : ℕ → Byte} (h : ∀ p ∈ Ps, f p = g p) : xorOver Ps f = xorOver Ps g := by
  refine BitVec.eq_of_getLsbD_eq fun j _ => ?_
  rw [xorOver_bit, xorOver_bit]
  exact congrArg List.sum (List.map_congr_left fun p hp => by rw [h p hp])

lemma xorOver_xor (f g : ℕ → Byte) :
    (xorOver Ps fun p => f p^^^g p) = xorOver Ps f^^^xorOver Ps g := by
  refine BitVec.eq_of_getLsbD_eq fun j _ => ?_
  rw [BitVec.getLsbD_xor, xorOver_bit, xorOver_bit, xorOver_bit]
  refine Eq.trans ?_ List.sum_map_add
  exact congrArg List.sum (List.map_congr_left fun p _ => BitVec.getLsbD_xor)

lemma xorOver_single (hnd : Ps.Nodup) {f : ℕ} (hf : f ∈ Ps) (v : Byte) :
    (xorOver Ps fun p => if p = f then v else 0) = v := by
  refine BitVec.eq_of_getLsbD_eq fun j _ => ?_
  rw [xorOver_bit]
  refine Eq.trans ?_ (sum_single hnd hf (v.getLsbD j))
  refine congrArg List.sum (List.map_congr_left fun p _ => ?_)
  split
  · rfl
  · exact BitVec.getLsbD_zero

lemma xorOver_flap (hnd : Ps.Nodup) {f : ℕ} (hf : f ∈ Ps) (g : ℕ → Byte) (v : Byte) :
    (xorOver Ps fun p => if p = f then g p^^^v else g p) = xorOver Ps g^^^v := by
  rw [← xorOver_single hnd hf v, ← xorOver_xor, xorOver_single hnd hf]
  refine xorOver_congr fun p _ => ?_
  split
  · rfl
  · exact (BitVec.xor_zero).symm

lemma foldl_others_byte (hnd : Ps.Nodup) (ho : owner ∈ Ps) (f : ℕ → Byte) :
    (Ps.filter (· ≠ owner)).foldl (fun v p' => v^^^f p') (f owner) = xorOver Ps f := by
  refine BitVec.eq_of_getLsbD_eq fun j _ => ?_
  rw [foldl_xor_bit, xorOver_bit]
  exact sum_others hnd ho fun p => (f p).getLsbD j

lemma add_share_byte_total (hnd : Ps.Nodup) (ho : owner ∈ Ps) (seed : ℕ → Byte) (data : Byte) :
    xorOver Ps (add_share_byte Ps owner seed data) = data := by
  refine BitVec.eq_of_getLsbD_eq fun j _ => ?_
  have hrest : (Ps.filter (· ≠ owner)).map
      (fun p => (add_share_byte Ps owner seed data p).getLsbD j) =
      (Ps.filter (· ≠ owner)).map fun p => (seed p).getLsbD j := by
    refine List.map_congr_left fun p hp => ?_
    rw [add_share_byte, if_neg (by simpa using (List.mem_filter.mp hp).2)]
  rw [xorOver_bit, ← sum_others hnd ho, hrest, add_share_byte, if_pos rfl, BitVec.getLsbD_xor,
    foldl_xor_bit, ← sum_others hnd ho fun p => (seed p).getLsbD j]
  cases data.getLsbD j <;> cases (seed owner).getLsbD j <;>
    cases ((Ps.filter (· ≠ owner)).map fun p => (seed p).getLsbD j).sum <;> rfl

end bytes

/-! ## The relation to plain bits and sums -/

section rel
variable (COM : Commitment) (Ps : List ℕ) (verifier : ℕ)

def byte (b : Bool) : Byte := if b then 1 else 0

lemma byte_xor (a b : Bool) : byte a^^^byte b = byte (a ^^ b) := by cases a <;> cases b <;> rfl
lemma byte_not (a : Bool) : byte a^^^1 = byte (!a) := by cases a <;> rfl
lemma byte_toNat (a : Bool) : (byte a).toNat = a.toNat := by cases a <;> rfl

/-- What a sharing has to do with a bit and two integer sums. -/
structure Rel (z : ℕ → Xmaterial) (s : Plain) : Prop where
  b : (xorOver Ps fun p => (z p).b) = byte s.b
  r1 : (total Ps fun p => ((z p).r_plus.1 : ZMod COM.q)) = s.r1
  r2 : (total Ps fun p => ((z p).r_plus.2 : ZMod COM.q)) = s.r2
  c : (z verifier).c = COM.comit s.r1 s.r2
  parity : s.r1%2 = s.b.toNat
  lt : ∀ p ∈ Ps, (z p).r_plus.1 < COM.q ∧ (z p).r_plus.2 < COM.q

variable {COM Ps verifier}

lemma cadd_comit (m r m' r' : ℕ) :
    COM.cadd (COM.comit m r) (COM.comit m' r') = COM.comit (m+m') (r+r') := by
  have hcast : (COM.cadd (COM.comit m r) (COM.comit m' r') : ZMod COM.prime) =
      COM.comit (m+m') (r+r') := by
    rw [Commitment.cadd, ZMod.natCast_mod, Nat.cast_mul, comit_cast, comit_cast, comit_cast,
      Pedersen.com_mul]
  have hmod := (ZMod.natCast_eq_natCast_iff _ _ _).mp hcast
  rw [Nat.ModEq, Commitment.cadd, Nat.mod_mod, Commitment.comit, Commitment.comit,
    Commitment.comit, Nat.mod_mod] at hmod
  exact hmod

lemma add_share_lt [NeZero COM.q] {owner : ℕ} (seed : ℕ → ℕ → Byte) {data : ℕ} (hdata : data < COM.q)
    (p : ℕ) : add_share COM Ps owner seed data p < COM.q := by
  rw [add_share]
  split
  · rcases List.eq_nil_or_concat (Ps.filter (· ≠ owner)) with hnil | ⟨l, y, hl⟩
    · rwa [hnil]
    · rw [hl, List.concat_eq_append, List.foldl_append]
      exact Nat.mod_lt _ (NeZero.pos COM.q)
  · exact randomm_lt _

lemma share_rel [NeZero COM.q] (hnd : Ps.Nodup) (hv : verifier ∈ Ps) {d : Deal}
    (hd : (Op.share d).Ok COM Ps) :
    Rel COM Ps verifier (share COM Ps verifier d) ⟨d.b.getLsbD 0,d.r.1,d.r.2⟩ := by
  obtain ⟨hpar, h1, h2⟩ := hd
  have hb : byte (d.b.getLsbD 0) = d.b := by
    have hlt : d.b.toNat < 2 := by omega
    have hcases : d.b = 0 ∨ d.b = 1 := by
      rcases Nat.lt_or_ge 0 d.b.toNat with h | h
      · exact .inr (BitVec.eq_of_toNat_eq (by simp; omega))
      · exact .inl (BitVec.eq_of_toNat_eq (by simp; omega))
    rcases hcases with h | h <;> rw [h] <;> rfl
  refine ⟨?_,add_share_total hnd hv _ _,add_share_total hnd hv _ _,?_,?_,fun p _ => ?_⟩
  · rw [hb]
    exact add_share_byte_total hnd hv _ _
  · have hsum : d.r.1/2*2+d.b.toNat = d.r.1 := by omega
    simp [share, comit, hsum]
  · rw [hpar, ← byte_toNat, hb]
  · exact ⟨add_share_lt _ h1 p,add_share_lt _ h2 p⟩

lemma add_rel [NeZero COM.q] {x y : ℕ → Xmaterial} {s t : Plain} (hx : Rel COM Ps verifier x s)
    (hy : Rel COM Ps verifier y t) :
    Rel COM Ps verifier (fun p => add COM (x p) (y p)) ⟨s.b ^^ t.b,s.r1+t.r1,s.r2+t.r2⟩ := by
  have hsum : ∀ f g : ℕ → ℕ, (total Ps fun p => (((f p+g p)%COM.q : ℕ) : ZMod COM.q)) =
      (total Ps fun p => (f p : ZMod COM.q))+total Ps fun p => (g p : ZMod COM.q) := by
    intro f g
    rw [← total_add]
    exact total_congr fun p _ => by rw [ZMod.natCast_mod, Nat.cast_add]
  refine ⟨?_,?_,?_,?_,?_,fun p _ => ⟨Nat.mod_lt _ (NeZero.pos COM.q),Nat.mod_lt _ (NeZero.pos COM.q)⟩⟩
  · rw [← byte_xor, ← hx.b, ← hy.b]
    exact xorOver_xor _ _
  · rw [Nat.cast_add, ← hx.r1, ← hy.r1]
    exact hsum _ _
  · rw [Nat.cast_add, ← hx.r2, ← hy.r2]
    exact hsum _ _
  · rw [← cadd_comit, ← hx.c, ← hy.c]
    rfl
  · have h := hx.parity
    have h' := hy.parity
    rw [Nat.add_mod, h, h']
    cases s.b <;> cases t.b <;> rfl

lemma flapBy_rel [NeZero COM.q] (hnd : Ps.Nodup) {f : ℕ} (hf : f ∈ Ps) {x : ℕ → Xmaterial} {s : Plain}
    (hx : Rel COM Ps verifier x s) :
    Rel COM Ps verifier (flapBy COM verifier f x) ⟨!s.b,s.r1+1,s.r2⟩ := by
  have hfield : ∀ p, (flapBy COM verifier f x p).b = (if p = f then (x p).b^^^1 else (x p).b) ∧
      (flapBy COM verifier f x p).r_plus =
        if p = f then (((x p).r_plus.1+1)%COM.q,(x p).r_plus.2) else (x p).r_plus := by
    intro p
    simp only [flapBy, flap]
    split <;> split <;> exact ⟨rfl,rfl⟩
  refine ⟨?_,?_,?_,?_,?_,fun p hp => ?_⟩
  · rw [← byte_not, ← hx.b, ← xorOver_flap hnd hf]
    exact xorOver_congr fun p _ => (hfield p).1
  · rw [Nat.cast_add, Nat.cast_one, ← hx.r1]
    have hone : (total Ps fun p => if p = f then (1 : ZMod COM.q) else 0) = 1 := sum_single hnd hf 1
    rw [← hone, ← total_add]
    refine total_congr fun p _ => ?_
    rw [(hfield p).2]
    split
    · rw [ZMod.natCast_mod, Nat.cast_add, Nat.cast_one]
    · rw [add_zero]
  · rw [← hx.r2]
    refine total_congr fun p _ => ?_
    rw [(hfield p).2]
    split <;> rfl
  · have hc : (flapBy COM verifier f x verifier).c = cflap COM (x verifier).c := by
      simp [flapBy]
    rw [hc, cflap, hx.c, cadd_comit]
    rfl
  · have h := hx.parity
    rw [Nat.add_mod, h]
    cases s.b <;> rfl
  · rw [(hfield p).2]
    split
    · exact ⟨Nat.mod_lt _ (NeZero.pos COM.q),(hx.lt p hp).2⟩
    · exact hx.lt p hp

/-- A wrap changes the parity of the randomness, as `q` is odd. -/
lemma Rel.good_iff [NeZero COM.q] (hok : COM.Ok) (hodd : COM.q%2 = 1) {z : ℕ → Xmaterial} {s : Plain}
    (h : Rel COM Ps verifier z s) : Good COM Ps verifier z ↔ Even (s.r1/COM.q) := by
  have hdiv := Nat.div_add_mod s.r1 COM.q
  have hprod : COM.q*(s.r1/COM.q)%2 = s.r1/COM.q%2 := by
    rw [Nat.mul_mod, hodd, one_mul, Nat.mod_mod]
  have hpar : s.r1%COM.q%2 = s.b.toNat ↔ Even (s.r1/COM.q) := by
    rw [← h.parity, Nat.even_iff]
    omega
  simp only [Good, h.b, h.r1, h.r2, ZMod.val_natCast, byte_toNat]
  rw [← hpar]
  refine ⟨And.left,fun hb => ⟨hb,?_⟩⟩
  have hval : s.r1%COM.q/2*2+(byte s.b).toNat = s.r1%COM.q := by
    rw [byte_toNat]
    omega
  obtain ⟨hg, hh⟩ := bases hok
  have hcast : (COM.comit s.r1 s.r2 : ZMod COM.prime) = COM.comit (s.r1%COM.q) (s.r2%COM.q) := by
    rw [comit_cast, comit_cast]
    exact Pedersen.com_congr hg hh (Nat.mod_modEq _ _).symm (Nat.mod_modEq _ _).symm
  have hmod := (ZMod.natCast_eq_natCast_iff _ _ _).mp hcast
  rw [Nat.ModEq, Commitment.comit, Commitment.comit, Nat.mod_mod, Nat.mod_mod] at hmod
  rw [decomit, hval, h.c, Commitment.decomit, beq_iff_eq]
  exact hmod

/-- `reveal` opens the shared bit, and its checks are those of a good sharing. -/
lemma Rel.reveal_eq [NeZero COM.q] (hq : COM.q < 2^64) (hnd : Ps.Nodup) (hv : verifier ∈ Ps)
    {z : ℕ → Xmaterial} {s : Plain} (h : Rel COM Ps verifier z s) :
    ∃ parity decomits, reveal COM Ps verifier (fun p => [z p]) = [⟨byte s.b,parity,decomits⟩] ∧
      (Good COM Ps verifier z ↔ parity = true ∧ decomits = true) := by
  have hr : ∀ (f : ℕ → ℕ) (i v : ℕ), (∀ p, ([(z p).r_plus.1,(z p).r_plus.2]).getD i 0 = f p) → i < 2 →
      (∀ p ∈ Ps, f p < COM.q) → (total Ps fun p => (f p : ZMod COM.q)) = (v : ZMod COM.q) →
      add_reveal COM Ps verifier (fun p => [(z p).r_plus.1,(z p).r_plus.2]) i = v%COM.q := by
    intro f i v hf hi hlt hsum
    refine add_reveal_eq hq hnd hv (fun p _ => by simpa using hi) (fun p hp => ?_)
      (Nat.mod_lt _ (NeZero.pos COM.q)) ?_
    · rw [hf p]
      exact hlt p hp
    · rw [ZMod.natCast_mod, ← hsum]
      exact total_congr fun p _ => by rw [hf p]
  have h1 := hr (fun p => (z p).r_plus.1) 0 s.r1 (fun p => rfl) (by omega)
    (fun p hp => (h.lt p hp).1) h.r1
  have h2 := hr (fun p => (z p).r_plus.2) 1 s.r2 (fun p => rfl) (by omega)
    (fun p hp => (h.lt p hp).2) h.r2
  have hb := (foldl_others_byte hnd hv fun p => (z p).b).trans h.b
  refine ⟨s.r1%COM.q%2 == (byte s.b).toNat,
    decomit COM (z verifier).c (byte s.b) (s.r1%COM.q/2,s.r2%COM.q),?_,?_⟩
  · simp only [reveal, List.length_singleton, List.range_one, List.map_cons, List.map_nil,
      List.cons_append, List.nil_append, List.getD_cons_zero, Nat.zero_add, h1, h2]
    rw [hb]
  · simp only [Good, h.b, h.r1, h.r2, ZMod.val_natCast, beq_iff_eq]

/-! ### Sequences of calls -/

lemma step_rel [NeZero COM.q] (hnd : Ps.Nodup) (hv : verifier ∈ Ps) {op : Op} (hop : op.Ok COM Ps)
    {st st' : List (ℕ → Xmaterial)} {pl : List Plain} (hst : List.Forall₂ (Rel COM Ps verifier) st pl)
    (hstep : step COM Ps verifier st op = some st') :
    ∃ pl', plainStep pl op = some pl' ∧ List.Forall₂ (Rel COM Ps verifier) st' pl' := by
  have hget : ∀ {i : ℕ} {x}, st[i]? = some x → ∃ s, pl[i]? = some s ∧ Rel COM Ps verifier x s := by
    intro i x hx
    obtain ⟨hi, rfl⟩ := List.getElem?_eq_some_iff.mp hx
    have hlt : i < pl.length := hst.length_eq ▸ hi
    exact ⟨pl[i],List.getElem?_eq_getElem hlt,hst.get hi hlt⟩
  have hpush : ∀ {z s}, Rel COM Ps verifier z s →
      List.Forall₂ (Rel COM Ps verifier) (st++[z]) (pl++[s]) := fun hz =>
    List.rel_append hst (.cons hz .nil)
  cases op with
  | share d =>
    cases hstep
    exact ⟨_,rfl,hpush (share_rel hnd hv hop)⟩
  | add i j =>
    simp only [step, Option.bind_eq_bind, Option.bind_eq_some_iff, Option.pure_def,
      Option.some.injEq] at hstep
    obtain ⟨x, hx, y, hy, rfl⟩ := hstep
    obtain ⟨s, hs, hxs⟩ := hget hx
    obtain ⟨t, ht, hyt⟩ := hget hy
    exact ⟨_,by simp only [plainStep, hs, ht]; rfl,hpush (add_rel hxs hyt)⟩
  | flap i f =>
    simp only [step, Option.bind_eq_bind, Option.bind_eq_some_iff, Option.pure_def,
      Option.some.injEq] at hstep
    obtain ⟨x, hx, rfl⟩ := hstep
    obtain ⟨s, hs, hxs⟩ := hget hx
    exact ⟨_,by simp only [plainStep, hs]; rfl,hpush (flapBy_rel hnd hop hxs)⟩

lemma run_rel [NeZero COM.q] (hnd : Ps.Nodup) (hv : verifier ∈ Ps) {ops : List Op}
    (hops : ∀ op ∈ ops, op.Ok COM Ps) {st st' : List (ℕ → Xmaterial)} {pl : List Plain}
    (hst : List.Forall₂ (Rel COM Ps verifier) st pl)
    (hrun : ops.foldlM (step COM Ps verifier) st = some st') :
    ∃ pl', ops.foldlM plainStep pl = some pl' ∧ List.Forall₂ (Rel COM Ps verifier) st' pl' := by
  induction ops generalizing st pl with
  | nil =>
    cases hrun
    exact ⟨pl,rfl,hst⟩
  | cons op ops ih =>
    rw [List.foldlM_cons, Option.bind_eq_bind, Option.bind_eq_some_iff] at hrun
    obtain ⟨st1, hstep, hrun⟩ := hrun
    obtain ⟨pl1, hpl1, hst1⟩ := step_rel hnd hv (hops op List.mem_cons_self) hst hstep
    obtain ⟨pl', hpl', hst'⟩ := ih (fun o ho => hops o (List.mem_cons_of_mem _ ho)) hst1 hrun
    exact ⟨pl',by rw [List.foldlM_cons, hpl1]; exact hpl',hst'⟩

/-- After any sequence of calls a sharing is good, and passes the checks of `reveal`, if and only
if the integer sum of its randomness has wrapped around `q` an even number of times. -/
theorem run_good_iff (hq : COM.q = nextprime (2^32)) (hok : COM.Ok) (hnd : Ps.Nodup)
    (hv : verifier ∈ Ps) {ops : List Op} (hops : ∀ op ∈ ops, op.Ok COM Ps)
    {st : List (ℕ → Xmaterial)} (hrun : run COM Ps verifier ops = some st) :
    ∃ pl, plainRun ops = some pl ∧ List.Forall₂ (fun z s =>
      (Good COM Ps verifier z ↔ Even (s.r1/COM.q)) ∧
      (reveal COM Ps verifier (fun p => [z p]) = [⟨byte s.b,true,true⟩] ↔ Even (s.r1/COM.q)))
        st pl := by
  rw [nextprime_field] at hq
  have : NeZero COM.q := ⟨hok.q.ne'⟩
  obtain ⟨pl, hpl, hrel⟩ := run_rel hnd hv hops .nil hrun
  refine ⟨pl,hpl,hrel.imp fun z s h => ?_⟩
  have hgood := h.good_iff hok (by rw [hq])
  obtain ⟨parity, decomits, heq, hchecks⟩ := h.reveal_eq (by rw [hq]; norm_num) hnd hv
  refine ⟨hgood,?_⟩
  rw [heq, ← hgood, hchecks]
  simp

/-- Bases one, as `init_` returns them when it draws zero bytes. -/
def oneCom : Commitment := ⟨8589934623,4294967311,1,1⟩

lemma oneCom_ok : oneCom.Ok := by
  constructor <;> norm_num [oneCom, Nat.ModEq]

/-- The bit zero with randomness `r`. -/
def zeroDeal (r : ℕ) : Deal := ⟨0,(r,5),fun _ => 7,fun _ _ => 0,fun _ _ => 0⟩

theorem run_good_three :
    ∃ st, run oneCom [0,1] 0 [.share (zeroDeal 2),.flap 0 0,.add 0 1] = some st ∧
      ∀ z ∈ st, Good oneCom [0,1] 0 z := by
  refine ⟨_,rfl,?_⟩
  obtain ⟨pl, hpl, h⟩ := run_good_iff nextprime_field.symm oneCom_ok
    (show [0,1].Nodup by decide) (show 0 ∈ [0,1] by decide) (by simp [Op.Ok, zeroDeal, oneCom])
    (show run oneCom [0,1] 0 [.share (zeroDeal 2),.flap 0 0,.add 0 1] = some _ from rfl)
  obtain rfl : [⟨false,2,5⟩,⟨true,3,5⟩,⟨true,5,10⟩] = pl := Option.some.inj hpl
  obtain _ | ⟨h0, _ | ⟨h1, _ | ⟨h2, -⟩⟩⟩ := h
  simp only [List.cons_append, List.nil_append, List.mem_cons, List.not_mem_nil, or_false,
    forall_eq_or_imp, forall_eq]
  exact ⟨h0.1.mpr (by decide),h1.1.mpr (by decide),h2.1.mpr (by decide)⟩

/-- Twice the bit zero with randomness `q-1`: the sum of the randomness is odd. -/
theorem run_wrap_bad :
    ∃ x y, run oneCom [0,1] 0 [.share (zeroDeal 4294967310),.add 0 0] = some [x,y] ∧
      (zeroDeal 4294967310).r.1%2 = 0 ∧ Good oneCom [0,1] 0 x ∧ ¬Good oneCom [0,1] 0 y := by
  have : NeZero oneCom.q := ⟨oneCom_ok.q.ne'⟩
  refine ⟨_,_,rfl,rfl,?_⟩
  obtain ⟨pl, hpl, h⟩ := run_rel (show [0,1].Nodup by decide) (show 0 ∈ [0,1] by decide)
    (by simp [Op.Ok, zeroDeal, oneCom]) .nil
    (show run oneCom [0,1] 0 [.share (zeroDeal 4294967310),.add 0 0] = some _ from rfl)
  obtain rfl : [⟨false,4294967310,5⟩,⟨false,8589934620,10⟩] = pl := Option.some.inj hpl
  obtain _ | ⟨h0, _ | ⟨h1, -⟩⟩ := h
  rw [h0.good_iff oneCom_ok (by decide), h1.good_iff oneCom_ok (by decide)]
  exact ⟨by decide,by decide⟩

end rel

end OramPro.SPDZXOR
