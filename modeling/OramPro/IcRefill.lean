import OramPro.Csot

/-!
# Refilling the interval gates

The evaluators of a `Thr_pc_ic_id` append the keys of every offline phase to `mks`, but
`twopc_ic` reads `mks` from its beginning and frees what it has read.
-/
namespace OramPro.IcRefill
open ThrPcIc Csot

/-- An entry of `mks`. -/
structure Slot where
  key : IcKey
  freed : Bool

def fresh (k : IcKey) : Slot := ⟨k,false⟩

/-- `free_key`. -/
def Slot.free (s : Slot) : Slot := { s with freed := true }

/-- The loop of `twopc_ic` from position `i` on, for the result `res` of one key and input. There is
no result once it reads behind the end of `mks` or evaluates a freed key. -/
def evaluate (res : IcKey → Word → Word) (i : ℕ) (mks : List Slot) :
    List Word → Option (List Word × List Slot)
  | [] => some ([],mks)
  | R :: Rs =>
    match mks[i]? with
    | none => none
    | some s =>
      if s.freed then none
      else match evaluate res (i+1) (mks.set i s.free) Rs with
        | none => none
        | some (out, mks') => some (res s.key R :: out,mks')

/-- The lists `mks` of the owner's successor and predecessor. -/
structure Gate where
  suc : List Slot
  pre : List Slot

def Gate.empty : Gate := ⟨[],[]⟩

/-- One round: what the owner sends in `twopc_ic_off`, and the masked inputs of `twopc_ic`. -/
structure Call where
  p : Word
  q : Word
  mod : Word
  keys : List (IcKey × IcKey)
  R : List Word
  len : keys.length = R.length

section run
variable (f : Fss)

def Call.run (c : Call) (g : Gate) : Option ((List Word × List Word) × Gate) :=
  match evaluate (twopc_ic f c.p c.q c.mod false) 0 (g.suc++c.keys.map fun k => fresh k.1) c.R,
    evaluate (twopc_ic f c.p c.q c.mod true) 0 (g.pre++c.keys.map fun k => fresh k.2) c.R with
  | some (out0, suc), some (out1, pre) => some ((out0,out1),⟨suc,pre⟩)
  | _, _ => none

/-- The rounds one after the other, with the outputs of both evaluators in each. -/
def runAll : List Call → Gate → Option (List (List Word × List Word))
  | [], _ => some []
  | c :: cs, g =>
    match c.run f g with
    | none => none
    | some (out, g') => (runAll cs g').map (out :: ·)

/-- The outputs with the keys of the same round. -/
def Call.expected (c : Call) : List Word × List Word :=
  (List.zipWith (fun k R => twopc_ic f c.p c.q c.mod false k.1 R) c.keys c.R,
    List.zipWith (fun k R => twopc_ic f c.p c.q c.mod true k.2 R) c.keys c.R)

end run

/-! ## One round -/

section evaluate
variable (res : IcKey → Word → Word)

/-- Keys behind the read position are evaluated in order. -/
lemma evaluate_fresh (done : List Slot) (keys : List IcKey) (R : List Word)
    (hlen : keys.length = R.length) :
    evaluate res done.length (done++keys.map fresh) R =
      some (List.zipWith res keys R,done++keys.map fun k => (fresh k).free) := by
  induction keys generalizing done R with
  | nil =>
    obtain rfl := List.eq_nil_of_length_eq_zero hlen.symm
    rfl
  | cons k keys ih =>
    obtain _ | ⟨r, R⟩ := R
    · simp at hlen
    · have hget : (done++(k :: keys).map fresh)[done.length]? = some (fresh k) := by simp
      have hset : (done++(k :: keys).map fresh).set done.length (fresh k).free =
          (done++[(fresh k).free])++keys.map fresh := by simp
      have hnext := ih (done++[(fresh k).free]) R (by simpa using hlen)
      rw [List.length_append, List.length_singleton] at hnext
      rw [evaluate, hget]
      simp only [hset, hnext]
      simp [fresh]

lemma evaluate_freed (s : Slot) (mks : List Slot) (r : Word) (R : List Word) :
    evaluate res 0 (s.free :: mks) (r :: R) = none := rfl

end evaluate

/-- Both lists of the gate start with a freed key. -/
def Gate.Used (g : Gate) : Prop :=
  ∃ a as b bs, g.suc = Slot.free a :: as ∧ g.pre = Slot.free b :: bs

section rounds
variable (f : Fss) (c : Call)

lemma run_idle (g : Gate) (h : c.R = []) : c.run f g = some (c.expected f,g) := by
  have hkeys : c.keys = [] := List.eq_nil_of_length_eq_zero (by rw [c.len, h, List.length_nil])
  rw [Call.run, Call.expected, h, hkeys]
  simp [evaluate]

/-- The first keys of a gate are the ones that its inputs were masked for. -/
lemma run_empty : ∃ g, c.run f .empty = some (c.expected f,g) ∧ (c.R ≠ [] → g.Used) := by
  have h0 := evaluate_fresh (twopc_ic f c.p c.q c.mod false) [] (c.keys.map Prod.fst) c.R
    (by rw [List.length_map, c.len])
  have h1 := evaluate_fresh (twopc_ic f c.p c.q c.mod true) [] (c.keys.map Prod.snd) c.R
    (by rw [List.length_map, c.len])
  rw [List.length_nil, List.nil_append, List.nil_append, List.map_map, List.map_map] at h0 h1
  refine ⟨⟨c.keys.map fun k => (fresh k.1).free,c.keys.map fun k => (fresh k.2).free⟩,?_,?_⟩
  · rw [Call.run, Gate.empty, List.nil_append, List.nil_append]
    simp only [Function.comp_def] at h0 h1
    rw [h0, h1, List.zipWith_map_left, List.zipWith_map_left]
    rfl
  · intro hR
    have hlen := c.len
    obtain hk | ⟨k, ks, hk⟩ : c.keys = [] ∨ ∃ k ks, c.keys = k :: ks := by
      cases c.keys <;> simp
    · rw [hk, List.length_nil] at hlen
      exact absurd (List.eq_nil_of_length_eq_zero hlen.symm) hR
    · exact ⟨fresh k.1,_,fresh k.2,_,by rw [hk]; rfl,by rw [hk]; rfl⟩

/-- From then on every input meets a freed key. -/
lemma run_used (g : Gate) (hg : g.Used) (hR : c.R ≠ []) : c.run f g = none := by
  obtain ⟨a, as, b, bs, hsuc, hpre⟩ := hg
  obtain ⟨r, R, hc⟩ := List.exists_cons_of_ne_nil hR
  rw [Call.run, hsuc, hc, List.cons_append, evaluate_freed]

end rounds

/-! ## Runs -/

section runs
variable (f : Fss)

/-- How many rounds have an input. -/
def busy (cs : List Call) : ℕ := cs.countP fun c => !c.R.isEmpty

lemma busy_idle {c : Call} (cs : List Call) (h : c.R = []) : busy (c :: cs) = busy cs :=
  List.countP_cons_of_neg (by simp [h])

lemma busy_cons {c : Call} (cs : List Call) (h : c.R ≠ []) : busy (c :: cs) = busy cs+1 :=
  List.countP_cons_of_pos (by simp [h])

lemma runAll_idle {c : Call} (cs : List Call) (g : Gate) (h : c.R = []) :
    runAll f (c :: cs) g = (runAll f cs g).map (c.expected f :: ·) := by
  rw [runAll, run_idle f c g h]

lemma runAll_used (cs : List Call) (g : Gate) (hg : g.Used) :
    runAll f cs g = if busy cs = 0 then some (cs.map (Call.expected f)) else none := by
  induction cs with
  | nil => rfl
  | cons c cs ih =>
    by_cases hR : c.R = []
    · rw [runAll_idle f cs g hR, ih, busy_idle cs hR]
      split <;> rfl
    · rw [runAll, run_used f c g hg hR, busy_cons cs hR, if_neg (by omega)]

/-- The keys of a gate serve one round. -/
lemma runAll_empty (cs : List Call) :
    runAll f cs .empty = if busy cs ≤ 1 then some (cs.map (Call.expected f)) else none := by
  induction cs with
  | nil => rfl
  | cons c cs ih =>
    by_cases hR : c.R = []
    · rw [runAll_idle f cs _ hR, ih, busy_idle cs hR]
      split <;> rfl
    · obtain ⟨g, hrun, hused⟩ := run_empty f c
      rw [runAll, hrun, busy_cons cs hR]
      simp only [runAll_used f cs g (hused hR)]
      by_cases hrest : busy cs = 0
      · rw [if_pos hrest, if_pos (by omega)]
        rfl
      · rw [if_neg hrest, if_neg (by omega)]
        rfl

/-- A run of rounds is right when no freed key is evaluated and the outputs of every round open. -/
def Refills {α : Type*} (call : α → Call) (opens : α → List Word × List Word → Prop) (rounds : List α) :
    Prop :=
  ∃ outs, runAll f (rounds.map call) .empty = some outs ∧ List.Forall₂ opens rounds outs

lemma refills_iff_busy {α : Type*} {call : α → Call} {opens : α → List Word × List Word → Prop}
    (h : ∀ a, opens a ((call a).expected f)) (rounds : List α) :
    Refills f call opens rounds ↔ busy (rounds.map call) ≤ 1 := by
  rw [Refills, runAll_empty]
  by_cases hbusy : busy (rounds.map call) ≤ 1
  · rw [if_pos hbusy, List.map_map]
    refine iff_of_true ⟨_,rfl,?_⟩ hbusy
    rw [List.forall₂_map_right_iff]
    exact List.forall₂_same.mpr fun a _ => h a
  · rw [if_neg hbusy]
    exact iff_of_false (fun ⟨_, hout, _⟩ => nomatch hout) hbusy

end runs

/-! ## Rounds with fresh masks -/

/-- An input with the gate that the owner generates for its mask. -/
structure Item {f : Fss} (m : Modulus f.numBits) where
  g : IcGate f m.mod
  x : Word
  r_lt : g.r_in.toNat < m.N
  x_lt : x.toNat < m.N

structure Round (f : Fss) where
  m : Modulus f.numBits
  p : Word
  q : Word
  le : p ≤ q
  lt : q.toNat < m.N
  items : List (Item m)

/-- What the owner sends and the other two evaluate. -/
def Round.call {f : Fss} (r : Round f) : Call where
  p := r.p
  q := r.q
  mod := r.m.mod
  keys := r.items.map fun i => i.g.keys r.p r.q
  R := r.items.map fun i => reduce r.m.mod (i.x+i.g.r_in)
  len := by rw [List.length_map, List.length_map]

def Round.Opens {f : Fss} (r : Round f) (out : List Word × List Word) : Prop :=
  List.zipWith (fun a b => (a+b).toNat%r.m.N) out.1 out.2 =
    r.items.map fun i => if r.p ≤ i.x ∧ i.x ≤ r.q then 1 else 0

lemma zipWith_expected {α : Type*} (f : Fss) (c : Call) (op : Word → Word → α) :
    List.zipWith op (c.expected f).1 (c.expected f).2 = List.zipWith (fun k R =>
      op (twopc_ic f c.p c.q c.mod false k.1 R) (twopc_ic f c.p c.q c.mod true k.2 R)) c.keys c.R := by
  rw [Call.expected]
  generalize c.keys = keys
  generalize c.R = Rs
  induction keys generalizing Rs with
  | nil => rfl
  | cons k keys ih =>
    obtain _ | ⟨r, Rs⟩ := Rs
    · rfl
    · exact congrArg _ (ih Rs)

lemma round_opens {f : Fss} (r : Round f) : r.Opens (r.call.expected f) := by
  rw [Round.Opens, zipWith_expected]
  simp only [Round.call, List.zipWith_map, List.zipWith_self]
  exact List.map_congr_left fun i _ => ic_open r.m i.g r.le r.lt i.r_lt i.x_lt

lemma busy_rounds {f : Fss} (rounds : List (Round f)) :
    busy (rounds.map Round.call) = rounds.countP fun r => !r.items.isEmpty := by
  rw [busy, List.countP_map]
  congr 1
  funext r
  simp [Round.call]

/-! ## The gates of a selection -/

/-- The access structures of the three gates of one object. -/
structure Object where
  f : Csot.Party → Fss
  numBits : ∀ o, (f o).numBits = 32

/-- The draws of one `offline` and the inputs of the `online` after it. -/
structure Use where
  rou : Csot.Party → Word
  draw : Csot.Party → IcDraw
  m : Csot.Party → Bool → Word
  sid : Word

section selection
variable (prf : Fin 3 → Block → Block) (c : Object)

def Use.setup (u : Use) : Setup := ⟨c.f,u.rou,u.draw⟩

/-- What `ic[o]` receives and evaluates. -/
def Use.call (o : Csot.Party) (u : Use) : Call where
  p := 0
  q := tao 32
  mod := fullWidth
  keys := [icKeys (u.setup c) o]
  R := [Csot.opened prf (u.setup c) u.m u.sid o]
  len := rfl

def Use.Opens (u : Use) (out : List Word × List Word) : Prop :=
  List.zipWith (fun a b => a+b) out.1 out.2 = [bit (difference u.m ≤ tao 32)]

lemma use_opens (o : Csot.Party) (u : Use) : u.Opens ((u.call prf c o).expected (c.f o)) := by
  have hopen : Csot.opened prf (u.setup c) u.m u.sid o = difference u.m+u.rou o :=
    Csot.opened_eq prf _ u.m u.sid o
  rw [Use.Opens, zipWith_expected]
  simp only [Use.call, hopen, List.zipWith_cons_cons, List.zipWith_nil_left]
  exact congrArg (fun b => [b]) (gate_sum (c.numBits o) (u.rou o) (difference u.m) (u.draw o))

lemma busy_uses (o : Csot.Party) (uses : List Use) : busy (uses.map (Use.call prf c o)) = uses.length := by
  rw [busy, List.countP_eq_length.mpr]
  · exact List.length_map _
  · intro d hd
    obtain ⟨u, -, rfl⟩ := List.mem_map.mp hd
    rfl

end selection

/-- Gates can be used in one round with inputs, and the three gates of a selection in one selection. -/
theorem refill_iff (f : Fss) (prf : Fin 3 → Block → Block) (c : Object) (o : Csot.Party) :
    (∀ rounds : List (Round f), Refills f Round.call Round.Opens rounds ↔
      (rounds.countP fun r => !r.items.isEmpty) ≤ 1) ∧
    ∀ uses : List Use, Refills (c.f o) (Use.call prf c o) Use.Opens uses ↔ uses.length ≤ 1 := by
  constructor
  · intro rounds
    rw [refills_iff_busy f round_opens, busy_rounds]
  · intro uses
    rw [refills_iff_busy (c.f o) (use_opens prf c o), busy_uses]

/-! ### Two rounds modulo 10 -/

def tenRound : Round tenFss := ⟨ten,2,9,by decide,by decide,[⟨tenGate,7,by decide,by decide⟩]⟩

/-- In the second round the evaluators meet the key that the first has freed. -/
theorem refill_ten : ¬Refills tenFss Round.call Round.Opens [tenRound,tenRound] := by
  rintro ⟨outs, hrun, -⟩
  have hnone : runAll tenFss ([tenRound,tenRound].map Round.call) .empty = none := by
    rw [runAll_empty]
    exact if_neg (by decide)
  rw [hnone] at hrun
  exact nomatch hrun

end OramPro.IcRefill
