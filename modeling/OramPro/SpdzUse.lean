import OramPro.SpdzXor

/-!
# What the triples mask

`prepare` appends to the vector of triples, and `mult` masks place `i` of its operands with
element `i` of the vector. No call removes an element.
-/
namespace OramPro.Triples

/-- A place of a `mult` call: the element of the vector that masks it and what is transmitted. -/
structure Use (μ : Type*) where
  call : ℕ
  place : ℕ
  element : ℕ
  sent : μ

/-- An object at one party, with a record of the uses so far. -/
structure Object (τ μ : Type*) where
  triples : List τ
  calls : ℕ
  uses : List (Use μ)

inductive Call (ω τ : Type*)
  | prepare (dealt : List τ)
  | mult (args : ω)

section object
variable {ω τ μ : Type*} [Inhabited τ] (sizes : ω → ℕ × ℕ) (mask : ω → ℕ → τ → μ)

/-- The loop of `mult` that masks the operands. -/
def multUses (o : Object τ μ) (args : ω) : List (Use μ) :=
  (List.range (sizes args).1).map fun i => ⟨o.calls,i,i,mask args i (o.triples.getD i default)⟩

/-- One call; `none` is a failed assertion of `mult`. -/
def step (o : Object τ μ) : Call ω τ → Option (Object τ μ)
  | .prepare dealt => some ⟨o.triples++dealt,o.calls,o.uses⟩
  | .mult args =>
    if (sizes args).1 = (sizes args).2 ∧ (sizes args).1 ≤ o.triples.length then
      some ⟨o.triples,o.calls+1,o.uses++multUses sizes mask o args⟩
    else none

def run (calls : List (Call ω τ)) : Option (Object τ μ) := calls.foldlM (step sizes mask) ⟨[],0,[]⟩

/-- No element of the vector masks two places. -/
def SingleUse (uses : List (Use μ)) : Prop := uses.Pairwise fun u v => u.element ≠ v.element

instance (uses : List (Use μ)) : Decidable (SingleUse uses) :=
  inferInstanceAs (Decidable (uses.Pairwise _))

/-- A `mult` of vectors that are not empty. -/
def Call.masks : Call ω τ → Bool
  | .prepare _ => false
  | .mult args => 0 < (sizes args).1

/-- What holds after `n` calls that mask something. -/
structure Used (n : ℕ) (o : Object τ μ) : Prop where
  none : n = 0 → o.uses = []
  first : 0 < n → ∃ u ∈ o.uses, u.element = 0
  single : n ≤ 1 → SingleUse o.uses
  reused : 1 < n → ¬SingleUse o.uses

variable {sizes mask}

lemma multUses_single (o : Object τ μ) (args : ω) : SingleUse (multUses sizes mask o args) := by
  rw [SingleUse, multUses, List.pairwise_map]
  exact List.nodup_range

lemma step_used {n : ℕ} {o o' : Object τ μ} {c : Call ω τ} (h : Used n o)
    (hstep : step sizes mask o c = some o') :
    Used (n+if c.masks sizes then 1 else 0) o' := by
  cases c with
  | prepare dealt =>
    cases hstep
    exact ⟨h.none,h.first,h.single,h.reused⟩
  | mult args =>
    simp only [step, Option.ite_none_right_eq_some, Option.some.injEq] at hstep
    obtain ⟨-, rfl⟩ := hstep
    by_cases hpos : 0 < (sizes args).1
    · have hzero : ∃ u ∈ multUses sizes mask o args, u.element = 0 :=
        ⟨_,List.mem_map.mpr ⟨0,List.mem_range.mpr hpos,rfl⟩,rfl⟩
      simp only [Call.masks, hpos, decide_true, if_true]
      refine ⟨fun h0 => by omega,fun _ => ?_,fun h1 => ?_,fun h1 => ?_⟩
      · obtain ⟨u, hu, he⟩ := hzero
        exact ⟨u,List.mem_append_right _ hu,he⟩
      · have hnil := h.none (by omega)
        rw [hnil, List.nil_append]
        exact multUses_single o args
      · intro hsingle
        obtain ⟨u, hu, he⟩ := h.first (by omega)
        obtain ⟨v, hv, he'⟩ := hzero
        exact (List.pairwise_append.mp hsingle).2.2 u hu v hv (he.trans he'.symm)
    · have hnil : multUses sizes mask o args = [] := by
        rw [multUses, Nat.eq_zero_of_not_pos hpos, List.range_zero, List.map_nil]
      simp only [Call.masks, hpos, decide_false, Bool.false_eq_true, if_false, hnil, List.append_nil,
        Nat.add_zero]
      exact ⟨h.none,h.first,h.single,h.reused⟩

lemma foldlM_used {calls : List (Call ω τ)} {n : ℕ} {o o' : Object τ μ} (h : Used n o)
    (hrun : calls.foldlM (step sizes mask) o = some o') :
    Used (n+calls.countP (Call.masks sizes)) o' := by
  induction calls generalizing n o with
  | nil =>
    cases hrun
    exact h
  | cons c calls ih =>
    rw [List.foldlM_cons, Option.bind_eq_bind, Option.bind_eq_some_iff] at hrun
    obtain ⟨o1, hstep, hrun⟩ := hrun
    have := ih (step_used h hstep) hrun
    rwa [List.countP_cons, Nat.add_comm (calls.countP _), ← Nat.add_assoc]

/-- The triples of a run are used once if and only if at most one call masks something. -/
lemma run_single_use_iff {calls : List (Call ω τ)} {o : Object τ μ}
    (hrun : run sizes mask calls = some o) :
    SingleUse o.uses ↔ calls.countP (Call.masks sizes) ≤ 1 := by
  have h := foldlM_used (n := 0) (o := ⟨[],0,[]⟩)
    ⟨fun _ => rfl,fun h => absurd h (lt_irrefl 0),fun _ => .nil,fun h => by omega⟩ hrun
  rw [Nat.zero_add] at h
  exact ⟨fun hs => not_lt.mp fun hlt => h.reused hlt hs,h.single⟩

end object

/-! ## `SPDZ` -/

section spdz
open SPDZ

/-- What `SPDZ::mult` transmits for place `i`: the masked values and their randomness. -/
def spdzMask (COM : Commitment) (args : List Amaterial × List Amaterial) (i : ℕ) (t : Multtriple) :
    (ℕ × ℕ) × ℕ × ℕ :=
  let a := args.1.getD i default
  let b := args.2.getD i default
  ((modSub a.m t.a.m COM.q,modSub b.m t.b.m COM.q),modSub a.r t.a.r COM.q,modSub b.r t.b.r COM.q)

def spdzSizes (args : List Amaterial × List Amaterial) : ℕ × ℕ := (args.1.length,args.2.length)

/-- The uses recorded are what `mult` broadcasts. -/
lemma spdzMask_eq (COM : Commitment) (a b : List Amaterial) (triples : List Multtriple) {i : ℕ}
    (hi : i < a.length) :
    let x : SPDZ.Party := ⟨a,b,triples⟩
    spdzMask COM (a,b) i (triples.getD i default) =
      ((SPDZ.alphas_beta COM x i,SPDZ.alphas_beta COM x (i+a.length)),
        SPDZ.alphas_beta_r COM x i,SPDZ.alphas_beta_r COM x (i+a.length)) := by
  simp [spdzMask, SPDZ.alphas_beta, SPDZ.alphas_beta_r, SPDZ.pair, hi]

end spdz

/-! ## `SPDZXOR` -/

section spdzxor
open SPDZXOR

/-- The operands of the two overloads. -/
inductive XArgs
  | bytes (a b : List Byte)
  | materials (a b : List Xmaterial)

def XArgs.operands : XArgs → List Byte × List Byte
  | .bytes a b => (a,b)
  | .materials a b => (a.map Xmaterial.b,b.map Xmaterial.b)

def xorSizes (args : XArgs) : ℕ × ℕ := (args.operands.1.length,args.operands.2.length)

def xorMask (args : XArgs) (i : ℕ) (t : Xortriple) : Byte × Byte :=
  (args.operands.1.getD i 0^^^t.a.b,args.operands.2.getD i 0^^^t.b.b)

lemma xorMask_eq (args : XArgs) (triples : List Xortriple) {i : ℕ}
    (hi : i < args.operands.1.length) :
    let x : SPDZXOR.Party := ⟨args.operands.1,args.operands.2,triples⟩
    xorMask args i (triples.getD i default) =
      (SPDZXOR.alphas_beta x i,SPDZXOR.alphas_beta x (i+args.operands.1.length)) := by
  simp [xorMask, SPDZXOR.alphas_beta, hi]

end spdzxor

/-- In a run on one object the triples are single-use exactly when at most one `mult` call has
operands that are not empty. -/
theorem single_use_iff (COM : SPDZ.Commitment) :
    (∀ calls o, run spdzSizes (spdzMask COM) calls = some o →
      (SingleUse o.uses ↔ calls.countP (Call.masks spdzSizes) ≤ 1)) ∧
    (∀ calls o, run xorSizes xorMask calls = some o →
      (SingleUse o.uses ↔ calls.countP (Call.masks xorSizes) ≤ 1)) :=
  ⟨fun _ _ h => run_single_use_iff h,fun _ _ h => run_single_use_iff h⟩

theorem single_use_once :
    ∃ o, run spdzSizes (spdzMask SPDZ.smallCom)
      [.prepare [default],.mult ([⟨3,0,0⟩],[⟨4,0,0⟩])] = some o ∧
      SingleUse o.uses :=
  ⟨_,rfl,((single_use_iff SPDZ.smallCom).1
    [.prepare [default],.mult ([⟨3,0,0⟩],[⟨4,0,0⟩])] _ rfl).mpr (by decide)⟩

/-- Two triples and two products of one factor each: the first triple masks both. -/
theorem triple_reused :
    (∃ o, run spdzSizes (spdzMask SPDZ.smallCom)
      [.prepare [default,default],.mult ([⟨3,0,0⟩],[⟨4,0,0⟩]),.mult ([⟨5,0,0⟩],[⟨6,0,0⟩])] = some o ∧
      ¬SingleUse o.uses) ∧
    ∃ o, run xorSizes xorMask
      [.prepare [default,default],.mult (.bytes [0] [1]),.mult (.bytes [1] [1])] = some o ∧
      ¬SingleUse o.uses := by
  refine ⟨⟨_,rfl,?_⟩,⟨_,rfl,?_⟩⟩
  · intro h
    exact (List.pairwise_cons.mp h).1 _ List.mem_cons_self rfl
  · decide

end OramPro.Triples
