import OramPro.Processes

/-!
# Protocols in rounds

In a round every party sends one message to all others and then receives one from each; in an announcement one
party sends and the others receive. A protocol that is put together from rounds and announcements has a plan
whenever the rest has one for the messages of the first round, so its result under every schedule is that of the
parties in lockstep.
-/
namespace Process

universe u v

variable {P : Type v} {M A B : Type u}

namespace Prog

lemma bind_ret (x : Prog P M A) : x.bind ret = x := by
  induction x with
  | ret a => rfl
  | send q m next ih => rw [bind, ih]
  | recv q next ih => simp only [bind, ih]

lemma bind_bind {C : Type u} (x : Prog P M A) (f : A → Prog P M B) (g : B → Prog P M C) :
    (x.bind f).bind g = x.bind fun a => (f a).bind g := by
  induction x with
  | ret a => rfl
  | send q m next ih => simp only [bind, ih]
  | recv q next ih => simp only [bind, ih]

instance lawful : LawfulMonad (Prog P M) :=
  LawfulMonad.mk' (Prog P M) (fun x => bind_ret x) (fun _ _ => rfl) fun x f g => bind_bind x f g

def tellAll (m : M) : List P → Prog P M PUnit
  | [] => ret ⟨⟩
  | q :: l => send q m (tellAll m l)

def askAll : List P → Prog P M (List M)
  | [] => ret []
  | q :: l => recv q fun m => (askAll l).bind fun ms => ret (m :: ms)

/-- One round: a message for all of the list, then one from each. -/
def exchange (l : List P) (m : M) : Prog P M (List M) := do
  let _ ← tellAll m l
  askAll l

end Prog

open Prog

/-! ## Traces of a round -/

lemma Trace.tellAll (m : M) (phase : ℕ) (l : List P) :
    Trace (Prog.tellAll m l) (l.map fun q => ⟨true,q,m,phase⟩) PUnit.unit := by
  induction l with
  | nil => exact .ret _
  | cons q l ih => exact .send phase ih

lemma Trace.askAll (m : P → M) (phase : ℕ) (l : List P) :
    Trace (Prog.askAll l) (l.map fun q => ⟨false,q,m q,phase⟩) (l.map m) := by
  induction l with
  | nil => exact .ret _
  | cons q l ih =>
    refine .recv phase ?_
    have h := ih.bind (f := fun ms => .ret (m q :: ms)) (.ret _)
    rwa [List.append_nil] at h

/-- The same events in later phases. -/
def Event.later (k : ℕ) (e : Event P M) : Event P M := { e with phase := e.phase+k }

lemma Trace.later {x : Prog P M A} {es : List (Event P M)} {a : A} (h : Trace x es a) (k : ℕ) :
    Trace x (es.map (Event.later k)) a := by
  induction h with
  | ret a => exact .ret a
  | send phase _ ih => exact .send (phase+k) ih
  | recv phase _ ih => exact .recv (phase+k) ih

section flows
variable [DecidableEq P] {sent s : Bool} {q : P}

lemma flow_later (k : ℕ) (es : List (Event P M)) :
    flow sent q (es.map (Event.later k)) = (flow sent q es).map fun x => (x.1+k,x.2) := by
  induction es with
  | nil => rfl
  | cons e es ih =>
    rw [List.map_cons, flow_cons, flow_cons, List.map_append, ih]
    by_cases h : e.sent = sent ∧ e.peer = q <;> simp [Event.later, h]

lemma flow_map {l : List P} (hnd : l.Nodup) (m : P → M) (phase : ℕ) :
    flow sent q (l.map fun r => ⟨s,r,m r,phase⟩) = if s = sent ∧ q ∈ l then [(phase,m q)] else [] := by
  induction l with
  | nil => simp
  | cons r l ih =>
    obtain ⟨hr, hl⟩ := List.nodup_cons.mp hnd
    rw [List.map_cons, flow_cons, ih hl]
    by_cases hs : s = sent
    · by_cases hq : r = q
      · subst hq
        simp [hs, hr]
      · simp [hs, hq, Ne.symm hq]
    · simp [hs]

lemma delivered_later {k : ℕ} {xs ys : List (ℕ × M)} (h : List.Forall₂ Delivered xs ys) :
    List.Forall₂ Delivered (xs.map fun x => (x.1+k,x.2)) (ys.map fun y => (y.1+k,y.2)) := by
  induction h with
  | nil => exact .nil
  | cons h _ ih => exact .cons ⟨Nat.add_lt_add_right h.1 k,h.2⟩ ih

end flows

/-! ## Plans of a round -/

/-- A list of all other parties for each party. -/
structure Peers (peers : P → List P) : Prop where
  nodup : ∀ p, (peers p).Nodup
  mem : ∀ p q, q ∈ peers p ↔ q ≠ p

/-- The parties have a plan with these results. -/
def Planned [DecidableEq P] (prog : P → Prog P M A) (result : P → A) : Prop :=
  ∃ plan : Plan prog, plan.result = result

section planned
variable [DecidableEq P] {result : P → A}

lemma Planned.ret (result : P → A) : Planned (fun p => (.ret (result p) : Prog P M A)) result :=
  ⟨⟨fun _ => [],result,fun _ => .ret _,fun _ => .nil,fun _ _ => .nil⟩,rfl⟩

/-- A first part in the phases 0 and 1 before a plan. -/
lemma Planned.after {prog prog' : P → Prog P M A} (h : Planned prog result) (first : P → List (Event P M))
    (htrace : ∀ p es, Trace (prog p) es (result p) → Trace (prog' p) (first p++es) (result p))
    (hord : ∀ p, (first p).Pairwise fun e f => e.phase ≤ f.phase) (hphase : ∀ p, ∀ e ∈ first p, e.phase ≤ 1)
    (hagree : ∀ p q, List.Forall₂ Delivered (flow true q (first p)) (flow false p (first q))) :
    Planned prog' result := by
  obtain ⟨plan, rfl⟩ := h
  refine ⟨⟨fun p => first p++(plan.events p).map (Event.later 2),plan.result,fun p => ?_,fun p => ?_,
    fun p q => ?_⟩,rfl⟩
  · exact htrace p _ ((plan.trace p).later 2)
  · refine List.pairwise_append.mpr ⟨hord p,?_,fun e he f hf => ?_⟩
    · exact List.pairwise_map.mpr ((plan.ordered p).imp fun h => Nat.add_le_add_right h 2)
    · obtain ⟨f, -, rfl⟩ := List.mem_map.mp hf
      have hle := hphase p e he
      simp only [Event.later]
      omega
  · rw [flow_append, flow_append, flow_later, flow_later]
    exact List.rel_append (hagree p q) (delivered_later (plan.agree p q))

variable {peers : P → List P} (hpeers : Peers peers)
include hpeers

/-- In a round every party receives the messages of its peers. -/
lemma Planned.exchange {m : P → M} {next : P → List M → Prog P M A}
    (h : Planned (fun p => next p ((peers p).map m)) result) :
    Planned (fun p => Prog.exchange (peers p) (m p) >>= next p) result := by
  refine h.after (fun p => (peers p).map (fun q => ⟨true,q,m p,0⟩)++(peers p).map fun q => ⟨false,q,m q,1⟩)
    (fun p es hes => ?_) (fun p => ?_) (fun p e he => ?_) fun p q => ?_
  · exact ((Trace.tellAll (m p) 0 (peers p)).bind (Trace.askAll m 1 (peers p))).bind hes
  · refine List.pairwise_append.mpr ⟨pairwise_phase (n := 0) ?_,pairwise_phase (n := 1) ?_,?_⟩ <;> simp
  · rcases List.mem_append.mp he with he | he <;> obtain ⟨q, -, rfl⟩ := List.mem_map.mp he <;> simp
  · have hmem : q ∈ peers p ↔ p ∈ peers q := by
      rw [hpeers.mem, hpeers.mem]
      exact ne_comm
    have hround : Delivered (0,m p) (1,m p) := ⟨Nat.zero_lt_one,rfl⟩
    rw [flow_append, flow_append, flow_map (hpeers.nodup p) fun _ => m p, flow_map (hpeers.nodup p) m,
      flow_map (hpeers.nodup q) fun _ => m q, flow_map (hpeers.nodup q) m]
    simpa using Delivered.forall₂_ite hmem fun _ => hround

/-- What one party announces all others receive. -/
lemma Planned.announce {o : P} {m : M} {own : Prog P M A} {other : P → M → Prog P M A}
    (h : Planned (fun p => if p = o then own else other p m) result) :
    Planned (fun p => if p = o then Prog.tellAll m (peers o) >>= fun _ => own else Prog.ask o >>= other p)
      result := by
  refine h.after (fun p => if p = o then (peers o).map fun q => ⟨true,q,m,0⟩ else [⟨false,o,m,1⟩])
    (fun p es hes => ?_) (fun p => ?_) (fun p e he => ?_) fun p q => ?_
  · by_cases hp : p = o
    · rw [if_pos hp, if_pos hp]
      rw [if_pos hp] at hes
      exact (Trace.tellAll m 0 (peers o)).bind hes
    · rw [if_neg hp, if_neg hp]
      rw [if_neg hp] at hes
      exact (Trace.ask o m 1).bind hes
  · by_cases hp : p = o
    · rw [if_pos hp]
      exact pairwise_phase (n := 0) (by simp)
    · rw [if_neg hp]
      exact List.pairwise_singleton _ _
  · split at he
    · obtain ⟨q, -, rfl⟩ := List.mem_map.mp he
      exact Nat.zero_le 1
    · rw [List.mem_singleton.mp he]
  · by_cases hp : p = o
    · by_cases hq : q = o
      · subst hp hq
        rw [if_pos rfl, flow_map (hpeers.nodup _) fun _ => m, flow_map (hpeers.nodup _) fun _ => m]
        simp [hpeers.mem]
      · subst hp
        rw [if_pos rfl, if_neg hq, flow_map (hpeers.nodup _) fun _ => m]
        simp [hpeers.mem, hq, Delivered]
    · by_cases hq : q = o
      · subst hq
        rw [if_neg hp, if_pos rfl, flow_map (hpeers.nodup _) fun _ => m]
        simp
      · rw [if_neg hp, if_neg hq]
        simp [Ne.symm hp]

end planned

/-! ## Every schedule -/

/-- No schedule goes wrong: every run is bounded and can be continued to the end, a run that stands still is at
its end, and a party that has ended has its result. -/
structure Agrees [DecidableEq P] (prog : P → Prog P M A) (result : P → A) : Prop where
  bounded : ∃ n, ∀ sched c, (start prog).run sched = some c → sched.length ≤ n
  ended : ∀ sched c, (start prog).run sched = some c → ∀ p a, c.prog p = .ret a → a = result p
  still : ∀ sched c, (start prog).run sched = some c → (∀ p, c.step p = none) → c.Done result
  completes : ∀ sched c, (start prog).run sched = some c → ∃ sched' d, c.run sched' = some d ∧ d.Done result

lemma Planned.agrees [DecidableEq P] [Fintype P] {prog : P → Prog P M A} {result : P → A}
    (h : Planned prog result) : Agrees prog result := by
  obtain ⟨plan, rfl⟩ := h
  exact ⟨⟨_,fun _ _ hrun => plan.length_le hrun⟩,fun _ _ hrun _ _ hp => plan.result_eq hrun hp,
    fun _ _ hrun => plan.done_of_still hrun,fun _ _ hrun => plan.completes hrun⟩

end Process
