import Mathlib

/-!
# Processes that exchange messages

Every party runs a sequential program, and a queue leads from each party to each other. A receive
takes the oldest message of one queue and waits while there is none. The queues are unbounded: a send
never waits, as it would on a socket whose buffer is full. A plan says what every party will send and
receive. If on each queue the two agree and a message is received in a later phase than it is sent, then no
schedule blocks on a receive and all parties end with the planned results.
-/
namespace Process

universe u v

inductive Prog (P : Type v) (M A : Type u)
  | ret (a : A)
  | send (q : P) (m : M) (next : Prog P M A)
  | recv (q : P) (next : M → Prog P M A)

namespace Prog
variable {P : Type v} {M A B : Type u}

def bind : Prog P M A → (A → Prog P M B) → Prog P M B
  | ret a, f => f a
  | send q m next, f => send q m (next.bind f)
  | recv q next, f => recv q fun m => (next m).bind f

instance monad : Monad (Prog P M) where
  pure := ret
  bind := bind

def tell (q : P) (m : M) : Prog P M PUnit := send q m (ret ⟨⟩)

def ask (q : P) : Prog P M M := recv q ret

end Prog

/-! ## Traces -/

/-- A message at one of its ends; the program does not know of the phase. -/
structure Event (P : Type v) (M : Type u) where
  sent : Bool
  peer : P
  message : M
  phase : ℕ

section traces
variable {P : Type v} {M A B : Type u}

/-- The program does what the events say, given the messages they say it receives. -/
inductive Trace : Prog P M A → List (Event P M) → A → Prop
  | ret (a : A) : Trace (.ret a) [] a
  | send {q : P} {m : M} {next : Prog P M A} {es : List (Event P M)} {a : A} (phase : ℕ) :
    Trace next es a → Trace (.send q m next) (⟨true,q,m,phase⟩ :: es) a
  | recv {q : P} {m : M} {next : M → Prog P M A} {es : List (Event P M)} {a : A} (phase : ℕ) :
    Trace (next m) es a → Trace (.recv q next) (⟨false,q,m,phase⟩ :: es) a

namespace Trace

lemma pure (a : A) : Trace (pure a : Prog P M A) [] a := .ret a

lemma bind {x : Prog P M A} {f : A → Prog P M B} {es fs : List (Event P M)} {a : A} {b : B}
    (hx : Trace x es a) (hf : Trace (f a) fs b) : Trace (x >>= f) (es++fs) b := by
  induction hx with
  | ret a => exact hf
  | send phase _ ih => exact .send phase (ih hf)
  | recv phase _ ih => exact .recv phase (ih hf)

lemma tell (q : P) (m : M) (phase : ℕ) : Trace (Prog.tell q m) [⟨true,q,m,phase⟩] PUnit.unit :=
  .send phase (.ret _)

lemma ask (q : P) (m : M) (phase : ℕ) : Trace (Prog.ask q) [⟨false,q,m,phase⟩] m :=
  .recv phase (.ret m)

/-- A loop, from what one turn does. -/
lemma foldlM {S : Type u} {K : Type*} {f : S → K → Prog P M S} {es : K → List (Event P M)}
    {g : S → K → S} {l : List K} (h : ∀ s, ∀ k ∈ l, Trace (f s k) (es k) (g s k)) (s : S) :
    Trace (l.foldlM f s) (l.flatMap es) (l.foldl g s) := by
  induction l generalizing s with
  | nil => exact .ret s
  | cons k l ih =>
    rw [List.foldlM_cons, List.flatMap_cons, List.foldl_cons]
    exact (h s k List.mem_cons_self).bind (ih (fun s j hj => h s j (List.mem_cons_of_mem _ hj)) _)

end Trace

/-! ## What passes between two parties -/

variable [DecidableEq P]

/-- The messages sent to `q`, or received from `q`, with their phases. -/
def flow (sent : Bool) (q : P) (es : List (Event P M)) : List (ℕ × M) :=
  es.filterMap fun e => if e.sent = sent ∧ e.peer = q then some (e.phase,e.message) else none

variable {sent : Bool} {q : P}

@[simp] lemma flow_nil : flow sent q ([] : List (Event P M)) = [] := rfl

@[simp] lemma flow_append (es fs : List (Event P M)) :
    flow sent q (es++fs) = flow sent q es++flow sent q fs := List.filterMap_append

lemma flow_cons (e : Event P M) (es : List (Event P M)) :
    flow sent q (e :: es) =
      (if e.sent = sent ∧ e.peer = q then [(e.phase,e.message)] else [])++flow sent q es := by
  rw [flow, List.filterMap_cons]
  split_ifs <;> rfl

@[simp] lemma flow_singleton (e : Event P M) :
    flow sent q [e] = if e.sent = sent ∧ e.peer = q then [(e.phase,e.message)] else [] := by
  rw [flow_cons, flow_nil, List.append_nil]

lemma flow_ite (c : Prop) [Decidable c] (e : Event P M) :
    flow sent q (if c then [e] else []) =
      if c ∧ e.sent = sent ∧ e.peer = q then [(e.phase,e.message)] else [] := by
  by_cases hc : c <;> simp [hc]

lemma flow_flatMap {K : Type*} (l : List K) (f : K → List (Event P M)) :
    flow sent q (l.flatMap f) = l.flatMap fun k => flow sent q (f k) := by
  induction l with
  | nil => rfl
  | cons k l ih => rw [List.flatMap_cons, List.flatMap_cons, flow_append, ih]

lemma exists_of_mem_flow {es : List (Event P M)} {x : ℕ × M} (h : x ∈ flow sent q es) :
    ∃ e ∈ es, e.phase = x.1 := by
  obtain ⟨e, he, heq⟩ := List.mem_filterMap.mp h
  rw [Option.ite_none_right_eq_some, Option.some.injEq] at heq
  exact ⟨e,he,congrArg Prod.fst heq.2⟩

end traces

/-! ## Schedules -/

structure Config (P : Type v) (M A : Type u) where
  prog : P → Prog P M A
  chan : P → P → List M

/-- A message received in a later phase than it is sent. -/
def Delivered {M : Type u} (s r : ℕ × M) : Prop := s.1 < r.1 ∧ s.2 = r.2

lemma Delivered.forall₂_ite {M : Type u} {c c' : Prop} [Decidable c] [Decidable c'] {s r : ℕ × M}
    (hc : c ↔ c') (h : c → Delivered s r) :
    List.Forall₂ Delivered (if c then [s] else []) (if c' then [r] else []) := by
  by_cases hh : c
  · rw [if_pos hh, if_pos (hc.mp hh)]
    exact .cons (h hh) .nil
  · rw [if_neg hh, if_neg (mt hc.mpr hh)]
    exact .nil

lemma pairwise_phase {P : Type v} {M : Type u} {es : List (Event P M)} {n : ℕ}
    (h : ∀ e ∈ es, e.phase = n) : es.Pairwise fun e f => e.phase ≤ f.phase :=
  List.pairwise_of_forall_mem_list fun e he f hf => ((h e he).trans (h f hf).symm).le

/-- What all parties do. -/
structure Plan {P : Type v} {M A : Type u} [DecidableEq P] (prog : P → Prog P M A) where
  events : P → List (Event P M)
  result : P → A
  trace (p : P) : Trace (prog p) (events p) (result p)
  ordered (p : P) : (events p).Pairwise fun e f => e.phase ≤ f.phase
  agree (p q : P) : List.Forall₂ Delivered (flow true q (events p)) (flow false p (events q))

section schedules
variable {P : Type v} {M A : Type u} [DecidableEq P]

def start (prog : P → Prog P M A) : Config P M A := ⟨prog,fun _ _ => []⟩

namespace Config

/-- The queue from `p` to `q` becomes `ms`. -/
def setChan (c : Config P M A) (p q : P) (ms : List M) (a b : P) : List M :=
  if a = p ∧ b = q then ms else c.chan a b

/-- A step of `p`; `none` when it has ended or waits. -/
def step (c : Config P M A) (p : P) : Option (Config P M A) :=
  match c.prog p with
  | .ret _ => none
  | .send q m next =>
    some ⟨Function.update c.prog p next,c.setChan p q (c.chan p q++[m])⟩
  | .recv q next =>
    match c.chan q p with
    | [] => none
    | m :: ms => some ⟨Function.update c.prog p (next m),c.setChan q p ms⟩

def run (c : Config P M A) (sched : List P) : Option (Config P M A) := sched.foldlM step c

/-- All parties have ended and the queues are empty. -/
def Done (c : Config P M A) (result : P → A) : Prop :=
  (∀ p, c.prog p = .ret (result p)) ∧ ∀ p q, c.chan p q = []

end Config

namespace Plan
variable {prog : P → Prog P M A} (plan : Plan prog)

/-- Where a run stands: the events of each party split into `past` and `rest`, and a queue holds what
is sent and not yet received. -/
structure At (past rest : P → List (Event P M)) (c : Config P M A) : Prop where
  split : ∀ p, plan.events p = past p++rest p
  trace : ∀ p, Trace (c.prog p) (rest p) (plan.result p)
  chan : ∀ p q,
    (flow true q (past p)).map Prod.snd = (flow false p (past q)).map Prod.snd++c.chan p q

variable {plan} {past rest : P → List (Event P M)} {c c' : Config P M A}

variable (plan) in
lemma at_start : plan.At (fun _ => []) plan.events (start prog) :=
  ⟨fun _ => rfl,plan.trace,fun _ _ => rfl⟩

lemma flow_update {sent : Bool} {p a b : P} (e : Event P M) :
    flow sent b (Function.update past p (past p++[e]) a) =
      flow sent b (past a)++if e.sent = sent ∧ e.peer = b ∧ a = p then [(e.phase,e.message)] else [] := by
  by_cases ha : a = p
  · subst ha
    simp [flow_cons]
  · simp [ha]

namespace At

/-- The oldest message of a queue is the one that the receiver expects. -/
lemma message (h : plan.At past rest c) {p q : P} {m m' : M} {ms : List M} {phase : ℕ}
    {es : List (Event P M)} (hrest : rest p = ⟨false,q,m,phase⟩ :: es) (hchan : c.chan q p = m' :: ms) :
    m' = m := by
  have hagree : (flow true p (plan.events q)).map Prod.snd = (flow false q (plan.events p)).map Prod.snd := by
    have := plan.agree q p
    rw [← List.forall₂_eq_eq_eq, List.forall₂_map_left_iff, List.forall₂_map_right_iff]
    exact this.imp fun _ _ h => h.2
  rw [h.split q, h.split p, hrest] at hagree
  simp only [flow_append, List.map_append, h.chan q p, hchan, List.append_assoc,
    List.append_cancel_left_eq, flow_cons, and_self, if_true, List.map_cons, List.map_nil,
    List.cons_append, List.cons.injEq] at hagree
  exact hagree.1

lemma split_update (h : plan.At past rest c) {p : P} {e : Event P M} {es : List (Event P M)}
    (hrest : rest p = e :: es) (a : P) :
    plan.events a = Function.update past p (past p++[e]) a++Function.update rest p es a := by
  by_cases ha : a = p
  · subst ha
    rw [Function.update_self, Function.update_self, h.split a, hrest, List.append_assoc,
      List.singleton_append]
  · rw [Function.update_of_ne ha, Function.update_of_ne ha, h.split a]

lemma trace_update (h : plan.At past rest c) {p : P} {next : Prog P M A} {es : List (Event P M)}
    (hn : Trace next es (plan.result p)) (a : P) :
    Trace (Function.update c.prog p next a) (Function.update rest p es a) (plan.result a) := by
  by_cases ha : a = p
  · subst ha
    rwa [Function.update_self, Function.update_self]
  · rw [Function.update_of_ne ha, Function.update_of_ne ha]
    exact h.trace a

/-- A step takes the next event of its party. -/
lemma step (h : plan.At past rest c) {p : P} (hs : c.step p = some c') :
    ∃ e es, rest p = e :: es ∧
      plan.At (Function.update past p (past p++[e])) (Function.update rest p es) c' := by
  have htrace := h.trace p
  cases hp : c.prog p with
  | ret a => simp [Config.step, hp] at hs
  | send q m next =>
    simp only [Config.step, hp, Option.some.injEq] at hs
    subst hs
    rw [hp] at htrace
    generalize hrest : rest p = fs at htrace
    obtain _ | ⟨phase, hn⟩ | _ := htrace
    refine ⟨_,_,rfl,h.split_update hrest,h.trace_update hn,fun a b => ?_⟩
    rw [flow_update, flow_update, List.map_append, h.chan a b]
    by_cases hab : a = p ∧ b = q
    · obtain ⟨rfl, rfl⟩ := hab
      simp [Config.setChan]
    · have hba : ¬(q = b ∧ a = p) := fun hba => hab ⟨hba.2,hba.1.symm⟩
      simp [Config.setChan, hab, hba]
  | recv q next =>
    simp only [Config.step, hp] at hs
    rw [hp] at htrace
    generalize hrest : rest p = fs at htrace
    obtain _ | _ | ⟨phase, hn⟩ := htrace
    cases hchan : c.chan q p with
    | nil => simp [hchan] at hs
    | cons m ms =>
      simp only [hchan, Option.some.injEq] at hs
      subst hs
      obtain rfl := h.message hrest hchan
      refine ⟨_,_,rfl,h.split_update hrest,h.trace_update hn,fun a b => ?_⟩
      rw [flow_update, flow_update, List.map_append, h.chan a b]
      by_cases hab : a = q ∧ b = p
      · obtain ⟨rfl, rfl⟩ := hab
        simp [Config.setChan, hchan]
      · have hba : ¬(q = a ∧ b = p) := fun hba => hab ⟨hba.1.symm,hba.2⟩
        simp [Config.setChan, hab, hba]

/-- A party that waits on an empty queue waits for an event of an earlier phase. -/
lemma earlier (h : plan.At past rest c) {p q : P} {m : M} {phase : ℕ} {es : List (Event P M)}
    (hrest : rest p = ⟨false,q,m,phase⟩ :: es) (hchan : c.chan q p = []) :
    ∃ e fs, rest q = e :: fs ∧ e.phase < phase := by
  have hagree := plan.agree q p
  rw [h.split q, h.split p, hrest, flow_append, flow_append, flow_cons] at hagree
  have hlen : (flow false q (past p)).length = (flow true p (past q)).length := by
    have := congrArg List.length (h.chan q p)
    simpa [hchan] using this.symm
  have hrecv := List.forall₂_drop_append _ _ _ hagree
  rw [hlen, List.drop_left] at hrecv
  simp only [and_self, if_true, List.singleton_append] at hrecv
  obtain ⟨s, hs, hlt⟩ : ∃ s ∈ flow true p (rest q), s.1 < phase := by
    cases hflow : flow true p (rest q) with
    | nil => simp [hflow] at hrecv
    | cons s ss =>
      rw [hflow] at hrecv
      exact ⟨s,List.mem_cons_self,(List.forall₂_cons.mp hrecv).1.1⟩
  obtain ⟨f, hf, hphase⟩ := exists_of_mem_flow hs
  have hord := plan.ordered q
  rw [h.split q] at hord
  cases hq : rest q with
  | nil => simp [hq] at hf
  | cons e fs =>
    rw [hq] at hf hord
    refine ⟨e,fs,rfl,lt_of_le_of_lt ?_ (hphase ▸ hlt)⟩
    rcases List.mem_cons.mp hf with rfl | hf
    · exact le_rfl
    · exact (List.pairwise_cons.mp (List.pairwise_append.mp hord).2.1).1 f hf

/-- While events remain, the party whose next event has the least phase can make a step. -/
lemma progress [Fintype P] (h : plan.At past rest c) {p : P} (hp : rest p ≠ []) :
    ∃ q, c.step q ≠ none := by
  obtain ⟨q, hq, hmin⟩ := Finset.exists_min_image (Finset.univ.filter fun q => rest q ≠ [])
    (fun q => ((rest q).head?.map Event.phase).getD 0) ⟨p,by simpa using hp⟩
  refine ⟨q,?_⟩
  have htrace := h.trace q
  generalize hprog : c.prog q = x at htrace
  generalize hrest : rest q = fs at htrace
  cases htrace with
  | ret a => simp [hrest] at hq
  | send phase hn => simp [Config.step, hprog]
  | @recv r m next es _ phase hn =>
    cases hchan : c.chan r q with
    | cons m ms => simp [Config.step, hprog, hchan]
    | nil =>
      obtain ⟨e, gs, hr, hlt⟩ := h.earlier hrest hchan
      have hle := hmin r (by simp [hr])
      simp [hrest, hr] at hle
      omega

/-- A run that stands still is over. -/
lemma ended [Fintype P] (h : plan.At past rest c) (hstill : ∀ p, c.step p = none) :
    c.Done plan.result := by
  have hrest (p : P) : rest p = [] := by
    by_contra hp
    obtain ⟨q, hq⟩ := h.progress hp
    exact hq (hstill q)
  have hdone (p : P) : past p = plan.events p := by
    rw [h.split p, hrest p, List.append_nil]
  refine ⟨fun p => ?_,fun p q => ?_⟩
  · have := h.trace p
    rw [hrest p] at this
    generalize c.prog p = x at this
    cases this
    rfl
  · have hlen := congrArg List.length (h.chan p q)
    rw [hdone, hdone, List.length_append, List.length_map, List.length_map,
      (plan.agree p q).length_eq] at hlen
    exact List.length_eq_zero_iff.mp (by omega)

end At

/-- The events that remain. -/
def left [Fintype P] (rest : P → List (Event P M)) : ℕ := ∑ p, (rest p).length

lemma left_update [Fintype P] {p : P} {e : Event P M} {es : List (Event P M)}
    (hrest : rest p = e :: es) : left (Function.update rest p es)+1 = left rest := by
  rw [left, left, ← Finset.add_sum_erase _ _ (Finset.mem_univ p),
    ← Finset.add_sum_erase _ _ (Finset.mem_univ p), Function.update_self, hrest, List.length_cons]
  have hsum : ∑ a ∈ Finset.univ.erase p, (Function.update rest p es a).length =
      ∑ a ∈ Finset.univ.erase p, (rest a).length :=
    Finset.sum_congr rfl fun a ha => by rw [Function.update_of_ne (Finset.ne_of_mem_erase ha)]
  omega

lemma At.run [Fintype P] (h : plan.At past rest c) {sched : List P} (hrun : c.run sched = some c') :
    ∃ past' rest', plan.At past' rest' c' ∧ sched.length+left rest' = left rest := by
  induction sched generalizing c past rest with
  | nil =>
    cases hrun
    exact ⟨past,rest,h,Nat.zero_add _⟩
  | cons p sched ih =>
    rw [Config.run, List.foldlM_cons, Option.bind_eq_bind, Option.bind_eq_some_iff] at hrun
    obtain ⟨c1, hs, hrun⟩ := hrun
    obtain ⟨e, es, hrest, h1⟩ := h.step hs
    obtain ⟨past', rest', h', hlen⟩ := ih h1 hrun
    have := left_update hrest
    exact ⟨past',rest',h',by rw [List.length_cons]; omega⟩

lemma At.completes [Fintype P] (h : plan.At past rest c) :
    ∃ sched d, c.run sched = some d ∧ d.Done plan.result := by
  induction hn : left rest generalizing past rest c with
  | zero =>
    refine ⟨[],c,rfl,h.ended fun p => ?_⟩
    cases hs : c.step p with
    | none => rfl
    | some c1 =>
      obtain ⟨e, es, hrest, -⟩ := h.step hs
      have := left_update hrest
      omega
  | succ n ih =>
    obtain ⟨p, -, hp⟩ := Finset.exists_ne_zero_of_sum_ne_zero (hn.trans_ne n.succ_ne_zero)
    obtain ⟨q, hq⟩ := h.progress (List.length_pos_iff.mp (Nat.pos_of_ne_zero hp))
    obtain ⟨c1, hs⟩ := Option.ne_none_iff_exists'.mp hq
    obtain ⟨e, es, hrest, h1⟩ := h.step hs
    have := left_update hrest
    obtain ⟨sched, d, hrun, hd⟩ := ih h1 (by omega)
    refine ⟨q :: sched,d,?_,hd⟩
    rw [Config.run, List.foldlM_cons, hs]
    exact hrun

section rules
variable [Fintype P] (plan) {sched : List P}

/-- A party that has ended has its planned result. -/
theorem result_eq (hrun : (start prog).run sched = some c) {p : P} {a : A} (hp : c.prog p = .ret a) :
    a = plan.result p := by
  obtain ⟨past, rest, h, -⟩ := plan.at_start.run hrun
  have := h.trace p
  rw [hp] at this
  generalize rest p = es at this
  cases this
  rfl

/-- A run that stands still is over. -/
theorem done_of_still (hrun : (start prog).run sched = some c) (hstill : ∀ p, c.step p = none) :
    c.Done plan.result := by
  obtain ⟨past, rest, h, -⟩ := plan.at_start.run hrun
  exact h.ended hstill

theorem length_le (hrun : (start prog).run sched = some c) :
    sched.length ≤ ∑ p, (plan.events p).length := by
  obtain ⟨past, rest, -, hlen⟩ := plan.at_start.run hrun
  exact Nat.le_of_add_right_le hlen.le

/-- Every run can be continued to its end. -/
theorem completes (hrun : (start prog).run sched = some c) :
    ∃ sched' d, c.run sched' = some d ∧ d.Done plan.result := by
  obtain ⟨past, rest, h, -⟩ := plan.at_start.run hrun
  exact h.completes

end rules

end Plan

end schedules

end Process
