import OramPro.Netlist

/-!
# Two parties in lockstep

One party sends messages and the other one reads them, in the same order. `Agree` relates what the two compute
to each other, whatever the messages are; its rules follow the structure of the programs. Garbled netlists are
the case where both go over the same gates.
-/
namespace Garbling

/-! ## Senders and readers -/

/-- A computation that changes a state and sends messages. -/
def Sends (γ M α : Type) := γ → α × γ × List M

/-- A computation that changes a state and takes messages from the front of a list. -/
def Reads (ε M α : Type) := ε → List M → α × ε × List M

instance (γ M : Type) : Monad (Sends γ M) where
  pure a := fun g => (a,g,[])
  bind p f := fun g =>
    let r := p g
    let s := f r.1 r.2.1
    (s.1,s.2.1,r.2.2++s.2.2)

instance (ε M : Type) : Monad (Reads ε M) where
  pure a := fun e l => (a,e,l)
  bind p f := fun e l =>
    let r := p e l
    f r.1 r.2.1 r.2.2

instance (ε M : Type) : LawfulMonad (Reads ε M) :=
  LawfulMonad.mk' _ (fun _ => rfl) (fun _ _ => rfl) fun _ _ _ => rfl

def send {γ M : Type} (l : List M) : Sends γ M Unit := fun g => ((),g,l)

def recv {ε M : Type} (n : ℕ) : Reads ε M (List M) := fun e l => (l.take n,e,l.drop n)

section agree
variable {γ ε M α β α' β' σ τ : Type} (Sync : γ → ε → Prop)

/-- From states in step, the reader takes exactly what the sender sends, and the results are related. -/
def Agree (p : Sends γ M α) (q : Reads ε M β) (Q : α → β → Prop) : Prop :=
  ∀ g e, Sync g e → ∀ rest,
    let r := p g
    let s := q e (r.2.2++rest)
    Q r.1 s.1 ∧ Sync r.2.1 s.2.1 ∧ s.2.2 = rest

variable {Sync} {p : Sends γ M α} {q : Reads ε M β} {Q : α → β → Prop}

lemma Agree.pure {a : α} {b : β} (h : Q a b) : Agree (M := M) Sync (pure a) (pure b) Q :=
  fun _ _ hs _ => ⟨h,hs,rfl⟩

/-- Run to the end, with the messages of the sender only. -/
lemma Agree.run (h : Agree Sync p q Q) {g : γ} {e : ε} (hs : Sync g e) :
    Q (p g).1 (q e (p g).2.2).1 ∧ (q e (p g).2.2).2.2 = [] := by
  obtain ⟨hq, -, hleft⟩ := h g e hs []
  rw [List.append_nil] at hq hleft
  exact ⟨hq,hleft⟩

lemma Agree.mono {Q' : α → β → Prop} (h : Agree Sync p q Q) (hQ : ∀ a b, Q a b → Q' a b) :
    Agree Sync p q Q' := by
  intro g e hs rest
  obtain ⟨hq, hrest⟩ := h g e hs rest
  exact ⟨hQ _ _ hq,hrest⟩

lemma Agree.bind {f : α → Sends γ M α'} {k : β → Reads ε M β'} {Q' : α' → β' → Prop}
    (h : Agree Sync p q Q) (hf : ∀ a b, Q a b → Agree Sync (f a) (k b) Q') :
    Agree Sync (p >>= f) (q >>= k) Q' := by
  intro g e hs rest
  obtain ⟨hq, hs1, hleft⟩ := h g e hs ((f (p g).1 (p g).2.1).2.2++rest)
  have hsecond := hf _ _ hq _ _ hs1 rest
  rw [← List.append_assoc] at hq hs1 hleft hsecond
  refine ⟨?_,?_,?_⟩
  all_goals simp only [Bind.bind, hleft]
  · exact hsecond.1
  · exact hsecond.2.1
  · exact hsecond.2.2

/-- The reader may go on without messages. -/
lemma Agree.map_recv (h : Agree Sync p q Q) {k : β → β'} {Q' : α → β' → Prop}
    (hQ : ∀ a b, Q a b → Q' a (k b)) : Agree Sync p (q >>= fun b => Pure.pure (k b)) Q' := by
  intro g e hs rest
  obtain ⟨hq, hrest⟩ := h g e hs rest
  exact ⟨hQ _ _ hq,hrest⟩

/-- Two loops over one list agree if their turns keep a relation. -/
lemma Agree.foldlM {G : Type} {f : σ → G → Sends γ M σ} {k : τ → G → Reads ε M τ} {I : σ → τ → List G → Prop}
    (hstep : ∀ s t x xs, I s t (x :: xs) → Agree Sync (f s x) (k t x) fun s' t' => I s' t' xs)
    {xs : List G} {s : σ} {t : τ} (h : I s t xs) :
    Agree Sync (xs.foldlM f s) (xs.foldlM k t) fun s' t' => I s' t' [] := by
  induction xs generalizing s t with
  | nil => exact .pure h
  | cons x xs ih => exact (hstep s t x xs h).bind fun s' t' h' => ih h'

lemma agree_send_recv {l : List M} {n : ℕ} (hn : l.length = n) :
    Agree Sync (send l) (recv n) fun _ l' => l' = l := by
  intro g e hs rest
  subst hn
  exact ⟨List.take_left,hs,List.drop_left⟩

end agree

/-! ## Garbled netlists -/

/-- What the parties do at a gate, from the labels of all wires. -/
structure Scheme (G L M γ ε : Type) where
  gen : G → (ℕ → L) → Sends γ M L
  eva : G → (ℕ → L) → Reads ε M L

section scheme
variable {G L M γ ε : Type} (S : Scheme G L M γ ε) (out : G → ℕ)

def Scheme.garble (gs : List G) (a : ℕ → L) : Sends γ M (ℕ → L) :=
  gs.foldlM (fun a g => do return Function.update a (out g) (← S.gen g a)) a

def Scheme.evaluate (gs : List G) (b : ℕ → L) : Reads ε M (ℕ → L) :=
  gs.foldlM (fun b g => do return Function.update b (out g) (← S.eva g b)) b

variable {S out} {ins : G → List ℕ} {f : G → (ℕ → Bool) → Bool} {Sync : γ → ε → Prop}
  {Carries : L → L → Bool → Prop} {W : ℕ}

/-- If each gate's labels carry its value, then in the end every wire's labels do. -/
theorem Scheme.run_agree
    (hgate : ∀ t a b v, (∀ w ∈ ins t, Carries (a w) (b w) (v w)) →
      Agree Sync (S.gen t a) (S.eva t b) fun l l' => Carries l l' (f t v))
    {D : Finset ℕ} {gs : List G} (h : Netlist.Ordered ins out W D gs) {a b : ℕ → L} {v : ℕ → Bool}
    (hin : ∀ w ∈ D, Carries (a w) (b w) (v w)) :
    Agree Sync (S.garble out gs a) (S.evaluate out gs b) fun a' b' => ∀ w < W,
      Carries (a' w) (b' w) (gs.foldl (fun v g => Function.update v (out g) (f g v)) v w) := by
  induction gs generalizing D a b v with
  | nil => exact .pure fun w hw => hin w (h w hw)
  | cons g gs ih =>
    obtain ⟨hread, -, -, hrest⟩ := h
    have hone := hgate g a b v fun w hw => hin w (hread w hw)
    refine (hone.bind fun l l' hl => Agree.pure ?_).bind fun a' b' h' =>
      ih (v := Function.update v (out g) (f g v)) hrest h'
    intro w hw
    by_cases hne : w = out g
    · subst hne
      rw [Function.update_self, Function.update_self, Function.update_self]
      exact hl
    · rw [Function.update_of_ne hne, Function.update_of_ne hne, Function.update_of_ne hne]
      exact hin w ((Finset.mem_insert.mp hw).resolve_left hne)

end scheme

end Garbling
