import OramPro.CountLoop

/-!
# Passes over straight-line programs

Bounded buffers whose accesses can fail, and folds over a list of gates in topological order in
which every gate writes its own wire once. A pass is described by what one gate does; the rules
lift that to the whole list.
-/
namespace Netlist

/-! ## Buffers -/

inductive Fault
  | range
  | thrown
  deriving DecidableEq

/-- A vector of `size` entries; `val` is meaningful below the size only. -/
structure Buf (α : Type*) where
  size : ℕ
  val : ℕ → α
  deriving Inhabited

namespace Buf
variable {α : Type*} (b : Buf α)

def get (i : ℕ) : Except Fault α := if i < b.size then .ok (b.val i) else .error .range

def put (i : ℕ) (v : α) : Buf α := ⟨b.size,Function.update b.val i v⟩

def set (i : ℕ) (v : α) : Except Fault (Buf α) := if i < b.size then .ok (b.put i v) else .error .range

def ofList (l : List α) (a : α) : Buf α := ⟨l.length,fun i => l.getD i a⟩

variable {b} {i : ℕ}

@[simp] lemma put_size (v : α) : (b.put i v).size = b.size := rfl
@[simp] lemma put_self (v : α) : (b.put i v).val i = v := Function.update_self _ _ _

lemma put_of_ne {j : ℕ} (h : j ≠ i) (v : α) : (b.put i v).val j = b.val j := Function.update_of_ne h _ _

lemma get_ok (h : i < b.size) : b.get i = .ok (b.val i) := if_pos h

lemma set_ok (h : i < b.size) (v : α) : b.set i v = .ok (b.put i v) := if_pos h

lemma set_size {v : α} {b' : Buf α} (h : b.set i v = .ok b') : b'.size = b.size := by
  rw [set] at h
  split at h
  · exact Except.ok.inj h ▸ rfl
  · cases h

lemma lt_of_set {v : α} {b' : Buf α} (h : b.set i v = .ok b') : i < b.size := by
  rw [set] at h
  split at h
  · assumption
  · cases h

lemma lt_of_get {v : α} (h : b.get i = .ok v) : i < b.size := by
  rw [get] at h
  split at h
  · assumption
  · cases h

end Buf

/-! ## All parties in one phase -/

section collect
universe u

@[simp] lemma ok_bind {ε : Type*} {α β : Type u} (a : α) (f : α → Except ε β) :
    (Except.ok a >>= f) = f a := rfl

lemma ok_of_bind {ε : Type*} {α β : Type u} {x : Except ε α} {f : α → Except ε β} {b : β}
    (h : x >>= f = .ok b) : ∃ a, x = .ok a ∧ f a = .ok b := by
  cases x with
  | error e => cases h
  | ok a => exact ⟨a,rfl,h⟩

variable {α ε : Type*}

/-- What every step of a fold keeps. -/
lemma foldlM_keeps {σ : Type*} {f : σ → α → Except ε σ} {I : σ → Prop}
    (hf : ∀ s a s', f s a = .ok s' → I s → I s') {l : List α} {s s' : σ}
    (h : l.foldlM f s = .ok s') (hs : I s) : I s' := by
  induction l generalizing s with
  | nil => exact Except.ok.inj h ▸ hs
  | cons a l ih =>
    rw [List.foldlM_cons] at h
    obtain ⟨s1, hone, hrest⟩ := ok_of_bind h
    exact ih hrest (hf s a s1 hone hs)

/-- A fold that succeeds has taken its step at every element. -/
lemma foldlM_visits {σ : Type*} {f : σ → α → Except ε σ} {I : σ → Prop}
    (hf : ∀ s a s', f s a = .ok s' → I s → I s') {l : List α} {x : α} (hx : x ∈ l) {s s' : σ}
    (h : l.foldlM f s = .ok s') (hs : I s) : ∃ s1 s2, I s1 ∧ f s1 x = .ok s2 := by
  induction l generalizing s with
  | nil => cases hx
  | cons a l ih =>
    rw [List.foldlM_cons] at h
    obtain ⟨s1, hone, hrest⟩ := ok_of_bind h
    rcases List.mem_cons.mp hx with rfl | hx
    · exact ⟨s,s1,hs,hone⟩
    · exact ih hx hrest (hf s a s1 hone hs)

lemma foldlM_range_one {σ : Type*} (f : σ → ℕ → Except ε σ) (s : σ) :
    (List.range 1).foldlM f s = f s 0 := by
  simp

lemma mapM_ok {β : Type*} {f : β → Except ε α} {g : β → α} {l : List β}
    (h : ∀ x ∈ l, f x = .ok (g x)) : l.mapM f = .ok (l.map g) := by
  induction l with
  | nil => rfl
  | cons x l ih =>
    rw [List.mapM_cons, h x List.mem_cons_self, ih fun y hy => h y (List.mem_cons_of_mem x hy)]
    rfl

lemma mapM_inv {β : Type*} {f : β → Except ε α} {g : β → α} {l : List β}
    (h : l.mapM f = .ok (l.map g)) : ∀ x ∈ l, f x = .ok (g x) := by
  induction l with
  | nil => exact fun x hx => nomatch hx
  | cons y l ih =>
    rw [List.mapM_cons] at h
    obtain ⟨a, ha, h⟩ := ok_of_bind h
    obtain ⟨as, has, h⟩ := ok_of_bind h
    obtain ⟨rfl, rfl⟩ := List.cons.inj (Except.ok.inj h)
    exact List.forall_mem_cons.mpr ⟨ha,ih has⟩

lemma mapM_error {β : Type*} {f : β → Except ε α} {l : List β} {x : β} (hx : x ∈ l) {e : ε}
    (h : f x = .error e) : ∃ e', l.mapM f = .error e' := by
  induction l with
  | nil => cases hx
  | cons y l ih =>
    rw [List.mapM_cons]
    cases hy : f y with
    | error e' => exact ⟨e',rfl⟩
    | ok v =>
      rcases List.mem_cons.mp hx with rfl | hx
      · rw [h] at hy
        cases hy
      · obtain ⟨e', he⟩ := ih hx
        exact ⟨e',by rw [he]; rfl⟩

lemma foldlM_set_range {b : Buf α} {n : ℕ} (hn : n ≤ b.size) (v : ℕ → α) :
    ∃ b', (List.range n).foldlM (fun b i => b.set i (v i)) b = .ok b' ∧ b'.size = b.size ∧
      ∀ i < n, b'.val i = v i := by
  refine CountLoop.foldlM_range (P := fun n (b' : Buf α) => b'.size = b.size ∧ ∀ i < n, b'.val i = v i)
    ⟨rfl,fun i hi => absurd hi (by omega)⟩ fun m hm b' ⟨hsize, hval⟩ => ?_
  refine ⟨b'.put m (v m),Buf.set_ok (by omega) _,hsize,fun i hi => ?_⟩
  by_cases him : i = m
  · subst him
    exact Buf.put_self _
  · exact (Buf.put_of_ne him _).trans (hval i (by omega))

variable [Inhabited α] {f : ℕ → Except ε α}

/-- The results of the parties below `n`, when all of them have one. -/
def collect (n : ℕ) (f : ℕ → Except ε α) : Except ε (ℕ → α) := do
  let l ← (List.range n).mapM f
  return fun p => l.getD p default

lemma collect_ok {n : ℕ} {g : ℕ → α} (h : ∀ p < n, f p = .ok (g p)) :
    ∃ r, collect n f = .ok r ∧ ∀ p < n, r p = g p := by
  refine ⟨fun p => ((List.range n).map g).getD p default,?_,fun p hp => ?_⟩
  · rw [collect, mapM_ok fun p hp => h p (List.mem_range.mp hp)]
    rfl
  · simp [hp]

/-- What every party's result has, the collected results have. -/
lemma collect_spec {n : ℕ} {Q : ℕ → α → Prop} (h : ∀ p < n, ∃ a, f p = .ok a ∧ Q p a) :
    ∃ r, collect n f = .ok r ∧ ∀ p < n, Q p (r p) := by
  choose! g hok hQ using h
  obtain ⟨r, hr, heq⟩ := collect_ok hok
  refine ⟨r,hr,fun p hp => ?_⟩
  rw [heq p hp]
  exact hQ p hp

lemma collect_error {n p : ℕ} (hp : p < n) {e : ε} (h : f p = .error e) :
    ∃ e', collect n f = .error e' := by
  obtain ⟨e', he⟩ := mapM_error (List.mem_range.mpr hp) h
  exact ⟨e',by rw [collect, he]; rfl⟩

lemma collect_inv {n : ℕ} {r : ℕ → α} (h : collect n f = .ok r) : ∀ p < n, f p = .ok (r p) := by
  have hok : ∀ p < n, ∃ a, f p = .ok a ∧ f p = .ok a := by
    intro p hp
    cases hfp : f p with
    | error e =>
      obtain ⟨e', he⟩ := collect_error hp hfp
      rw [h] at he
      cases he
    | ok a => exact ⟨a,rfl,rfl⟩
  obtain ⟨r', hr', hQ⟩ := collect_spec hok
  obtain rfl := Except.ok.inj (h.symm.trans hr')
  exact hQ

end collect

/-! ## Topological order -/

section ordered
variable {G : Type*} (ins : G → List ℕ) (out : G → ℕ) (W : ℕ)

/-- Every gate reads known wires below `W` and writes a new one; in the end all are known. -/
def Ordered : Finset ℕ → List G → Prop
  | D,[] => ∀ w < W, w ∈ D
  | D,g :: gs => (∀ a ∈ ins g, a ∈ D) ∧ out g ∉ D ∧ out g < W ∧ Ordered (insert (out g) D) gs

instance Ordered.instDecidable : (D : Finset ℕ) → (gs : List G) → Decidable (Ordered ins out W D gs)
  | D,[] => inferInstanceAs (Decidable (∀ w < W, w ∈ D))
  | D,g :: gs =>
    have := instDecidable (insert (out g) D) gs
    inferInstanceAs (Decidable ((∀ a ∈ ins g, a ∈ D) ∧ out g ∉ D ∧ out g < W ∧
      Ordered ins out W (insert (out g) D) gs))

/-- The same check with the known wires as the bits of a number. -/
def orderedBits (ins : G → List ℕ) (out : G → ℕ) (W : ℕ) : ℕ → List G → Bool
  | D,[] => D%2^W == 2^W-1
  | D,g :: gs => (ins g).all D.testBit && !D.testBit (out g) && decide (out g < W) &&
      orderedBits ins out W (D ||| 2^out g) gs

variable {ins out W}

lemma Ordered.of_bits {D : Finset ℕ} {m : ℕ} {gs : List G} (hD : ∀ w, w ∈ D ↔ m.testBit w = true)
    (h : orderedBits ins out W m gs = true) : Ordered ins out W D gs := by
  induction gs generalizing D m with
  | nil =>
    intro w hw
    have hbit : (m%2^W).testBit w = true := by
      rw [beq_iff_eq.mp h, Nat.testBit_two_pow_sub_one]
      exact decide_eq_true hw
    rw [Nat.testBit_mod_two_pow, Bool.and_eq_true] at hbit
    exact (hD w).mpr hbit.2
  | cons g gs ih =>
    simp only [orderedBits, Bool.and_eq_true, List.all_eq_true, Bool.not_eq_true', decide_eq_true_eq] at h
    obtain ⟨⟨⟨hin, hnew⟩, hlt⟩, hrest⟩ := h
    refine ⟨fun a ha => (hD a).mpr (hin a ha),fun ho => ?_,hlt,ih (fun w => ?_) hrest⟩
    · rw [(hD _).mp ho] at hnew
      cases hnew
    · rw [Finset.mem_insert, hD, Nat.testBit_or, Nat.testBit_two_pow, Bool.or_eq_true, or_comm,
        decide_eq_true_eq, @eq_comm ℕ w]

lemma Ordered.zipIdx {D : Finset ℕ} {gs : List G} (h : Ordered ins out W D gs) (k : ℕ) :
    Ordered (fun g : G × ℕ => ins g.1) (fun g => out g.1) W D (gs.zipIdx k) := by
  induction gs generalizing D k with
  | nil => exact h
  | cons g gs ih =>
    obtain ⟨hin, hnew, hlt, hrest⟩ := h
    exact ⟨hin,hnew,hlt,ih hrest (k+1)⟩

variable {σ ε : Type*} {step : σ → G → Except ε σ}

/-- An invariant that knows which wires are done and which gates are left. -/
theorem Ordered.foldlM_track {I : σ → Finset ℕ → List G → Prop}
    (hstep : ∀ s D g gs, I s D (g :: gs) → (∀ a ∈ ins g, a ∈ D) → out g ∉ D → out g < W →
      ∃ s', step s g = .ok s' ∧ I s' (insert (out g) D) gs)
    {D : Finset ℕ} {gs : List G} (h : Ordered ins out W D gs) {s : σ} (hs : I s D gs) :
    ∃ s' D', gs.foldlM step s = .ok s' ∧ I s' D' [] ∧ ∀ w < W, w ∈ D' := by
  induction gs generalizing D s with
  | nil => exact ⟨s,D,rfl,hs,h⟩
  | cons g gs ih =>
    obtain ⟨hin, hnew, hlt, hrest⟩ := h
    obtain ⟨s1, hone, hs1⟩ := hstep s D g gs hs hin hnew hlt
    obtain ⟨s', D', hfold, hI, hall⟩ := ih hrest hs1
    exact ⟨s',D',by rw [List.foldlM_cons, hone]; exact hfold,hI,hall⟩

/-- What holds of the known wires and passes from the inputs of a gate to its output holds of
every wire. -/
theorem Ordered.forall_wire {Q : ℕ → Prop} {D : Finset ℕ} {gs : List G}
    (h : Ordered ins out W D gs) (hD : ∀ w ∈ D, Q w)
    (hgate : ∀ g ∈ gs, (∀ a ∈ ins g, Q a) → Q (out g)) : ∀ w < W, Q w := by
  induction gs generalizing D with
  | nil => exact fun w hw => hD w (h w hw)
  | cons g gs ih =>
    obtain ⟨hin, -, -, hrest⟩ := h
    refine ih hrest (fun w hw => ?_) fun g' hg' => hgate g' (List.mem_cons_of_mem g hg')
    rcases Finset.mem_insert.mp hw with rfl | hw
    · exact hgate g List.mem_cons_self fun a ha => hD a (hin a ha)
    · exact hD w hw

lemma Ordered.lt {D : Finset ℕ} {gs : List G} (h : Ordered ins out W D gs) (hD : ∀ w ∈ D, w < W)
    {g : G} (hg : g ∈ gs) : out g < W ∧ ∀ a ∈ ins g, a < W := by
  induction gs generalizing D with
  | nil => cases hg
  | cons g' gs ih =>
    obtain ⟨hin, -, hlt, hrest⟩ := h
    rcases List.mem_cons.mp hg with rfl | hg
    · exact ⟨hlt,fun a ha => hD a (hin a ha)⟩
    · refine ih hrest (fun w hw => ?_) hg
      rcases Finset.mem_insert.mp hw with rfl | hw
      · exact hlt
      · exact hD w hw

/-- A fold that writes the wire of every gate keeps the known wires and satisfies the equations of all
gates at once. -/
theorem Ordered.foldl_fix {α : Type*} {f : G → (ℕ → α) → α}
    (hf : ∀ g v v', (∀ a ∈ ins g, v a = v' a) → f g v = f g v') {D : Finset ℕ} {gs : List G}
    (h : Ordered ins out W D gs) (v : ℕ → α) :
    (∀ w ∈ D, gs.foldl (fun v g => Function.update v (out g) (f g v)) v w = v w) ∧
      ∀ g ∈ gs, gs.foldl (fun v g => Function.update v (out g) (f g v)) v (out g) =
        f g (gs.foldl (fun v g => Function.update v (out g) (f g v)) v) := by
  induction gs generalizing D v with
  | nil => exact ⟨fun _ _ => rfl,List.forall_mem_nil _⟩
  | cons g gs ih =>
    obtain ⟨hin, hnew, -, hrest⟩ := h
    obtain ⟨hkeep, hall⟩ := ih hrest (Function.update v (out g) (f g v))
    have hframe : ∀ w ∈ D, Function.update v (out g) (f g v) w = v w :=
      fun w hw => Function.update_of_ne (ne_of_mem_of_not_mem hw hnew) _ _
    have hD : ∀ w ∈ D, (g :: gs).foldl (fun v g => Function.update v (out g) (f g v)) v w = v w :=
      fun w hw => (hkeep w (Finset.mem_insert_of_mem hw)).trans (hframe w hw)
    refine ⟨hD,List.forall_mem_cons.mpr ⟨?_,hall⟩⟩
    rw [List.foldl_cons, hkeep _ (Finset.mem_insert_self _ _), Function.update_self]
    exact hf g v _ fun a ha => (hD a (hin a ha)).symm

section sat
variable {α β : Type*} (step) (val : σ → ℕ → α) (ok : σ → Prop) (log : σ → List β)
  (P : G → (ℕ → α) → Prop) (emit : G → (ℕ → α) → List β) (v0 : ℕ → α)

/-- A pass whose steps write one wire each satisfies the relations of all gates at once, and what
it has logged is what the gates emit for the final wires. A step finds its own wire as it was at
the start. -/
theorem Ordered.foldlM_sat
    (hstep : ∀ s g, ok s → (∀ a ∈ ins g, a < W ∧ a ≠ out g) → out g < W →
      val s (out g) = v0 (out g) → ∃ s', step s g = .ok s' ∧ ok s' ∧
        (∀ w ≠ out g, val s' w = val s w) ∧ P g (val s') ∧ log s' = log s++emit g (val s'))
    (hlocal : ∀ g v v', (∀ a ∈ ins g, v a = v' a) → v (out g) = v' (out g) →
      emit g v = emit g v' ∧ (P g v → P g v'))
    {D : Finset ℕ} {gs : List G} (hD : ∀ w ∈ D, w < W) (h : Ordered ins out W D gs) {s : σ}
    (hs : ok s) (hv : ∀ w ∉ D, val s w = v0 w) :
    ∃ s', gs.foldlM step s = .ok s' ∧ ok s' ∧ (∀ w ∈ D, val s' w = val s w) ∧
      (∀ g ∈ gs, P g (val s')) ∧ log s' = log s++gs.flatMap fun g => emit g (val s') := by
  induction gs generalizing D s with
  | nil => exact ⟨s,rfl,hs,fun _ _ => rfl,List.forall_mem_nil _,(List.append_nil _).symm⟩
  | cons g gs ih =>
    obtain ⟨hin, hnew, hlt, hrest⟩ := h
    have hdiff : ∀ a ∈ D, a ≠ out g := fun a ha he => hnew (he ▸ ha)
    obtain ⟨s1, hone, hok1, hframe, hP, hlog1⟩ :=
      hstep s g hs (fun a ha => ⟨hD a (hin a ha),hdiff a (hin a ha)⟩) hlt (hv _ hnew)
    have hD1 : ∀ w ∈ insert (out g) D, w < W := by
      intro w hw
      rcases Finset.mem_insert.mp hw with rfl | hw
      · exact hlt
      · exact hD w hw
    have hv1 : ∀ w ∉ insert (out g) D, val s1 w = v0 w := by
      intro w hw
      rw [Finset.mem_insert, not_or] at hw
      rw [hframe w hw.1, hv w hw.2]
    obtain ⟨s', hfold, hok', hkeep, hall, hlog'⟩ := ih hD1 hrest hok1 hv1
    have hsame : ∀ a ∈ ins g, val s1 a = val s' a := fun a ha =>
      (hkeep a (Finset.mem_insert_of_mem (hin a ha))).symm
    have hout : val s1 (out g) = val s' (out g) := (hkeep _ (Finset.mem_insert_self _ _)).symm
    obtain ⟨hemit, hPl⟩ := hlocal g (val s1) (val s') hsame hout
    refine ⟨s',by rw [List.foldlM_cons, hone]; exact hfold,hok',fun w hw => ?_,?_,?_⟩
    · rw [hkeep w (Finset.mem_insert_of_mem hw), hframe w (hdiff w hw)]
    · exact List.forall_mem_cons.mpr ⟨hPl hP,hall⟩
    · rw [hlog', hlog1, hemit, List.flatMap_cons, List.append_assoc]

end sat

end ordered

end Netlist
