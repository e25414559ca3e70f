import Mathlib

/-!
# Breadth-first expansion in a circular buffer

The nodes of a forest of two binary trees are numbered in heap order: the roots are `0` and
`1` and the children of `m` are `2m+2` and `2m+3`. One attribute of a node is kept in a
circular buffer of `R` slots, the other in a queue. Nodes are written in the order of their
numbers, so after the first `hi` of them the buffer holds the last `R`; an unread node that is
older than that has been overwritten by the one that `source` names.
-/
namespace OramPro.HeapRing

structure State (α β : Type*) where
  mem : ℕ → α
  queue : List β
  ptr : ℕ

variable {α β : Type*}

/-- Read the node at `ptr`, write its children and queue their second attributes. -/
def expand [Inhabited β] (R : ℕ) (kids : α × β → Bool → α × β) (st : State α β) : State α β :=
  let n := (st.mem (st.ptr%R),st.queue.headD default)
  { mem := Function.update (Function.update st.mem ((2*st.ptr+2)%R) (kids n false).1)
      ((2*st.ptr+3)%R) (kids n true).1
    queue := st.queue.tail ++ [(kids n false).2,(kids n true).2]
    ptr := st.ptr+1 }

/-- Consume the node at `ptr` without writing children. -/
def drop (st : State α β) : State α β := ⟨st.mem,st.queue.tail,st.ptr+1⟩

/-- The node at `ptr` as the traversal reads it. -/
def current [Inhabited β] (R : ℕ) (st : State α β) : α × β :=
  (st.mem (st.ptr%R),st.queue.headD default)

/-- The node whose value is in the slot of `m` once nodes `0 .. hi-1` are written. -/
def source (R hi m : ℕ) : ℕ := m+R*((hi-1-m)/R)

/-- What is read for node `m` once nodes `0 .. hi-1` are written with the values `node`. -/
def readAt (R : ℕ) (node : ℕ → α × β) (hi m : ℕ) : α × β := ((node (source R hi m)).1,(node m).2)

/-- Nodes `0 .. hi-1` are written and nodes `0 .. ptr-1` are consumed. -/
structure Written (R : ℕ) (node : ℕ → α × β) (st : State α β) (hi : ℕ) : Prop where
  mem : ∀ m < hi, hi ≤ m+R → st.mem (m%R) = (node m).1
  queue : st.queue = (List.range' st.ptr (hi-st.ptr)).map fun m => (node m).2

variable {R hi m : ℕ} {node : ℕ → α × β} {st : State α β}

lemma source_lt (hm : m < hi) : source R hi m < hi := by
  have := Nat.mul_div_le (hi-1-m) R
  unfold source
  omega

lemma le_source_add (hR : 0 < R) : hi ≤ source R hi m+R := by
  have := Nat.lt_mul_div_succ (hi-1-m) hR
  rw [Nat.mul_succ] at this
  unfold source
  omega

@[simp] lemma source_mod : source R hi m%R = m%R := Nat.add_mul_mod_self_left m R _

/-- A node that is recent enough is still there. -/
lemma source_eq_self (h : hi ≤ m+R) (hm : m < hi) : source R hi m = m := by
  unfold source
  rw [Nat.div_eq_of_lt (by omega), Nat.mul_zero, Nat.add_zero]

lemma readAt_eq_self (h : hi ≤ m+R) (hm : m < hi) : readAt R node hi m = node m := by
  rw [readAt, source_eq_self h hm]

lemma slot_injOn {a b : ℕ} (hab : a ≤ b) (hb : b < a+R) (h : b%R = a%R) : a = b := by
  have hd : R ∣ b-a := (Nat.modEq_iff_dvd' hab).mp h.symm
  have := Nat.eq_zero_of_dvd_of_lt hd (by omega)
  omega

lemma Written.tail (h : Written R node st hi) (hlt : st.ptr < hi) :
    st.queue.tail = (List.range' (st.ptr+1) (hi-(st.ptr+1))).map fun m => (node m).2 := by
  obtain ⟨k, hk⟩ : ∃ k, hi-st.ptr = k+1 := ⟨hi-st.ptr-1, by omega⟩
  have hk' : hi-(st.ptr+1) = k := by omega
  simp [h.queue, hk, hk', List.range'_succ]

lemma Written.drop (h : Written R node st hi) (hlt : st.ptr < hi) :
    Written R node (HeapRing.drop st) hi := ⟨h.mem,h.tail hlt⟩

@[simp] lemma drop_ptr (st : State α β) : (HeapRing.drop st).ptr = st.ptr+1 := rfl

section
variable [Inhabited β] {kids : α × β → Bool → α × β}

@[simp] lemma expand_ptr (kids : α × β → Bool → α × β) (st : State α β) :
    (HeapRing.expand R kids st).ptr = st.ptr+1 := rfl

lemma Written.current (h : Written R node st hi) (hR : 0 < R) (hlt : st.ptr < hi) :
    HeapRing.current R st = readAt R node hi st.ptr := by
  have hq : st.queue.headD default = (node st.ptr).2 := by
    obtain ⟨k, hk⟩ : ∃ k, hi-st.ptr = k+1 := ⟨hi-st.ptr-1, by omega⟩
    simp [h.queue, hk, List.range'_succ]
  have hm := h.mem _ (source_lt hlt) (le_source_add hR)
  rw [source_mod] at hm
  rw [HeapRing.current, readAt, hm, hq]

/-- Expanding the next node writes its two children. -/
lemma Written.expand (h : Written R node st (2*st.ptr+2)) (hR : 2 ≤ R)
    (h0 : node (2*st.ptr+2) = kids (readAt R node (2*st.ptr+2) st.ptr) false)
    (h1 : node (2*st.ptr+3) = kids (readAt R node (2*st.ptr+2) st.ptr) true) :
    Written R node (HeapRing.expand R kids st) (2*(st.ptr+1)+2) := by
  have hcur : (st.mem (st.ptr%R),st.queue.headD default) = readAt R node (2*st.ptr+2) st.ptr :=
    h.current (by omega) (by omega)
  constructor
  · intro m hm hmh
    simp only [HeapRing.expand, hcur]
    by_cases hm1 : m = 2*st.ptr+3
    · simp [hm1, h1]
    · have hs1 : m%R ≠ (2*st.ptr+3)%R := fun he => hm1 (slot_injOn (by omega) (by omega) he.symm)
      rw [Function.update_of_ne hs1]
      by_cases hm0 : m = 2*st.ptr+2
      · simp [hm0, h0]
      · have hs0 : m%R ≠ (2*st.ptr+2)%R := fun he => hm0 (slot_injOn (by omega) (by omega) he.symm)
        rw [Function.update_of_ne hs0]
        exact h.mem m (by omega) (by omega)
  · simp only [HeapRing.expand, hcur, h.tail (by omega)]
    have hlen : 2*(st.ptr+1)+2-(st.ptr+1) = (2*st.ptr+2-(st.ptr+1))+1+1 := by omega
    have e0 : st.ptr+1+1*(2*st.ptr+2-(st.ptr+1)) = 2*st.ptr+2 := by omega
    have e1 : st.ptr+1+1*(2*st.ptr+2-(st.ptr+1)+1) = 2*st.ptr+3 := by omega
    rw [hlen, List.range'_concat, List.range'_concat, e0, e1]
    simp only [List.map_append, List.map_cons, List.map_nil, List.append_assoc,
      List.cons_append, List.nil_append, ← h0, ← h1]

lemma Written.iterate (h : Written R node st (2*st.ptr+2)) (hR : 2 ≤ R) (k : ℕ)
    (hkid : ∀ m, st.ptr ≤ m → m < st.ptr+k →
      node (2*m+2) = kids (readAt R node (2*m+2) m) false ∧
      node (2*m+3) = kids (readAt R node (2*m+2) m) true) :
    Written R node ((HeapRing.expand R kids)^[k] st) (2*(st.ptr+k)+2) ∧
      ((HeapRing.expand R kids)^[k] st).ptr = st.ptr+k := by
  induction k with
  | zero => exact ⟨h, rfl⟩
  | succ k ih =>
    obtain ⟨hw, hptr⟩ := ih fun m h0 h1 => hkid m h0 (by omega)
    obtain ⟨h0, h1⟩ := hkid (st.ptr+k) (by omega) (by omega)
    rw [← hptr] at hw h0 h1
    have hw' := hw.expand hR h0 h1
    rw [hptr] at hw'
    rw [Function.iterate_succ_apply']
    exact ⟨hw', by rw [expand_ptr, hptr, Nat.add_assoc]⟩

end

end OramPro.HeapRing
