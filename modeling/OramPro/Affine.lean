import OramPro.Netlist

/-!
# Affine forms of netlists

Once some inputs of a netlist are fixed, its wires may be affine in the others: each AND then has a
constant operand, or two equal ones. A form is the mask of the inputs it adds up; the input `n`, which is constantly one,
stands for the constant. The forms of all wires lie in one number, in slots of `n+1` bits.
-/
namespace Affine

/-- The sum of the inputs below `k` that the mask `m` names. -/
def value (x : ℕ → Bool) : ℕ → ℕ → Bool
  | 0,_ => false
  | k+1,m => value x k m ^^ (m.testBit k && x k)

section value
variable (x : ℕ → Bool) (k : ℕ)

@[simp] lemma value_zero : value x k 0 = false := by
  induction k with
  | zero => rfl
  | succ k ih => simp [value, ih]

lemma value_xor (a b : ℕ) : value x k (a ^^^ b) = (value x k a ^^ value x k b) := by
  induction k with
  | zero => rfl
  | succ k ih =>
    rw [value, ih, Nat.testBit_xor, Bool.and_xor_distrib_right, value, value]
    simp only [Bool.xor_assoc, Bool.xor_left_comm]

lemma value_two_pow (j : ℕ) : value x k (2^j) = (decide (j < k) && x j) := by
  induction k with
  | zero => simp [value]
  | succ k ih =>
    rw [value, ih, Nat.testBit_two_pow]
    by_cases hj : j = k
    · simp [hj]
    · simp [hj, (by omega : j < k+1 ↔ j < k)]

end value

/-- The form of a conjunction, if one of the operands is constant or both are the same. -/
def conj (n a b : ℕ) : Option ℕ :=
  if a = 0 ∨ b = 0 then some 0
  else if a = 2^n then some b
  else if b = 2^n ∨ a = b then some a
  else none

lemma value_conj {x : ℕ → Bool} {n a b c : ℕ} (hx : x n = true) (h : conj n a b = some c) :
    value x (n+1) c = (value x (n+1) a && value x (n+1) b) := by
  have hone : value x (n+1) (2^n) = true := by simp [value_two_pow, hx]
  unfold conj at h
  split_ifs at h with h0 ha hb
  · obtain rfl := Option.some.inj h
    rcases h0 with rfl | rfl <;> simp
  · obtain rfl := Option.some.inj h
    rw [ha, hone, Bool.true_and]
  · obtain rfl := Option.some.inj h
    rcases hb with rfl | rfl
    · rw [hone, Bool.and_true]
    · rw [Bool.and_self]

lemma conj_lt {n a b c : ℕ} (ha : a < 2^(n+1)) (hb : b < 2^(n+1)) (h : conj n a b = some c) :
    c < 2^(n+1) := by
  unfold conj at h
  split_ifs at h <;> obtain rfl := Option.some.inj h
  · positivity
  · exact hb
  · exact ha

/-! ## Slots -/

def slot (k V w : ℕ) : ℕ := V >>> (k*w)%2^k

/-- Fill a slot that is empty. -/
def put (k V w m : ℕ) : ℕ := V ||| m <<< (k*w)

section slot
variable {k V w m : ℕ}

lemma slot_lt : slot k V w < 2^k := Nat.mod_lt _ (by positivity)

@[simp] lemma slot_empty : slot k 0 w = 0 := by simp [slot]

lemma testBit_slot (i : ℕ) : (slot k V w).testBit i = (decide (i < k) && V.testBit (k*w+i)) := by
  rw [slot, Nat.testBit_mod_two_pow, Nat.testBit_shiftRight]

lemma testBit_put (i : ℕ) :
    (put k V w m).testBit i = (V.testBit i || (decide (k*w ≤ i) && m.testBit (i-k*w))) := by
  rw [put, Nat.testBit_or, Nat.testBit_shiftLeft]

lemma slot_put_self (h0 : slot k V w = 0) (hm : m < 2^k) : slot k (put k V w m) w = m := by
  refine Nat.eq_of_testBit_eq fun i => ?_
  have hold : (slot k V w).testBit i = false := by rw [h0, Nat.zero_testBit]
  rw [testBit_slot] at hold
  rw [testBit_slot, testBit_put, Bool.and_or_distrib_left, hold, Bool.false_or,
    decide_eq_true (Nat.le_add_right (k*w) i), Bool.true_and, Nat.add_sub_cancel_left]
  by_cases hi : i < k
  · rw [decide_eq_true hi, Bool.true_and]
  · have hbig : m < 2^i := hm.trans_le (Nat.pow_le_pow_right (by norm_num) (by omega))
    simp [hi, Nat.testBit_lt_two_pow hbig]

lemma slot_put_of_ne {w' : ℕ} (hne : w' ≠ w) (hm : m < 2^k) :
    slot k (put k V w m) w' = slot k V w' := by
  refine Nat.eq_of_testBit_eq fun i => ?_
  rw [testBit_slot, testBit_put, testBit_slot]
  by_cases hi : i < k
  · rcases lt_or_gt_of_ne hne with h | h
    · have hslot : k*w'+i < k*w :=
        calc k*w'+i < k*(w'+1) := by rw [Nat.mul_succ]; omega
          _ ≤ k*w := Nat.mul_le_mul_left k h
      rw [decide_eq_false (by omega : ¬k*w ≤ k*w'+i)]
      simp
    · have hslot : k*w+k ≤ k*w' :=
        calc k*w+k = k*(w+1) := (Nat.mul_succ k w).symm
          _ ≤ k*w' := Nat.mul_le_mul_left k h
      have hbig : m < 2^(k*w'+i-k*w) :=
        hm.trans_le (Nat.pow_le_pow_right (by norm_num) (by omega))
      simp [Nat.testBit_lt_two_pow hbig]
  · simp [hi]

end slot

/-- The slots below `n` filled from a list of forms. -/
def load (k : ℕ) (f : ℕ → ℕ) (n : ℕ) : ℕ := (List.range n).foldl (fun V w => put k V w (f w)) 0

lemma slot_load {k : ℕ} {f : ℕ → ℕ} {n : ℕ} (hf : ∀ w < n, f w < 2^k) (w : ℕ) :
    slot k (load k f n) w = if w < n then f w else 0 := by
  induction n generalizing w with
  | zero => simp [load]
  | succ n ih =>
    have hlow : ∀ w < n, f w < 2^k := fun w hw => hf w (Nat.lt_succ_of_lt hw)
    have hstep : load k f (n+1) = put k (load k f n) n (f n) := by
      rw [load, List.range_succ, List.foldl_concat]
      rfl
    rw [hstep]
    by_cases hw : w = n
    · subst hw
      rw [slot_put_self (by rw [ih hlow, if_neg (lt_irrefl _)]) (hf w (Nat.lt_succ_self w)),
        if_pos (Nat.lt_succ_self w)]
    · rw [slot_put_of_ne hw (hf n (Nat.lt_succ_self n)), ih hlow]
      simp only [(by omega : w < n+1 ↔ w < n)]

/-! ## Runs over a netlist -/

section run
variable {G : Type*} {ins : G → List ℕ} {out : G → ℕ} {W : ℕ} (k : ℕ)
  (form : G → (ℕ → ℕ) → Option ℕ)

/-- The forms of all gates, one after the other; it fails where a gate has none. -/
def run (out : G → ℕ) (gs : List G) (V : ℕ) : Option ℕ :=
  gs.foldlM (fun V g => (form g (slot k V)).map (put k V (out g))) V

variable {k form}

/-- The forms are those of the values, wire by wire, if each gate's is. -/
theorem run_sound {f : G → (ℕ → Bool) → Bool} {x : ℕ → Bool}
    (hform : ∀ g m v r, form g m = some r → (∀ w, m w < 2^k) →
      (∀ a ∈ ins g, value x k (m a) = v a) → value x k r = f g v ∧ r < 2^k)
    {D : Finset ℕ} {gs : List G} (h : Netlist.Ordered ins out W D gs) {V V' : ℕ} {v : ℕ → Bool}
    (hempty : ∀ w ∉ D, slot k V w = 0) (hv : ∀ w ∈ D, value x k (slot k V w) = v w)
    (hrun : run k form out gs V = some V') :
    ∀ w < W, value x k (slot k V' w) =
      gs.foldl (fun v g => Function.update v (out g) (f g v)) v w := by
  induction gs generalizing D V v with
  | nil =>
    obtain rfl := Option.some.inj hrun
    exact fun w hw => hv w (h w hw)
  | cons g gs ih =>
    obtain ⟨hin, hnew, -, hrest⟩ := h
    rw [run, List.foldlM_cons] at hrun
    obtain ⟨V1, hone, hrun⟩ := Option.bind_eq_some_iff.mp hrun
    obtain ⟨r, hr, rfl⟩ := Option.map_eq_some_iff.mp hone
    obtain ⟨hval, hlt⟩ := hform g (slot k V) v r hr (fun _ => slot_lt) fun a ha => hv a (hin a ha)
    refine ih (v := Function.update v (out g) (f g v)) hrest (fun w hw => ?_) (fun w hw => ?_) hrun
    · rw [Finset.mem_insert, not_or] at hw
      rw [slot_put_of_ne hw.1 hlt, hempty w hw.2]
    · rcases Finset.mem_insert.mp hw with rfl | hw
      · rw [slot_put_self (hempty _ hnew) hlt, Function.update_self, hval]
      · have hne : w ≠ out g := ne_of_mem_of_not_mem hw hnew
        rw [slot_put_of_ne hne hlt, Function.update_of_ne hne, hv w hw]

end run

end Affine
