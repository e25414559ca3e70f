import Mathlib

/-!
# Ranges of an array

The values of an array between two indices, as a multiset, and what the loops over them keep.
-/
namespace Ranges
variable {α : Type*} {f g : ℕ → α} {lo mid hi i j : ℕ}

/-- The values at the indices from `lo` up to `hi`, which is left out. -/
def range (f : ℕ → α) (lo hi : ℕ) : Multiset α := (List.Ico lo hi).map f

@[simp] lemma range_empty (h : hi ≤ lo) : range f lo hi = 0 := by
  rw [range, List.Ico.eq_nil_of_le h]
  rfl

lemma range_head (h : lo < hi) : range f lo hi = f lo ::ₘ range f (lo+1) hi := by
  rw [range, List.Ico.eq_cons h]
  rfl

lemma range_append (h : lo ≤ mid) (h' : mid ≤ hi) : range f lo hi = range f lo mid+range f mid hi := by
  rw [range, ← List.Ico.append_consecutive h h', List.map_append]
  rfl

@[simp] lemma mem_range {x : α} : x ∈ range f lo hi ↔ ∃ k, lo ≤ k ∧ k < hi ∧ f k = x := by
  simp [range, and_assoc]

@[simp] lemma card_range : (range f lo hi).card = hi-lo := by simp [range]

lemma range_congr (h : ∀ k, lo ≤ k → k < hi → f k = g k) : range f lo hi = range g lo hi := by
  refine congrArg Multiset.ofList (List.map_congr_left fun k hk => ?_)
  obtain ⟨hlo, hhi⟩ := List.Ico.mem.mp hk
  exact h k hlo hhi

/-- An array with two of its entries exchanged. -/
def swap (f : ℕ → α) (i j : ℕ) (k : ℕ) : α := f (Equiv.swap i j k)

lemma swap_left : swap f i j i = f j := by rw [swap, Equiv.swap_apply_left]
lemma swap_right : swap f i j j = f i := by rw [swap, Equiv.swap_apply_right]
lemma swap_other {k : ℕ} (hi : k ≠ i) (hj : k ≠ j) : swap f i j k = f k := by
  rw [swap, Equiv.swap_apply_of_ne_of_ne hi hj]

/-- An exchange inside a range permutes it. -/
lemma range_swap (hi' : lo ≤ i ∧ i < hi) (hj : lo ≤ j ∧ j < hi) : range (swap f i j) lo hi = range f lo hi := by
  have hperm : ((List.Ico lo hi).map (Equiv.swap i j)).Perm (List.Ico lo hi) := by
    refine (List.perm_ext_iff_of_nodup ((List.Ico.nodup lo hi).map (Equiv.injective _)) (List.Ico.nodup lo hi)).mpr
      fun k => ?_
    rw [List.mem_map_of_involutive (Equiv.swap_apply_self i j ·), List.Ico.mem, List.Ico.mem]
    rcases eq_or_ne k i with rfl | hki
    · rw [Equiv.swap_apply_left]
      omega
    rcases eq_or_ne k j with rfl | hkj
    · rw [Equiv.swap_apply_right]
      omega
    · rw [Equiv.swap_apply_of_ne_of_ne hki hkj]
  have hmap := hperm.map f
  rw [List.map_map] at hmap
  exact Multiset.coe_eq_coe.mpr hmap

lemma swap_self : swap f i i = f := by
  funext k
  rw [swap, Equiv.swap_self]
  rfl

/-- Two stores that exchange two entries, or leave one as it is. -/
lemma update_update {v : α} (h : i = j ∨ v = f j) :
    Function.update (Function.update f i v) j (f i) = swap f i j := by
  rcases eq_or_ne i j with rfl | hne
  · rw [Function.update_idem, Function.update_eq_self, swap_self]
  · obtain rfl := h.resolve_left hne
    funext k
    rcases eq_or_ne k j with rfl | hkj
    · rw [Function.update_self, swap_right]
    rcases eq_or_ne k i with rfl | hki
    · rw [Function.update_of_ne hkj, Function.update_self, swap_left]
    · rw [Function.update_of_ne hkj, Function.update_of_ne hki, swap_other hki hkj]

lemma swap_comm : swap f i j = swap f j i := by
  funext k
  rw [swap, swap, Equiv.swap_comm]

/-- A permuted range has the same bounds. -/
lemma range_forall {P : α → Prop} (h : range f lo hi = range g lo hi) (hg : ∀ k, lo ≤ k → k < hi → P (g k)) :
    ∀ k, lo ≤ k → k < hi → P (f k) := by
  intro k hk hk'
  have hmem : f k ∈ range g lo hi := h ▸ mem_range.mpr ⟨k,hk,hk',rfl⟩
  obtain ⟨l, hl, hl', heq⟩ := mem_range.mp hmem
  exact heq ▸ hg l hl hl'

/-! ## Sorted ranges -/

section sorted
variable [LinearOrder α] {hi' : ℕ}

def Sorted (f : ℕ → α) (lo hi : ℕ) : Prop := ∀ a b, lo ≤ a → a ≤ b → b < hi → f a ≤ f b

lemma Sorted.tail (h : Sorted f lo hi) : Sorted f (lo+1) hi := fun a b ha => h a b (by omega)

/-- The smallest entry of two sorted ranges is not in the other. -/
lemma Sorted.notMem (hg : Sorted g j hi') (h : f i < g j) : f i ∉ range g j hi' := by
  rw [mem_range]
  rintro ⟨k, hk, hk', heq⟩
  exact absurd (hg j k le_rfl hk hk') (not_le.mpr (heq ▸ h))

lemma inter_left (hi₁ : i < hi) (hg : Sorted g j hi') (h : f i < g j) :
    range f i hi ∩ range g j hi' = range f (i+1) hi ∩ range g j hi' := by
  rw [range_head hi₁, Multiset.cons_inter_of_neg _ (hg.notMem h)]

lemma inter_right (hj : j < hi') (hf : Sorted f i hi) (h : g j < f i) :
    range f i hi ∩ range g j hi' = range f i hi ∩ range g (j+1) hi' := by
  rw [Multiset.inter_comm, inter_left hj hf h, Multiset.inter_comm]

lemma inter_both (hi₁ : i < hi) (hj : j < hi') (h : f i = g j) :
    range f i hi ∩ range g j hi' = f i ::ₘ (range f (i+1) hi ∩ range g (j+1) hi') := by
  have hmem : f i ∈ range g j hi' := by
    rw [range_head hj, h]
    exact Multiset.mem_cons_self _ _
  rw [range_head hi₁, Multiset.cons_inter_of_pos _ hmem, range_head hj, h, Multiset.erase_cons_head]

/-- Two sorted ranges around an entry that lies between them. -/
lemma Sorted.join (hf : Sorted f lo mid) (hf' : Sorted f (mid+1) hi) (hlow : ∀ k, lo ≤ k → k < mid → f k ≤ f mid)
    (hhigh : ∀ k, mid+1 ≤ k → k < hi → f mid ≤ f k) : Sorted f lo hi := by
  intro a b ha hab hb
  rcases lt_trichotomy a mid with hlt | rfl | hlt
  · rcases lt_trichotomy b mid with hb' | rfl | hb'
    · exact hf a b ha hab hb'
    · exact hlow a ha hlt
    · exact (hlow a ha hlt).trans (hhigh b hb' hb)
  · rcases hab.eq_or_lt with rfl | hlt
    · exact le_rfl
    · exact hhigh b hlt hb
  · exact hf' a b hlt hab hb

/-- A range while it is split around `x`: what lies before `i` is at most `x`, what lies after `j` at least. -/
structure Split (f : ℕ → α) (x : α) (lo i j hi : ℕ) : Prop where
  lo_le : lo ≤ i
  le : i ≤ j
  lt : j < hi
  low : ∀ k, lo ≤ k → k < i → f k ≤ x
  high : ∀ k, j < k → k < hi → x ≤ f k

section split
variable {x : α}

lemma Split.up (h : Split f x lo i j hi) (hij : i < j) (hx : f i ≤ x) : Split f x lo (i+1) j hi := by
  refine ⟨h.lo_le.trans i.le_succ,hij,h.lt,fun k hk hk' => ?_,h.high⟩
  rcases (Nat.lt_succ_iff.mp hk').eq_or_lt with rfl | hlt
  · exact hx
  · exact h.low k hk hlt

lemma Split.down (h : Split f x lo i (j+1) hi) (hij : i ≤ j) (hx : x ≤ f (j+1)) : Split f x lo i j hi := by
  refine ⟨h.lo_le,hij,j.lt_succ_self.trans h.lt,h.low,fun k hk hk' => ?_⟩
  rcases (Nat.succ_le_of_lt hk).eq_or_lt with rfl | hlt
  · exact hx
  · exact h.high k hlt hk'

lemma Split.swap (h : Split f x lo i j hi) : Split (swap f i j) x lo i j hi := by
  have hle := h.le
  refine ⟨h.lo_le,h.le,h.lt,fun k hk hk' => ?_,fun k hk hk' => ?_⟩
  · rw [swap_other (by omega) (by omega)]
    exact h.low k hk hk'
  · rw [swap_other (by omega) (by omega)]
    exact h.high k hk hk'

/-- The parts on both sides of the pivot are sorted one by one. -/
lemma Split.join {p : ℕ} (h : Split f x lo p p hi) (hx : f p = x) (hleft : range g lo p = range f lo p)
    (hmid : g p = f p) (hright : range g (p+1) hi = range f (p+1) hi) (hs : Sorted g lo p)
    (hs' : Sorted g (p+1) hi) : Sorted g lo hi ∧ range g lo hi = range f lo hi := by
  constructor
  · refine hs.join hs' ?_ ?_
    · rw [hmid, hx]
      exact range_forall (P := (· ≤ x)) hleft h.low
    · rw [hmid, hx]
      exact range_forall (P := (x ≤ ·)) hright h.high
  · rw [range_append h.lo_le h.lt.le, range_append h.lo_le h.lt.le, range_head h.lt, range_head h.lt, hleft, hmid,
      hright]

end split

end sorted

end Ranges
