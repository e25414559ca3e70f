import OramPro.IsaMachine
import OramPro.Ranges

/-!
# The set intersection program

The instruction file `set_inte.ins`, as the machine's driver loads and runs it: two sorted ranges of the memory
are merged, and register 29 counts the values they share.
-/
namespace OramPro

open Reach

/-! ## The driver -/

section driver
variable {arr mem tape1 : ℕ → Word} {infile : List Ins} {i k : ℕ} {x : Ins}

end driver

namespace Isa

/-- The machine before the first instruction. -/
def start (mem tape1 : ℕ → Word) : State where
  pc := 0
  flag := false
  r _ := 0
  mem k := mem (proSize+k)
  tape1 k := tape1 k
  tape2 _ := 0
  rc0 := 0
  rc1 := 0
  num0 := 31
  num1 := 31

/-- `set_inte.ins` -/
def set_inte : List Ins := [
  ⟨21,0,0,0,0,0⟩,⟨21,0,1,0,0,0⟩,⟨21,0,2,0,0,0⟩,⟨21,0,3,0,0,0⟩,⟨12,32,1,0,0,0⟩,⟨18,0,0,0,0,22⟩,
  ⟨12,34,3,0,0,2⟩,⟨18,0,0,0,0,22⟩,⟨20,32,30,0,0,0⟩,⟨20,34,31,0,0,2⟩,⟨11,62,31,0,0,30⟩,⟨18,0,0,0,0,16⟩,
  ⟨7,0,0,0,0,1⟩,⟨7,0,2,2,0,1⟩,⟨7,0,29,29,0,1⟩,⟨16,0,0,0,0,4⟩,⟨12,63,30,0,0,31⟩,⟨18,0,0,0,0,20⟩,
  ⟨7,0,2,2,0,1⟩,⟨16,0,0,0,0,4⟩,⟨7,0,0,0,0,1⟩,⟨16,0,0,0,0,4⟩,⟨0,0,0,0,0,0⟩]

namespace SetInte

def prog : List Instr := [
  ⟨.READ,0,0,.imm 0⟩,⟨.READ,1,0,.imm 0⟩,⟨.READ,2,0,.imm 0⟩,⟨.READ,3,0,.imm 0⟩,
  -- 4: as long as neither range is empty
  ⟨.COMPA,1,0,.reg 0⟩,⟨.CNJMP,0,0,.imm 22⟩,⟨.COMPA,3,0,.reg 2⟩,⟨.CNJMP,0,0,.imm 22⟩,
  ⟨.LOAD,30,0,.reg 0⟩,⟨.LOAD,31,0,.reg 2⟩,⟨.COMPE,31,0,.reg 30⟩,⟨.CNJMP,0,0,.imm 16⟩,
  -- 12: a shared value
  ⟨.ADD,0,0,.imm 1⟩,⟨.ADD,2,2,.imm 1⟩,⟨.ADD,29,29,.imm 1⟩,⟨.JMP,0,0,.imm 4⟩,
  -- 16: the smaller value goes
  ⟨.COMPA,30,0,.reg 31⟩,⟨.CNJMP,0,0,.imm 20⟩,⟨.ADD,2,2,.imm 1⟩,⟨.JMP,0,0,.imm 4⟩,
  ⟨.ADD,0,0,.imm 1⟩,⟨.JMP,0,0,.imm 4⟩,⟨.ANSWER,0,0,.imm 0⟩]

lemma prog_load : prog.map Instr.load = set_inte := rfl

open Ranges

/-- The memory as an array of numbers. -/
def value (mem : Fin 8192 → Word) (k : ℕ) : ℕ := (mem ⟨k%8192,Nat.mod_lt _ (by norm_num)⟩).toNat

/-- The memory, where the two ranges end, and how many values they share. -/
structure Task where
  mem : Fin 8192 → Word
  hi : ℕ
  hi' : ℕ
  total : ℕ

/-- At instruction 4, with `v` entries to go: registers 0 and 2 are the ranges' next entries. -/
structure Loop (T : Task) (v : ℕ) (s : State) : Prop where
  pc : s.pc = BitVec.ofNat 32 4
  hi : (s.r 1).toNat = T.hi
  hi' : (s.r 3).toNat = T.hi'
  mem : s.mem = T.mem
  sorted : Sorted (value T.mem) (s.r 0).toNat T.hi
  sorted' : Sorted (value T.mem) (s.r 2).toNat T.hi'
  left : T.hi-(s.r 0).toNat+(T.hi'-(s.r 2).toNat) = v
  count : (s.r 29).toNat+
    (range (value T.mem) (s.r 0).toNat T.hi ∩ range (value T.mem) (s.r 2).toNat T.hi').card = T.total

def Done (T : Task) (s : State) : Prop := s.pc = BitVec.ofNat 32 22 ∧ (s.r 29).toNat = T.total ∧ s.mem = T.mem

lemma toNat_succ {w : Word} {n : ℕ} (h : w.toNat < n) (hn : n < 2^32) : (w+1).toNat = w.toNat+1 := by
  rw [BitVec.toNat_add]
  exact Nat.mod_eq_of_lt (by
    change w.toNat+1 < 2^32
    omega)

section body
variable {T : Task} {v : ℕ} {s : State}

lemma Loop.done (h : Loop T v s) (hend : T.hi ≤ (s.r 0).toNat ∨ T.hi' ≤ (s.r 2).toNat) :
    Done T { s with pc := BitVec.ofNat 32 22, flag := false } := by
  have hinter : range (value T.mem) (s.r 0).toNat T.hi ∩ range (value T.mem) (s.r 2).toNat T.hi' = 0 := by
    obtain hend | hend := hend
    · rw [range_empty hend, Multiset.zero_inter]
    · rw [range_empty hend, Multiset.inter_zero]
  have hcount := h.count
  rw [hinter, Multiset.card_zero, add_zero] at hcount
  exact ⟨rfl,hcount,h.mem⟩

lemma Loop.value_eq (h : Loop T v s) (w : Word) : value T.mem w.toNat = (s.mem (cell w)).toNat := by
  rw [h.mem]
  rfl

/-- Back at instruction 4, with the same memory and ends. -/
structure Back (s t : State) : Prop where
  pc : t.pc = BitVec.ofNat 32 4
  r1 : t.r 1 = s.r 1
  r3 : t.r 3 = s.r 3
  mem : t.mem = s.mem

section next
variable {t : State}

lemma Loop.both (h : Loop T v s) (hb : Back s t) (hT : T.total < 2^32) (hi : (s.r 0).toNat < T.hi)
    (hj : (s.r 2).toNat < T.hi') (heq : s.mem (cell (s.r 0)) = s.mem (cell (s.r 2)))
    (h0 : t.r 0 = s.r 0+1) (h2 : t.r 2 = s.r 2+1) (h29 : t.r 29 = s.r 29+1) : ∃ w < v, Loop T w t := by
  have hlt : T.hi < 2^32 := h.hi ▸ (s.r 1).isLt
  have hlt' : T.hi' < 2^32 := h.hi' ▸ (s.r 3).isLt
  have hleft := h.left
  have hvalue : value T.mem (s.r 0).toNat = value T.mem (s.r 2).toNat := by rw [h.value_eq, h.value_eq, heq]
  have hcount := h.count
  rw [inter_both hi hj hvalue, Multiset.card_cons] at hcount
  have e0 : (t.r 0).toNat = (s.r 0).toNat+1 := by rw [h0, toNat_succ hi hlt]
  have e2 : (t.r 2).toNat = (s.r 2).toNat+1 := by rw [h2, toNat_succ hj hlt']
  have e29 : (t.r 29).toNat = (s.r 29).toNat+1 := by rw [h29, toNat_succ (n := T.total) (by omega) hT]
  refine ⟨T.hi-(t.r 0).toNat+(T.hi'-(t.r 2).toNat),by omega,hb.pc,hb.r1 ▸ h.hi,hb.r3 ▸ h.hi',
    hb.mem.trans h.mem,?_,?_,rfl,?_⟩
  · rw [e0]
    exact h.sorted.tail
  · rw [e2]
    exact h.sorted'.tail
  · rw [e0, e2, e29]
    omega

lemma Loop.left_smaller (h : Loop T v s) (hb : Back s t) (hi : (s.r 0).toNat < T.hi)
    (hsmall : (s.mem (cell (s.r 0))).toNat < (s.mem (cell (s.r 2))).toNat) (h0 : t.r 0 = s.r 0+1)
    (h2 : t.r 2 = s.r 2) (h29 : t.r 29 = s.r 29) : ∃ w < v, Loop T w t := by
  have hlt : T.hi < 2^32 := h.hi ▸ (s.r 1).isLt
  have hleft := h.left
  rw [← h.value_eq, ← h.value_eq] at hsmall
  have e0 : (t.r 0).toNat = (s.r 0).toNat+1 := by rw [h0, toNat_succ hi hlt]
  refine ⟨T.hi-(t.r 0).toNat+(T.hi'-(t.r 2).toNat),by rw [h2]; omega,hb.pc,hb.r1 ▸ h.hi,hb.r3 ▸ h.hi',
    hb.mem.trans h.mem,?_,?_,rfl,?_⟩
  · rw [e0]
    exact h.sorted.tail
  · rw [h2]
    exact h.sorted'
  · rw [e0, h2, h29, ← inter_left hi h.sorted' hsmall]
    exact h.count

lemma Loop.right_smaller (h : Loop T v s) (hb : Back s t) (hj : (s.r 2).toNat < T.hi')
    (hsmall : (s.mem (cell (s.r 2))).toNat < (s.mem (cell (s.r 0))).toNat) (h0 : t.r 0 = s.r 0)
    (h2 : t.r 2 = s.r 2+1) (h29 : t.r 29 = s.r 29) : ∃ w < v, Loop T w t := by
  have hlt' : T.hi' < 2^32 := h.hi' ▸ (s.r 3).isLt
  have hleft := h.left
  rw [← h.value_eq, ← h.value_eq] at hsmall
  have e2 : (t.r 2).toNat = (s.r 2).toNat+1 := by rw [h2, toNat_succ hj hlt']
  refine ⟨T.hi-(t.r 0).toNat+(T.hi'-(t.r 2).toNat),by rw [h0]; omega,hb.pc,hb.r1 ▸ h.hi,hb.r3 ▸ h.hi',
    hb.mem.trans h.mem,?_,?_,rfl,?_⟩
  · rw [h0]
    exact h.sorted
  · rw [e2]
    exact h.sorted'.tail
  · rw [h0, e2, h29, ← inter_right hj h.sorted hsmall]
    exact h.count

end next

/-- One pass of the loop. -/
lemma Loop.pass (hT : T.total < 2^32) (h : Loop T v s) :
    Reaches (step prog) (fun t => Done T t ∨ ∃ w < v, Loop T w t) s := by
  have hhi := h.hi
  have hhi' := h.hi'
  refine reaches_unless (w := 22) (by norm_num) h.pc rfl rfl rfl (fun h0 => ?_) fun h0 => ?_
  swap
  · have hend : ¬(s.r 0).toNat < (s.r 1).toNat := of_decide_eq_false h0
    exact .here (.inl (h.done (.inl (by omega))))
  have hi : (s.r 0).toNat < (s.r 1).toNat := of_decide_eq_true h0
  refine reaches_unless (n := 6) (w := 22) (by norm_num) rfl rfl rfl rfl (fun h1 => ?_) fun h1 => ?_
  swap
  · have hend : ¬(s.r 2).toNat < (s.r 3).toNat := of_decide_eq_false h1
    exact .here (.inl (h.done (.inr (by omega))))
  have hj : (s.r 2).toNat < (s.r 3).toNat := of_decide_eq_true h1
  rw [hhi] at hi
  rw [hhi'] at hj
  refine reaches_block [⟨.LOAD,30,0,.reg 0⟩,⟨.LOAD,31,0,.reg 2⟩] (n := 8) (by decide) rfl ⟨_,rfl⟩
    (by decide) rfl fun hpc => ?_
  refine reaches_unless (n := 10) (w := 16) (by norm_num) hpc rfl rfl rfl (fun h2 => ?_) fun h2 => ?_
  · have heq : s.mem (cell (s.r 2)) = s.mem (cell (s.r 0)) := of_decide_eq_true h2
    refine reaches_block [⟨.ADD,0,0,.imm 1⟩,⟨.ADD,2,2,.imm 1⟩,⟨.ADD,29,29,.imm 1⟩] (n := 12) (by decide)
      rfl ⟨_,rfl⟩ (by decide) rfl fun hpc => ?_
    refine reaches_jump (n := 15) (by norm_num) hpc rfl (.here (.inr ?_))
    exact h.both ⟨rfl,rfl,rfl,rfl⟩ hT hi hj heq.symm rfl rfl rfl
  have hne : s.mem (cell (s.r 2)) ≠ s.mem (cell (s.r 0)) := of_decide_eq_false h2
  refine reaches_unless (n := 16) (w := 20) (by norm_num) rfl rfl rfl rfl (fun h3 => ?_) fun h3 => ?_
  · have hsmall : (s.mem (cell (s.r 2))).toNat < (s.mem (cell (s.r 0))).toNat := of_decide_eq_true h3
    refine reaches_block [⟨.ADD,2,2,.imm 1⟩] (n := 18) (by decide) rfl ⟨_,rfl⟩ (by decide) rfl fun hpc => ?_
    refine reaches_jump (n := 19) (by norm_num) hpc rfl (.here (.inr ?_))
    exact h.right_smaller ⟨rfl,rfl,rfl,rfl⟩ hj hsmall rfl rfl rfl
  · have hlarge : ¬(s.mem (cell (s.r 2))).toNat < (s.mem (cell (s.r 0))).toNat := of_decide_eq_false h3
    have hsmall : (s.mem (cell (s.r 0))).toNat < (s.mem (cell (s.r 2))).toNat :=
      lt_of_le_of_ne (not_lt.mp hlarge) fun h => hne (BitVec.eq_of_toNat_eq h.symm)
    refine reaches_block [⟨.ADD,0,0,.imm 1⟩] (n := 20) (by decide) rfl ⟨_,rfl⟩ (by decide) rfl fun hpc => ?_
    refine reaches_jump (n := 21) (by norm_num) hpc rfl (.here (.inr ?_))
    exact h.left_smaller ⟨rfl,rfl,rfl,rfl⟩ hi hsmall rfl rfl rfl

end body

/-- The whole program: register 29 counts the shared values, and the memory stays. -/
lemma run (mem tape1 : ℕ → Word) :
    let elem := fun k => (mem (proSize+k)).toNat
    (tape1 1).toNat ≤ 8192 → (tape1 3).toNat ≤ 8192 → Sorted elem (tape1 0).toNat (tape1 1).toNat →
    Sorted elem (tape1 2).toNat (tape1 3).toNat →
    Reaches (step prog) (fun t => (∃ x, prog[t.pc.toNat]? = some x ∧ x.op = .ANSWER) ∧
      (t.r 29).toNat = (range elem (tape1 0).toNat (tape1 1).toNat ∩
        range elem (tape1 2).toNat (tape1 3).toNat).card ∧ ∀ k : Fin 8192, t.mem k = mem (proSize+k))
      (start mem tape1) := by
  intro elem hhi hhi' hsorted hsorted'
  have hvalue : ∀ k, k < 8192 → value (start mem tape1).mem k = elem k := by
    intro k hk
    change (mem (proSize+k%8192)).toNat = elem k
    rw [Nat.mod_eq_of_lt hk]
  have hrange : ∀ {lo hi}, hi ≤ 8192 → range (value (start mem tape1).mem) lo hi = range elem lo hi :=
    fun hle => range_congr fun k _ hk => hvalue k (by omega)
  have hkeep : ∀ {lo hi}, hi ≤ 8192 → Sorted elem lo hi → Sorted (value (start mem tape1).mem) lo hi :=
    fun hle h a b ha hab hb => by
      rw [hvalue a (by omega), hvalue b (by omega)]
      exact h a b ha hab hb
  have hT : (range elem (tape1 0).toNat (tape1 1).toNat ∩ range elem (tape1 2).toNat (tape1 3).toNat).card <
      2^32 := by
    have hle := Multiset.card_le_card (Multiset.inter_le_left (s := range elem (tape1 0).toNat (tape1 1).toNat)
      (t := range elem (tape1 2).toNat (tape1 3).toNat))
    rw [card_range] at hle
    omega
  let T : Task := ⟨(start mem tape1).mem,(tape1 1).toNat,(tape1 3).toNat,
    (range elem (tape1 0).toNat (tape1 1).toNat ∩ range elem (tape1 2).toNat (tape1 3).toNat).card⟩
  refine reaches_block [⟨.READ,0,0,.imm 0⟩,⟨.READ,1,0,.imm 0⟩,⟨.READ,2,0,.imm 0⟩,⟨.READ,3,0,.imm 0⟩] (n := 0)
    (by decide) rfl ⟨_,rfl⟩ (by decide) rfl fun hpc => ?_
  refine Reaches.mono (P := Done T) ?_ fun t ht => ⟨⟨⟨.ANSWER,0,0,.imm 0⟩,by rw [ht.1]; rfl,rfl⟩,ht.2.1,
    fun k => congrFun ht.2.2 k⟩
  refine Reaches.loop (wellFounded_lt (α := ℕ)) (I := Loop T) (fun v t h => h.pass hT)
    ⟨hpc,rfl,rfl,rfl,?_,?_,rfl,?_⟩
  · exact hkeep hhi hsorted
  · exact hkeep hhi' hsorted'
  · change 0+(range (value (start mem tape1).mem) (tape1 0).toNat (tape1 1).toNat ∩
      range (value (start mem tape1).mem) (tape1 2).toNat (tape1 3).toNat).card = T.total
    rw [hrange hhi, hrange hhi', zero_add]

end SetInte

end Isa

end OramPro
