import OramPro.SetInte

/-!
# The sorting program

The instruction file `binary_sort.ins`: a quicksort of a range of the memory, with a stack that grows down from
cell 512. A frame holds the bounds, the pivot's index and the return address.
-/
namespace OramPro

open Reach Ranges

/-- `binary_sort.ins` -/
def binary_sort : List Ins := [
  ⟨21,0,0,0,0,0⟩,⟨21,0,1,0,0,0⟩,⟨14,0,16,0,0,512⟩,⟨14,0,15,0,0,64⟩,⟨19,48,15,0,0,16⟩,⟨13,33,0,0,0,1⟩,
  ⟨17,0,0,0,0,55⟩,⟨20,32,30,0,0,0⟩,⟨14,32,28,0,0,0⟩,⟨14,33,29,0,0,1⟩,⟨11,60,29,0,0,28⟩,⟨17,0,0,0,0,33⟩,
  ⟨12,60,29,0,0,28⟩,⟨18,0,0,0,0,19⟩,⟨20,61,3,0,0,29⟩,⟨13,62,3,0,0,30⟩,⟨18,0,0,0,0,19⟩,⟨8,0,29,29,0,1⟩,
  ⟨16,0,0,0,0,12⟩,⟨20,60,4,0,0,28⟩,⟨19,60,3,0,0,28⟩,⟨19,61,4,0,0,29⟩,⟨12,60,29,0,0,28⟩,⟨18,0,0,0,0,29⟩,
  ⟨20,60,3,0,0,28⟩,⟨13,35,30,0,0,3⟩,⟨18,0,0,0,0,29⟩,⟨7,0,28,28,0,1⟩,⟨16,0,0,0,0,22⟩,⟨20,61,4,0,0,29⟩,
  ⟨19,61,3,0,0,29⟩,⟨19,60,4,0,0,28⟩,⟨16,0,0,0,0,10⟩,⟨8,0,16,16,0,1⟩,⟨19,48,0,0,0,16⟩,⟨8,0,16,16,0,1⟩,
  ⟨19,48,1,0,0,16⟩,⟨8,0,16,16,0,1⟩,⟨19,48,28,0,0,16⟩,⟨8,0,16,16,0,1⟩,⟨14,0,15,0,0,44⟩,⟨19,48,15,0,0,16⟩,
  ⟨8,0,1,28,0,1⟩,⟨16,0,0,0,0,5⟩,⟨8,0,16,16,0,1⟩,⟨19,48,0,0,0,16⟩,⟨8,0,16,16,0,1⟩,⟨19,48,1,0,0,16⟩,
  ⟨8,0,16,16,0,1⟩,⟨19,48,28,0,0,16⟩,⟨8,0,16,16,0,1⟩,⟨14,0,15,0,0,55⟩,⟨19,48,15,0,0,16⟩,⟨7,0,0,28,0,1⟩,
  ⟨16,0,0,0,0,5⟩,⟨20,48,31,0,0,16⟩,⟨7,0,16,16,0,1⟩,⟨20,48,28,0,0,16⟩,⟨7,0,16,16,0,1⟩,⟨20,48,1,0,0,16⟩,
  ⟨7,0,16,16,0,1⟩,⟨20,48,0,0,0,16⟩,⟨7,0,16,16,0,1⟩,⟨16,63,0,0,0,31⟩,⟨0,0,0,0,0,0⟩]

namespace Isa.BinarySort

/-- A frame goes on the stack. -/
def push (ret : Word) : List Instr := [
  ⟨.SUB,16,16,.imm 1⟩,⟨.STORE,0,0,.reg 16⟩,⟨.SUB,16,16,.imm 1⟩,⟨.STORE,1,0,.reg 16⟩,⟨.SUB,16,16,.imm 1⟩,
  ⟨.STORE,28,0,.reg 16⟩,⟨.SUB,16,16,.imm 1⟩,⟨.MOV,15,0,.imm ret⟩,⟨.STORE,15,0,.reg 16⟩]

def pop : List Instr := [
  ⟨.LOAD,31,0,.reg 16⟩,⟨.ADD,16,16,.imm 1⟩,⟨.LOAD,28,0,.reg 16⟩,⟨.ADD,16,16,.imm 1⟩,⟨.LOAD,1,0,.reg 16⟩,
  ⟨.ADD,16,16,.imm 1⟩,⟨.LOAD,0,0,.reg 16⟩,⟨.ADD,16,16,.imm 1⟩]

def prog : List Instr := [
  ⟨.READ,0,0,.imm 0⟩,⟨.READ,1,0,.imm 0⟩,⟨.MOV,16,0,.imm 512⟩,⟨.MOV,15,0,.imm 64⟩,⟨.STORE,15,0,.reg 16⟩,
  -- 5: sort the cells from register 0 to register 1
  ⟨.COMPAE,0,0,.reg 1⟩,⟨.CJMP,0,0,.imm 55⟩,⟨.LOAD,30,0,.reg 0⟩,⟨.MOV,28,0,.reg 0⟩,⟨.MOV,29,0,.reg 1⟩,
  -- 10: until the cursors meet
  ⟨.COMPE,29,0,.reg 28⟩,⟨.CJMP,0,0,.imm 33⟩,
  -- 12: down to a smaller entry
  ⟨.COMPA,29,0,.reg 28⟩,⟨.CNJMP,0,0,.imm 19⟩,⟨.LOAD,3,0,.reg 29⟩,⟨.COMPAE,3,0,.reg 30⟩,⟨.CNJMP,0,0,.imm 19⟩,
  ⟨.SUB,29,29,.imm 1⟩,⟨.JMP,0,0,.imm 12⟩,
  -- 19: the pivot goes there
  ⟨.LOAD,4,0,.reg 28⟩,⟨.STORE,3,0,.reg 28⟩,⟨.STORE,4,0,.reg 29⟩,
  -- 22: up to a larger entry
  ⟨.COMPA,29,0,.reg 28⟩,⟨.CNJMP,0,0,.imm 29⟩,⟨.LOAD,3,0,.reg 28⟩,⟨.COMPAE,30,0,.reg 3⟩,⟨.CNJMP,0,0,.imm 29⟩,
  ⟨.ADD,28,28,.imm 1⟩,⟨.JMP,0,0,.imm 22⟩,
  -- 29: the pivot goes back
  ⟨.LOAD,4,0,.reg 29⟩,⟨.STORE,3,0,.reg 29⟩,⟨.STORE,4,0,.reg 28⟩,⟨.JMP,0,0,.imm 10⟩]++
  -- 33: the cells before the pivot, then the cells after it
  push 44++[⟨.SUB,1,28,.imm 1⟩,⟨.JMP,0,0,.imm 5⟩]++
  push 55++[⟨.ADD,0,28,.imm 1⟩,⟨.JMP,0,0,.imm 5⟩]++
  -- 55: return
  pop++[⟨.JMP,0,0,.reg 31⟩,⟨.ANSWER,0,0,.imm 0⟩]

lemma prog_load : prog.map Instr.load = binary_sort := rfl

/-! ## The memory as an array of numbers -/

def entry (mem : Fin 8192 → Word) (k : ℕ) : ℕ := if h : k < 8192 then (mem ⟨k,h⟩).toNat else 0

section entry
variable {mem : Fin 8192 → Word} {w : Word}

lemma cell_eq (h : w.toNat < 8192) : cell w = ⟨w.toNat,h⟩ := Fin.ext (Nat.mod_eq_of_lt h)

lemma entry_cell (h : w.toNat < 8192) : (mem (cell w)).toNat = entry mem w.toNat := by
  rw [cell_eq h, entry, dif_pos h]

lemma entry_update (h : w.toNat < 8192) (v : Word) :
    entry (Function.update mem (cell w) v) = Function.update (entry mem) w.toNat v.toNat := by
  funext k
  by_cases hk : k = w.toNat
  · subst hk
    rw [Function.update_self, cell_eq h, entry, dif_pos h, Function.update_self]
  · rw [Function.update_of_ne hk, entry, entry]
    by_cases hlt : k < 8192
    · have hne : (⟨k,hlt⟩ : Fin 8192) ≠ cell w := fun heq =>
        hk ((congrArg Fin.val heq).trans (Nat.mod_eq_of_lt h))
      rw [dif_pos hlt, dif_pos hlt, Function.update_of_ne hne]
    · rw [dif_neg hlt, dif_neg hlt]

lemma toNat_pred (h : 0 < w.toNat) : (w-1).toNat = w.toNat-1 := by
  have hw := w.isLt
  rw [BitVec.toNat_sub]
  change (2^32-1+w.toNat)%2^32 = w.toNat-1
  omega

end entry

/-! ## The partition -/

/-- A range, the pivot's value, the stack and the memory before. -/
structure Job where
  f : ℕ → ℕ
  lo : ℕ
  hi : ℕ
  sp : ℕ
  x : ℕ
  hi_le : hi ≤ 8192

/-- At instruction `n` of the partition, with the cursors at `i` and `j`. -/
structure Within (J : Job) (n i j : ℕ) (s : State) : Prop where
  pc : s.pc = BitVec.ofNat 32 n
  r0 : (s.r 0).toNat = J.lo
  r1 : (s.r 1).toNat+1 = J.hi
  r16 : (s.r 16).toNat = J.sp
  r28 : (s.r 28).toNat = i
  r29 : (s.r 29).toNat = j
  r30 : (s.r 30).toNat = J.x
  split : Split (entry s.mem) J.x J.lo i j J.hi
  perm : range (entry s.mem) J.lo J.hi = range J.f J.lo J.hi
  frame : ∀ k, k < J.lo ∨ J.hi ≤ k → entry s.mem k = J.f k

/-- The registers that the partition does not write. -/
structure Keeps (s t : State) : Prop where
  r0 : t.r 0 = s.r 0
  r1 : t.r 1 = s.r 1
  r16 : t.r 16 = s.r 16
  r30 : t.r 30 = s.r 30

section partition
variable {J : Job} {n m i j i' j' : ℕ} {s t : State}

lemma Within.move (h : Within J n i j s) (hk : Keeps s t) (hmem : t.mem = s.mem) (hpc : t.pc = BitVec.ofNat 32 m)
    (h28 : (t.r 28).toNat = i') (h29 : (t.r 29).toNat = j') (hsplit : Split (entry s.mem) J.x J.lo i' j' J.hi) :
    Within J m i' j' t :=
  ⟨hpc,hk.r0 ▸ h.r0,hk.r1 ▸ h.r1,hk.r16 ▸ h.r16,h28,h29,hk.r30 ▸ h.r30,hmem ▸ hsplit,hmem ▸ h.perm,hmem ▸ h.frame⟩

lemma Within.goto (h : Within J n i j s) (hk : Keeps s t) (hmem : t.mem = s.mem) (hpc : t.pc = BitVec.ofNat 32 m)
    (h28 : t.r 28 = s.r 28) (h29 : t.r 29 = s.r 29) : Within J m i j t :=
  h.move hk hmem hpc (h28 ▸ h.r28) (h29 ▸ h.r29) h.split

lemma Within.exchange (h : Within J n i j s) (hk : Keeps s t) (hmem : entry t.mem = swap (entry s.mem) i j)
    (hpc : t.pc = BitVec.ofNat 32 m) (h28 : t.r 28 = s.r 28) (h29 : t.r 29 = s.r 29) : Within J m i j t := by
  have hlo := h.split.lo_le
  have hij := h.split.le
  have hhi := h.split.lt
  refine ⟨hpc,hk.r0 ▸ h.r0,hk.r1 ▸ h.r1,hk.r16 ▸ h.r16,h28 ▸ h.r28,h29 ▸ h.r29,hk.r30 ▸ h.r30,?_,?_,fun k hk => ?_⟩
  · rw [hmem]
    exact h.split.swap
  · rw [hmem, range_swap ⟨hlo,by omega⟩ ⟨by omega,hhi⟩, h.perm]
  · rw [hmem, swap_other (by omega) (by omega)]
    exact h.frame k hk

/-- The loop at 12: the upper cursor goes down to an entry below the pivot, or to the other cursor. -/
lemma Within.down (h : Within J 12 i j s) : Reaches (step prog) (fun t => ∃ j' ≤ j, Within J 19 i j' t ∧
    t.mem = s.mem ∧ (i = j' ∨ (t.r 3).toNat = entry s.mem j' ∧ entry s.mem j' < J.x)) s := by
  induction j using Nat.strong_induction_on generalizing s with
  | _ j ih =>
    have h28 := h.r28
    have h29 := h.r29
    have h30 := h.r30
    have hij := h.split.le
    have hlt := h.split.lt
    have hle := J.hi_le
    refine reaches_unless (w := 19) (by norm_num) h.pc rfl rfl rfl (fun h0 => ?_) fun h0 => ?_
    swap
    · have hend : ¬(s.r 28).toNat < (s.r 29).toNat := of_decide_eq_false h0
      exact .here ⟨j,le_rfl,h.goto ⟨rfl,rfl,rfl,rfl⟩ rfl rfl rfl rfl,rfl,.inl (by omega)⟩
    have hgo : (s.r 28).toNat < (s.r 29).toNat := of_decide_eq_true h0
    have hread : (s.mem (cell (s.r 29))).toNat = entry s.mem j := by rw [entry_cell (by omega), h29]
    refine reaches_block [⟨.LOAD,3,0,.reg 29⟩] (n := 14) (by decide) rfl ⟨_,rfl⟩ (by decide) rfl fun hpc => ?_
    refine reaches_unless (n := 15) (w := 19) (by norm_num) hpc rfl rfl rfl (fun h1 => ?_) fun h1 => ?_
    · have hlarge : (s.r 30).toNat ≤ (s.mem (cell (s.r 29))).toNat := of_decide_eq_true h1
      obtain ⟨k, rfl⟩ : ∃ k, j = k+1 := ⟨j-1,by omega⟩
      refine reaches_block [⟨.SUB,29,29,.imm 1⟩] (n := 17) (by decide) rfl ⟨_,rfl⟩ (by decide) rfl
        fun hpc => ?_
      refine reaches_jump (n := 18) (by norm_num) hpc rfl ?_
      have hdown : (s.r 29-1).toNat = k := by rw [toNat_pred (by omega), h29, Nat.add_sub_cancel]
      refine Reaches.mono (ih k k.lt_succ_self ?_) fun t ht => ?_
      · exact h.move ⟨rfl,rfl,rfl,rfl⟩ rfl rfl h28 hdown (h.split.down (by omega) (by omega))
      · obtain ⟨j', hj', hin, hmem, hstop⟩ := ht
        exact ⟨j',by omega,hin,hmem,hstop⟩
    · have hsmall : ¬(s.r 30).toNat ≤ (s.mem (cell (s.r 29))).toNat := of_decide_eq_false h1
      exact .here ⟨j,le_rfl,h.goto ⟨rfl,rfl,rfl,rfl⟩ rfl rfl rfl rfl,rfl,.inr ⟨hread,by omega⟩⟩

/-- The loop at 22: the lower cursor goes up to an entry above the pivot, or to the other cursor. -/
lemma Within.up (h : Within J 22 i j s) : Reaches (step prog) (fun t => ∃ i' ≥ i, Within J 29 i' j t ∧
    t.mem = s.mem ∧ (i' = j ∨ (t.r 3).toNat = entry s.mem i' ∧ J.x < entry s.mem i')) s := by
  induction hv : j-i using Nat.strong_induction_on generalizing i s with
  | _ v ih =>
    have h28 := h.r28
    have h29 := h.r29
    have h30 := h.r30
    have hij := h.split.le
    have hlt := h.split.lt
    have hle := J.hi_le
    refine reaches_unless (w := 29) (by norm_num) h.pc rfl rfl rfl (fun h0 => ?_) fun h0 => ?_
    swap
    · have hend : ¬(s.r 28).toNat < (s.r 29).toNat := of_decide_eq_false h0
      exact .here ⟨i,le_rfl,h.goto ⟨rfl,rfl,rfl,rfl⟩ rfl rfl rfl rfl,rfl,.inl (by omega)⟩
    have hgo : (s.r 28).toNat < (s.r 29).toNat := of_decide_eq_true h0
    have hread : (s.mem (cell (s.r 28))).toNat = entry s.mem i := by rw [entry_cell (by omega), h28]
    refine reaches_block [⟨.LOAD,3,0,.reg 28⟩] (n := 24) (by decide) rfl ⟨_,rfl⟩ (by decide) rfl fun hpc => ?_
    refine reaches_unless (n := 25) (w := 29) (by norm_num) hpc rfl rfl rfl (fun h1 => ?_) fun h1 => ?_
    · have hsmall : (s.mem (cell (s.r 28))).toNat ≤ (s.r 30).toNat := of_decide_eq_true h1
      refine reaches_block [⟨.ADD,28,28,.imm 1⟩] (n := 27) (by decide) rfl ⟨_,rfl⟩ (by decide) rfl
        fun hpc => ?_
      refine reaches_jump (n := 28) (by norm_num) hpc rfl ?_
      have hup : (s.r 28+1).toNat = i+1 := by rw [SetInte.toNat_succ (n := 8192) (by omega) (by norm_num), h28]
      refine Reaches.mono (ih (j-(i+1)) (by omega) ?_ rfl) fun t ht => ?_
      · exact h.move ⟨rfl,rfl,rfl,rfl⟩ rfl rfl hup h29 (h.split.up (by omega) (by omega))
      · obtain ⟨i', hi', hin, hmem, hstop⟩ := ht
        exact ⟨i',by omega,hin,hmem,hstop⟩
    · have hlarge : ¬(s.mem (cell (s.r 28))).toNat ≤ (s.r 30).toNat := of_decide_eq_false h1
      exact .here ⟨i,le_rfl,h.goto ⟨rfl,rfl,rfl,rfl⟩ rfl rfl rfl rfl,rfl,.inr ⟨hread,by omega⟩⟩

lemma Within.exchange_down (h : Within J 19 i j s) (hstop : i = j ∨ (s.r 3).toNat = entry s.mem j) :
    Reaches (step prog) (fun t => Within J 22 i j t ∧ entry t.mem = swap (entry s.mem) i j) s := by
  have h28 := h.r28
  have h29 := h.r29
  have hij := h.split.le
  have hlt := h.split.lt
  have hle := J.hi_le
  have hread : (s.mem (cell (s.r 28))).toNat = entry s.mem i := by rw [entry_cell (by omega), h28]
  have hswap : entry (Function.update (Function.update s.mem (cell (s.r 28)) (s.r 3)) (cell (s.r 29))
      (s.mem (cell (s.r 28)))) = swap (entry s.mem) i j := by
    rw [entry_update (by omega), entry_update (by omega), hread, h28, h29]
    exact update_update hstop
  refine reaches_block [⟨.LOAD,4,0,.reg 28⟩,⟨.STORE,3,0,.reg 28⟩,⟨.STORE,4,0,.reg 29⟩] (n := 19) (by decide)
    h.pc ⟨_,rfl⟩ (by decide) rfl fun hpc => ?_
  exact .here ⟨h.exchange ⟨rfl,rfl,rfl,rfl⟩ hswap hpc rfl rfl,hswap⟩

lemma Within.exchange_up (h : Within J 29 i j s) (hstop : i = j ∨ (s.r 3).toNat = entry s.mem i) :
    Reaches (step prog) (fun t => Within J 10 i j t ∧ entry t.mem = swap (entry s.mem) i j) s := by
  have h28 := h.r28
  have h29 := h.r29
  have hij := h.split.le
  have hlt := h.split.lt
  have hle := J.hi_le
  have hread : (s.mem (cell (s.r 29))).toNat = entry s.mem j := by rw [entry_cell (by omega), h29]
  have hswap : entry (Function.update (Function.update s.mem (cell (s.r 29)) (s.r 3)) (cell (s.r 28))
      (s.mem (cell (s.r 29)))) = swap (entry s.mem) i j := by
    rw [entry_update (by omega), entry_update (by omega), hread, h28, h29, swap_comm]
    exact update_update (hstop.imp_left Eq.symm)
  refine reaches_block [⟨.LOAD,4,0,.reg 29⟩,⟨.STORE,3,0,.reg 29⟩,⟨.STORE,4,0,.reg 28⟩] (n := 29) (by decide)
    h.pc ⟨_,rfl⟩ (by decide) rfl fun hpc => ?_
  refine reaches_jump (n := 32) (by norm_num) hpc rfl (.here ⟨?_,hswap⟩)
  exact h.exchange ⟨rfl,rfl,rfl,rfl⟩ hswap rfl rfl rfl

/-- A pass of the loop at 10: the pivot moves to the upper cursor and back to the lower one. -/
lemma Within.pass (h : Within J 10 i j s) (hx : entry s.mem i = J.x) :
    Reaches (step prog) (fun t => (∃ p, Within J 33 p p t ∧ entry t.mem p = J.x) ∨
      ∃ w < j-i, ∃ i' j', j'-i' = w ∧ Within J 10 i' j' t ∧ entry t.mem i' = J.x) s := by
  have h28 := h.r28
  have h29 := h.r29
  refine reaches_if (w := 33) (by norm_num) h.pc rfl rfl rfl (fun h0 => ?_) fun h0 => ?_
  · have heq : s.r 29 = s.r 28 := of_decide_eq_true h0
    obtain rfl : i = j := by rw [← h28, ← h29, heq]
    exact .here (.inl ⟨i,h.goto ⟨rfl,rfl,rfl,rfl⟩ rfl rfl rfl rfl,hx⟩)
  have hne : i ≠ j := by
    rintro rfl
    exact of_decide_eq_false h0 (BitVec.eq_of_toNat_eq (h29.trans h28.symm))
  have hij := h.split.le
  have hstart : Within J 12 i j { s with pc := BitVec.ofNat 32 12, flag := false } :=
    h.goto ⟨rfl,rfl,rfl,rfl⟩ rfl rfl rfl rfl
  refine hstart.down.trans fun t ⟨j', hj', ht, hmem, hstop⟩ => ?_
  rw [← hmem] at hstop
  refine (ht.exchange_down (hstop.imp_right And.left)).trans fun u ⟨hu, hswap⟩ => ?_
  have hux : entry u.mem j' = J.x := by
    rw [hswap, swap_right, hmem]
    exact hx
  refine hu.up.trans fun v ⟨i', hi', hv, hmem', hstop'⟩ => ?_
  have hij' := hv.split.le
  -- either the upper cursor has moved, or the lower one has been given a smaller entry
  have hless : j'-i' < j-i := by
    obtain rfl | ⟨-, hsmall⟩ := hstop
    · omega
    · obtain rfl | ⟨-, hlarge⟩ := hstop'
      · omega
      · have hmoved : i' ≠ i := by
          rintro rfl
          rw [hswap, swap_left] at hlarge
          omega
        omega
  rw [← hmem'] at hstop'
  refine (hv.exchange_up (hstop'.imp_right And.left)).mono fun w ⟨hw, hswap'⟩ => .inr ⟨_,hless,i',j',rfl,hw,?_⟩
  rw [hswap', swap_left, hmem', hux]

/-- The partition from 7 to 33. -/
lemma partition_run (hpc : s.pc = BitVec.ofNat 32 7) (h0 : (s.r 0).toNat = J.lo) (h1 : (s.r 1).toNat+1 = J.hi)
    (h16 : (s.r 16).toNat = J.sp) (hlt : J.lo < J.hi) (hx : J.f J.lo = J.x) (hf : entry s.mem = J.f) :
    Reaches (step prog) (fun t => ∃ p, Within J 33 p p t ∧ entry t.mem p = J.x) s := by
  have hle := J.hi_le
  have hread : (s.mem (cell (s.r 0))).toNat = J.x := by rw [entry_cell (by omega), hf, h0, hx]
  refine reaches_block [⟨.LOAD,30,0,.reg 0⟩,⟨.MOV,28,0,.reg 0⟩,⟨.MOV,29,0,.reg 1⟩] (n := 7) (by decide)
    hpc ⟨_,rfl⟩ (by decide) rfl fun hpc => ?_
  refine Reaches.loop (wellFounded_lt (α := ℕ))
    (I := fun v t => ∃ i j, j-i = v ∧ Within J 10 i j t ∧ entry t.mem i = J.x) (fun v t ⟨i, j, hv, ht, hi⟩ => ?_)
    (i := J.hi-1-J.lo) ⟨J.lo,J.hi-1,rfl,⟨hpc,h0,h1,h16,h0,?_,hread,⟨le_rfl,?_,?_,?_,?_⟩,?_,?_⟩,?_⟩
  · exact hv ▸ ht.pass hi
  · change (s.r 1).toNat = J.hi-1
    omega
  · omega
  · omega
  · intro k hk hk'
    omega
  · intro k hk hk'
    omega
  · change range (entry s.mem) J.lo J.hi = range J.f J.lo J.hi
    rw [hf]
  · intro k _
    exact congrFun hf k
  · exact (congrFun hf J.lo).trans hx

end partition

/-! ## The stack -/

section stack
variable {s t : State} {sp n : ℕ} {ret : Word}

/-- A frame has been pushed at `sp`. -/
structure Pushed (ret : Word) (sp : ℕ) (s t : State) : Prop where
  reg : ∀ k, k ≠ 15 → k ≠ 16 → t.r k = s.r k
  r16 : (t.r 16).toNat = sp-4
  ret : entry t.mem (sp-4) = ret.toNat
  r28 : entry t.mem (sp-3) = (s.r 28).toNat
  r1 : entry t.mem (sp-2) = (s.r 1).toNat
  r0 : entry t.mem (sp-1) = (s.r 0).toNat
  frame : ∀ k, k < sp-4 ∨ sp ≤ k → entry t.mem k = entry s.mem k

lemma push_run (ret : Word) (hn : n+9 < 2^32) (hat : push ret <+: prog.drop n) (hpc : s.pc = BitVec.ofNat 32 n)
    (h16 : (s.r 16).toNat = sp) (hsp : 4 ≤ sp) (hle : sp ≤ 8192) :
    Reaches (step prog) (fun t => t.pc = BitVec.ofNat 32 (n+9) ∧ Pushed ret sp s t) s := by
  have h1 : (s.r 16-1).toNat = sp-1 := by rw [toNat_pred (by omega), h16]
  have h2 : (s.r 16-1-1).toNat = sp-2 := by rw [toNat_pred (by omega), h1, Nat.sub_sub]
  have h3 : (s.r 16-1-1-1).toNat = sp-3 := by rw [toNat_pred (by omega), h2, Nat.sub_sub]
  have h4 : (s.r 16-1-1-1-1).toNat = sp-4 := by rw [toNat_pred (by omega), h3, Nat.sub_sub]
  have hmem : entry (Function.update (Function.update (Function.update (Function.update s.mem (cell (s.r 16-1))
      (s.r 0)) (cell (s.r 16-1-1)) (s.r 1)) (cell (s.r 16-1-1-1)) (s.r 28)) (cell (s.r 16-1-1-1-1)) ret) =
      Function.update (Function.update (Function.update (Function.update (entry s.mem) (sp-1) (s.r 0).toNat) (sp-2)
        (s.r 1).toNat) (sp-3) (s.r 28).toNat) (sp-4) ret.toNat := by
    rw [entry_update (by omega), entry_update (by omega), entry_update (by omega), entry_update (by omega), h1, h2,
      h3, h4]
  refine reaches_block _ hn hpc hat ?_ rfl fun hpc => .here ⟨hpc,?_,h4,?_,?_,?_,?_,?_⟩
  · simp [push, Instr.straight]
  · intro k h15 h16
    simp [State.write, State.store, h15, h16]
  · exact (congrFun hmem _).trans (Function.update_self _ _ _)
  · refine (congrFun hmem _).trans ?_
    rw [Function.update_of_ne (by omega), Function.update_self]
  · refine (congrFun hmem _).trans ?_
    rw [Function.update_of_ne (by omega), Function.update_of_ne (by omega), Function.update_self]
  · refine (congrFun hmem _).trans ?_
    rw [Function.update_of_ne (by omega), Function.update_of_ne (by omega), Function.update_of_ne (by omega),
      Function.update_self]
  · intro k hk
    refine (congrFun hmem _).trans ?_
    rw [Function.update_of_ne (by omega), Function.update_of_ne (by omega), Function.update_of_ne (by omega),
      Function.update_of_ne (by omega)]

/-- A frame has been popped at `sp`. -/
structure Returned (f : ℕ → ℕ) (sp : ℕ) (t : State) : Prop where
  pc : t.pc.toNat = f sp
  r28 : (t.r 28).toNat = f (sp+1)
  r1 : (t.r 1).toNat = f (sp+2)
  r0 : (t.r 0).toNat = f (sp+3)
  r16 : (t.r 16).toNat = sp+4

/-- A register has been popped at `sp`. -/
structure Popped (k : Fin 32) (sp : ℕ) (s t : State) : Prop where
  mem : t.mem = s.mem
  reg : ∀ i, i ≠ k → i ≠ 16 → t.r i = s.r i
  rk : (t.r k).toNat = entry s.mem sp
  r16 : (t.r 16).toNat = sp+1

lemma pop_one {k : Fin 32} (hn : n+2 < 2^32) (hat : [⟨.LOAD,k,0,.reg 16⟩,⟨.ADD,16,16,.imm 1⟩] <+: prog.drop n)
    (hpc : s.pc = BitVec.ofNat 32 n) (hk : k ≠ 16) (h16 : (s.r 16).toNat = sp) (hle : sp < 8192) :
    Reaches (step prog) (fun t => t.pc = BitVec.ofNat 32 (n+2) ∧ Popped k sp s t) s := by
  have h16' : Function.update s.r k (s.mem (cell (s.r 16))) 16 = s.r 16 := Function.update_of_ne hk.symm _ _
  have hread : (s.mem (cell (s.r 16))).toNat = entry s.mem sp := by rw [entry_cell (by omega), h16]
  refine reaches_block _ hn hpc hat (by simp [Instr.straight]) rfl fun hpc =>
    .here ⟨hpc,rfl,fun i hi hi' => ?_,?_,?_⟩
  · exact (Function.update_of_ne hi' _ _).trans (Function.update_of_ne hi _ _)
  · exact (congrArg BitVec.toNat ((Function.update_of_ne hk _ _).trans (Function.update_self _ _ _))).trans hread
  · change (Function.update s.r k (s.mem (cell (s.r 16))) 16+1).toNat = sp+1
    rw [h16', SetInte.toNat_succ (n := 8192) (by omega) (by norm_num), h16]

lemma pop_run (hpc : s.pc = BitVec.ofNat 32 55) (h16 : (s.r 16).toNat = sp) (hle : sp+4 ≤ 8192) :
    Reaches (step prog) (fun t => Returned (entry s.mem) sp t ∧ t.mem = s.mem) s := by
  refine (pop_one (k := 31) (n := 55) (by norm_num) ⟨_,rfl⟩ hpc (by decide) h16 (by omega)).trans
    fun t ⟨hpc, ht⟩ => ?_
  refine (pop_one (k := 28) (n := 57) (by norm_num) ⟨_,rfl⟩ hpc (by decide) ht.r16 (by omega)).trans
    fun u ⟨hpc, hu⟩ => ?_
  refine (pop_one (k := 1) (n := 59) (by norm_num) ⟨_,rfl⟩ hpc (by decide) hu.r16 (by omega)).trans
    fun v ⟨hpc, hv⟩ => ?_
  refine (pop_one (k := 0) (n := 61) (by norm_num) ⟨_,rfl⟩ hpc (by decide) hv.r16 (by omega)).trans
    fun w ⟨hpc, hw⟩ => ?_
  have hmem : w.mem = s.mem := by rw [hw.mem, hv.mem, hu.mem, ht.mem]
  have h31 : w.r 31 = t.r 31 := by
    rw [hw.reg 31 (by decide) (by decide), hv.reg 31 (by decide) (by decide), hu.reg 31 (by decide) (by decide)]
  have h28 : w.r 28 = u.r 28 := by rw [hw.reg 28 (by decide) (by decide), hv.reg 28 (by decide) (by decide)]
  have h1 : w.r 1 = v.r 1 := hw.reg 1 (by decide) (by decide)
  have hr28 := hu.rk
  have hr1 := hv.rk
  have hr0 := hw.rk
  rw [ht.mem] at hr28
  rw [hu.mem, ht.mem] at hr1
  rw [hv.mem, hu.mem, ht.mem] at hr0
  refine reaches_jump (n := 63) (by norm_num) hpc rfl (.here ⟨⟨?_,h28 ▸ hr28,h1 ▸ hr1,hr0,hw.r16⟩,hmem⟩)
  exact (congrArg BitVec.toNat h31).trans ht.rk

end stack

/-! ## The sort -/

section call
variable {s t : State} {lo hi sp d : ℕ}

/-- The sort is called for a range, with room on the stack for a depth of `d`. -/
structure Call (lo hi sp d : ℕ) (s : State) : Prop where
  pc : s.pc = BitVec.ofNat 32 5
  r0 : (s.r 0).toNat = lo
  r1 : (s.r 1).toNat+1 = hi
  r16 : (s.r 16).toNat = sp
  pos : 1 ≤ lo
  le : lo ≤ hi
  size : hi ≤ lo+d+1
  room : hi+4*d ≤ sp
  sp_le : sp+4 ≤ 8192

/-- The range is sorted, and nothing else has changed but free cells of the stack. -/
structure Sorts (f : ℕ → ℕ) (lo hi sp d : ℕ) (t : State) : Prop where
  ret : Returned f sp t
  sorted : Sorted (entry t.mem) lo hi
  perm : range (entry t.mem) lo hi = range f lo hi
  frame : ∀ k, k < lo ∨ hi ≤ k → k+4*d < sp ∨ sp ≤ k → entry t.mem k = f k

lemma Returned.congr {f g : ℕ → ℕ} (h : Returned f sp t) (hfg : ∀ k, sp ≤ k → f k = g k) : Returned g sp t :=
  ⟨h.pc.trans (hfg _ (by omega)),h.r28.trans (hfg _ (by omega)),h.r1.trans (hfg _ (by omega)),
    h.r0.trans (hfg _ (by omega)),h.r16⟩

/-- A range of at most one cell is sorted. -/
lemma Call.small (h : Call lo hi sp d s) (hsmall : (s.r 1).toNat ≤ (s.r 0).toNat) {u : State}
    (hpc : u.pc = BitVec.ofNat 32 55) (h16 : u.r 16 = s.r 16) (hmem : u.mem = s.mem) :
    Reaches (step prog) (Sorts (entry s.mem) lo hi sp d) u := by
  have h0 := h.r0
  have h1 := h.r1
  refine (pop_run hpc (h16 ▸ h.r16) h.sp_le).mono fun t ⟨hret, hkeep⟩ => ?_
  rw [hmem] at hret hkeep
  rw [← hkeep] at hret ⊢
  exact ⟨hret,fun a b ha hab hb => by rw [(by omega : a = b)],rfl,fun k _ _ => rfl⟩

/-- A recursive call has sorted a part of the range and restored the registers. -/
structure SortedPart (ret : Word) (lo hi sp d : ℕ) (s t : State) : Prop where
  pc : t.pc = ret
  r28 : t.r 28 = s.r 28
  r1 : t.r 1 = s.r 1
  r0 : t.r 0 = s.r 0
  r16 : (t.r 16).toNat = sp
  sorted : Sorted (entry t.mem) lo hi
  perm : range (entry t.mem) lo hi = range (entry s.mem) lo hi
  frame : ∀ k, k < lo ∨ hi ≤ k → k+4*(d+1) < sp ∨ sp ≤ k → entry t.mem k = entry s.mem k

lemma Sorts.part {ret : Word} {u v : State} (hu : Pushed ret sp s u) (hv : Sorts (entry u.mem) lo hi (sp-4) d v)
    (hroom : hi+4*(d+1) ≤ sp) : SortedPart ret lo hi sp d s v where
  pc := BitVec.eq_of_toNat_eq (hv.ret.pc.trans hu.ret)
  r28 := BitVec.eq_of_toNat_eq (hv.ret.r28.trans (by rw [(by omega : sp-4+1 = sp-3), hu.r28]))
  r1 := BitVec.eq_of_toNat_eq (hv.ret.r1.trans (by rw [(by omega : sp-4+2 = sp-2), hu.r1]))
  r0 := BitVec.eq_of_toNat_eq (hv.ret.r0.trans (by rw [(by omega : sp-4+3 = sp-1), hu.r0]))
  r16 := by rw [hv.ret.r16, Nat.sub_add_cancel (by omega)]
  sorted := hv.sorted
  perm := hv.perm.trans (range_congr fun k _ hk => hu.frame k (by omega))
  frame k hk hk' := (hv.frame k hk (by omega)).trans (hu.frame k (by omega))

lemma call_sorts {f : ℕ → ℕ} (h : Call lo hi sp d s) (hf : entry s.mem = f) :
    Reaches (step prog) (Sorts f lo hi sp d) s := by
  induction d generalizing s lo hi sp f with
  | zero =>
    subst hf
    have h0 := h.r0
    have h1 := h.r1
    have hsize := h.size
    refine reaches_if (w := 55) (by norm_num) h.pc rfl rfl rfl (fun hc => ?_) fun hc => ?_
    · exact h.small (of_decide_eq_true hc) rfl rfl rfl
    · have hlarge : ¬(s.r 1).toNat ≤ (s.r 0).toNat := of_decide_eq_false hc
      omega
  | succ d ih =>
    subst hf
    have hcall := h
    obtain ⟨hpc, h0, h1, h16, hpos, hle, hsize, hroom, hsp⟩ := hcall
    refine reaches_if (w := 55) (by norm_num) hpc rfl rfl rfl (fun hc => ?_) fun hc => ?_
    · exact h.small (of_decide_eq_true hc) rfl rfl rfl
    have hlarge : ¬(s.r 1).toNat ≤ (s.r 0).toNat := of_decide_eq_false hc
    let J : Job := ⟨entry s.mem,lo,hi,sp,entry s.mem lo,by omega⟩
    have hlt : J.lo < J.hi := show lo < hi by omega
    refine Reaches.trans (partition_run (J := J) rfl h0 h1 h16 hlt rfl rfl) fun t ⟨p, ht, hx⟩ => ?_
    have hlo : lo ≤ p := ht.split.lo_le
    have hhi : p < hi := ht.split.lt
    have hp := ht.r28
    have h16 : (t.r 16).toNat = sp := ht.r16
    -- the cells before the pivot
    refine (push_run 44 (n := 33) (by norm_num) ⟨_,rfl⟩ ht.pc h16 (by omega) (by omega)).trans
      fun u ⟨hpc, hu⟩ => ?_
    refine reaches_block [⟨.SUB,1,28,.imm 1⟩] (n := 42) (by decide) hpc ⟨_,rfl⟩ (by decide) rfl fun hpc => ?_
    refine reaches_jump (n := 43) (by norm_num) hpc rfl ?_
    have hu28 : (u.r 28).toNat = p := by rw [hu.reg 28 (by decide) (by decide), hp]
    have hpred : (u.r 28-1).toNat+1 = p := by
      rw [toNat_pred (by omega), hu28]
      omega
    have hu0 : (u.r 0).toNat = lo := by
      rw [hu.reg 0 (by decide) (by decide)]
      exact ht.r0
    refine Reaches.trans (P := Sorts (entry u.mem) lo p (sp-4) d)
      (ih ⟨rfl,hu0,hpred,hu.r16,hpos,hlo,by omega,by omega,by omega⟩ rfl) fun v hv => ?_
    have hleft : SortedPart 44 lo p sp d t v := hv.part hu (by omega)
    -- the cells after the pivot
    refine (push_run 55 (n := 44) (by norm_num) ⟨_,rfl⟩ hleft.pc hleft.r16 (by omega) (by omega)).trans
      fun w ⟨hpc, hw⟩ => ?_
    refine reaches_block [⟨.ADD,0,28,.imm 1⟩] (n := 53) (by decide) hpc ⟨_,rfl⟩ (by decide) rfl fun hpc => ?_
    refine reaches_jump (n := 54) (by norm_num) hpc rfl ?_
    have hw28 : (w.r 28).toNat = p := by rw [hw.reg 28 (by decide) (by decide), hleft.r28, hp]
    have hsucc : (w.r 28+1).toNat = p+1 := by
      rw [SetInte.toNat_succ (n := 8192) (by omega) (by norm_num), hw28]
    have hw1 : (w.r 1).toNat+1 = hi := by
      rw [hw.reg 1 (by decide) (by decide), hleft.r1]
      exact ht.r1
    refine Reaches.trans (P := Sorts (entry w.mem) (p+1) hi (sp-4) d)
      (ih ⟨rfl,hsucc,hw1,hw.r16,by omega,hhi,by omega,by omega,by omega⟩ rfl) fun y hy => ?_
    have hright : SortedPart 55 (p+1) hi sp d v y := hy.part hw (by omega)
    refine (pop_run hright.pc hright.r16 hsp).mono fun z ⟨hret, hmem⟩ => ?_
    have hframe : ∀ k, k < lo ∨ hi ≤ k → k+4*(d+1) < sp ∨ sp ≤ k → entry y.mem k = entry s.mem k := by
      intro k hk hk'
      rw [hright.frame k (by omega) hk', hleft.frame k (by omega) hk']
      exact ht.frame k hk
    have hsame : range (entry y.mem) lo p = range (entry t.mem) lo p := by
      rw [← hleft.perm]
      exact range_congr fun k _ hk => hright.frame k (by omega) (by omega)
    have hmid : entry y.mem p = entry t.mem p := by
      rw [hright.frame p (by omega) (by omega), hleft.frame p (by omega) (by omega)]
    have hafter : range (entry y.mem) (p+1) hi = range (entry t.mem) (p+1) hi := by
      rw [hright.perm]
      exact range_congr fun k hk hk' => hleft.frame k (by omega) (by omega)
    have hsorted : Sorted (entry y.mem) lo p := fun a b ha hab hb => by
      rw [hright.frame a (by omega) (by omega), hright.frame b (by omega) (by omega)]
      exact hleft.sorted a b ha hab hb
    obtain ⟨hall, hperm⟩ := ht.split.join hx hsame hmid hafter hsorted hright.sorted
    have hret' : Returned (entry s.mem) sp z := hret.congr fun k hk => hframe k (by omega) (by omega)
    rw [← hmem] at hframe hall hperm
    exact ⟨hret',hall,hperm.trans ht.perm,hframe⟩

end call

/-- The program sorts the cells from `lo` to `hi`, which is left out, with its stack below cell 512. The cell
before the range has to exist: the bound of an empty range is the index before its first cell. -/
theorem program_sorts (mem tape1 : ℕ → Word) (lo hi : ℕ) (hlo : (tape1 0).toNat = lo)
    (hhi : (tape1 1).toNat+1 = hi) (hpos : 1 ≤ lo) (hle : lo ≤ hi) (hroom : hi+4*(hi-1-lo) ≤ 512) :
    let s := start mem tape1
    Reaches (step prog) (fun t => (∃ x, prog[t.pc.toNat]? = some x ∧ x.op = .ANSWER) ∧
      Sorted (entry t.mem) lo hi ∧ range (entry t.mem) lo hi = range (entry s.mem) lo hi ∧
      ∀ k, k < lo ∨ hi ≤ k → k+4*(hi-1-lo) < 512 ∨ 512 < k → entry t.mem k = entry s.mem k) s := by
  intro s
  refine reaches_block [⟨.READ,0,0,.imm 0⟩,⟨.READ,1,0,.imm 0⟩,⟨.MOV,16,0,.imm 512⟩,
    ⟨.MOV,15,0,.imm 64⟩,⟨.STORE,15,0,.reg 16⟩] (n := 0) (by decide) rfl ⟨_,rfl⟩ (by decide) rfl fun hpc => ?_
  have hmem : entry (Function.update s.mem (cell 512) 64) = Function.update (entry s.mem) 512 64 :=
    entry_update (by decide) 64
  refine Reaches.mono (P := Sorts (Function.update (entry s.mem) 512 64) lo hi 512 (hi-1-lo))
    (call_sorts ⟨hpc,hlo,hhi,rfl,hpos,hle,by omega,hroom,by norm_num⟩ hmem) fun t ht => ?_
  have hother : ∀ k, k ≠ 512 → Function.update (entry s.mem) 512 64 k = entry s.mem k := fun k hk =>
    Function.update_of_ne hk _ _
  have hpc : t.pc.toNat = 64 := ht.ret.pc.trans (Function.update_self _ _ _)
  refine ⟨⟨⟨.ANSWER,0,0,.imm 0⟩,by rw [hpc]; rfl,rfl⟩,ht.sorted,?_,fun k hk hk' => ?_⟩
  · rw [ht.perm]
    exact range_congr fun k _ hk => hother k (by omega)
  · rw [ht.frame k hk (by omega), hother k (by omega)]

/-- The values 3, 1, 2. -/
theorem program_sorts_small : Reaches (step prog) (fun t => Sorted (entry t.mem) 1 4 ∧
    range (entry t.mem) 1 4 = {1,2,3}) (start (fun k => [3,1,2].getD (k-65) 0) (fun k => [1,3].getD k 0)) := by
  refine (program_sorts (fun k => [3,1,2].getD (k-65) 0) (fun k => [1,3].getD k 0) 1 4 rfl rfl (by norm_num)
    (by norm_num) (by norm_num)).mono fun t ⟨_, hsorted, hperm, _⟩ => ⟨hsorted,hperm.trans ?_⟩
  decide

end Isa.BinarySort

end OramPro
