import OramPro.Ram

/-!
# The memory that the 32-bit evaluator touches

The evaluator is run together with a log of its accesses to `res`, to the correction words and to
`s_array`. The number of levels comes from `logn`, the number of correction words and the size of
`s_array` from the number of levels, and the number of results from the length of the memory.
-/
namespace OramPro

open HeapRing

/-- A write to `res[i]`, a read of `cw[t][i]`, and an access to sixteen bytes of `s_array`. -/
inductive Touch
  | res (i : ℕ)
  | cw (i : ℕ)
  | block (m : ℕ)
  deriving DecidableEq

structure Traced (ρ : Type*) where
  scan : Scan ρ
  log : List Touch

section trace
variable {ρ : Type*} (f : Fss) (k : ServerKeyEq) (leaf : Block × Bool → ρ) (lens : ℕ)

/-- The accesses of one turn of the inner loop at level `i`. -/
def stepLog (i : ℕ) (st : Scan ρ) : List Touch :=
  if st.done then []
  else
    let ptr := st.ring.ptr
    if i = f.numBits-1 then
      let kids := child f.prg fun t => k.cw t (i-1)
      let st' := put lens st (leaf (kids (current arraySlots st.ring) false))
      [.block (ptr%arraySlots),.cw (i-1),.res st.res.length] ++
        if st'.done then [] else [.cw (i-1),.res st'.res.length]
    else
      [.block (ptr%arraySlots),.cw (i-1),.block ((2*ptr+2)%arraySlots),.cw (i-1),
        .block ((2*ptr+3)%arraySlots)]

def tracedStep (i : ℕ) (st : Traced ρ) : Traced ρ :=
  ⟨scanStep f k leaf lens i st.scan,st.log ++ stepLog f k leaf lens i st.scan⟩

def tracedLevel (st : Traced ρ) (i : ℕ) : Traced ρ := (tracedStep f k leaf lens i)^[2^i%2^32] st

/-- The evaluator with the log of its accesses, which starts with the two root seeds. -/
def evaluateEqTrace : Traced ρ :=
  (List.range' 1 f.numBits).foldl (tracedLevel f k leaf lens) ⟨scanStart k,[.block 0,.block 1]⟩

end trace

/-- The log of `evaluateEq` into a `uint32_t` array. -/
def accesses (f : Fss) (k : ServerKeyEq) (lens : ℕ) : List Touch :=
  (evaluateEqTrace f k (leaf32 (BitVec.ofNat 32 k.w)) lens).log

def written : Touch → Option ℕ
  | .res i => some i
  | _ => none

/-- All of `res` is written in order, and every other access stays inside what was allocated. -/
structure Safe (f : Fss) (k : ServerKeyEq) (lens : ℕ) : Prop where
  res : (accesses f k lens).filterMap written = List.range lens
  cw : ∀ i, .cw i ∈ accesses f k lens → i+2 ≤ f.numBits
  block : ∀ m, .block m ∈ accesses f k lens → m < 2*2^f.numBits

section trace
variable {ρ : Type*} {f : Fss} {k : ServerKeyEq} {leaf : Block × Bool → ρ} {lens : ℕ}

lemma tracedStep_iterate (i c : ℕ) (st : Traced ρ) :
    ((tracedStep f k leaf lens i)^[c] st).scan = (scanStep f k leaf lens i)^[c] st.scan := by
  induction c generalizing st with
  | zero => rfl
  | succ c ih => exact ih (tracedStep f k leaf lens i st)

/-- The log does not change what is computed. -/
lemma tracedLevels_scan (levels : List ℕ) (st : Traced ρ) :
    (levels.foldl (tracedLevel f k leaf lens) st).scan =
      levels.foldl (scanLevel f k leaf lens) st.scan := by
  induction levels generalizing st with
  | nil => rfl
  | cons i levels ih =>
    rw [List.foldl_cons, List.foldl_cons, ih, tracedLevel, tracedStep_iterate, scanLevel]

lemma tracedStep_done {st : Traced ρ} (hd : st.scan.done = true) (i : ℕ) :
    tracedStep f k leaf lens i st = st := by
  simp [tracedStep, scanStep, stepLog, hd]

lemma tracedLevel_done {st : Traced ρ} (hd : st.scan.done = true) (i : ℕ) :
    tracedLevel f k leaf lens st i = st :=
  Function.iterate_fixed (tracedStep_done hd i) _

/-! ## The results are written one after the other -/

lemma put_res (st : Scan ρ) (ans : ρ) (hd : st.done = false) :
    (put lens st ans).res = st.res ++ [ans] := by simp [put, hd]

lemma step_written (i : ℕ) (st : Scan ρ) : List.range st.res.length ++
    (stepLog f k leaf lens i st).filterMap written =
      List.range (scanStep f k leaf lens i st).res.length := by
  by_cases hd : st.done = true
  · simp [stepLog, scanStep, hd]
  · rw [Bool.not_eq_true] at hd
    by_cases hi : i = f.numBits-1
    · simp only [stepLog, scanStep, hd, hi, Bool.false_eq_true, if_false, if_true]
      generalize leaf (child f.prg (fun t => k.cw t (f.numBits-1-1))
        (current arraySlots st.ring) false) = a
      generalize leaf (child f.prg (fun t => k.cw t (f.numBits-1-1))
        (current arraySlots st.ring) true) = b
      by_cases h1 : (put lens st a).done = true
      · have he : put lens (put lens st a) b = put lens st a := if_pos h1
        rw [he, if_pos h1, List.append_nil, put_res st a hd, List.length_append]
        exact List.range_succ.symm
      · have h2 : (put lens (put lens st a) b).res.length = st.res.length+1+1 := by
          rw [put_res _ b (Bool.not_eq_true _ ▸ h1), put_res st a hd, List.length_append,
            List.length_append]
          rfl
        have h3 : (put lens st a).res.length = st.res.length+1 := by
          rw [put_res st a hd, List.length_append]
          rfl
        rw [if_neg h1, h2, h3, List.range_succ, List.range_succ, List.append_assoc]
        rfl
    · simp [stepLog, scanStep, hd, hi, written]

/-- The log names the results that are stored. -/
def Logged (st : Traced ρ) : Prop := st.log.filterMap written = List.range st.scan.res.length

lemma Logged.step {st : Traced ρ} (h : Logged st) (i : ℕ) :
    Logged (tracedStep f k leaf lens i st) := by
  rw [Logged, tracedStep, List.filterMap_append, h]
  exact step_written i st.scan

lemma trace_logged : Logged (evaluateEqTrace f k leaf lens) := by
  have hiter : ∀ i c (st : Traced ρ), Logged st → Logged ((tracedStep f k leaf lens i)^[c] st) := by
    intro i c
    induction c with
    | zero => exact fun _ h => h
    | succ c ih => exact fun st h => ih _ (h.step i)
  have hfold : ∀ (levels : List ℕ) (st : Traced ρ), Logged st →
      Logged (levels.foldl (tracedLevel f k leaf lens) st) := by
    intro levels
    induction levels with
    | nil => exact fun _ h => h
    | cons i levels ih => exact fun st h => ih _ (hiter i _ st h)
  exact hfold _ _ rfl

/-! ## The other accesses stay inside -/

def Touch.Inside (n : ℕ) : Touch → Prop
  | .res _ => True
  | .cw i => i+2 ≤ n
  | .block m => m < 2*2^n

/-- After `j` turns at level `i`, unless everything is stored. -/
structure Within (f : Fss) (i j : ℕ) (st : Traced ρ) : Prop where
  ptr : st.scan.done = false → st.scan.ring.ptr = 2^i-2+j
  log : ∀ a ∈ st.log, a.Inside f.numBits

lemma put_ring (st : Scan ρ) (ans : ρ) : (put lens st ans).ring = st.ring := by
  unfold put
  split <;> rfl

/-- Unless it is done, a turn moves the read position by one. -/
lemma tracedStep_ptr {st : Traced ρ} (hd : st.scan.done = false) (i : ℕ) :
    (tracedStep f k leaf lens i st).scan.ring.ptr = st.scan.ring.ptr+1 := by
  by_cases hlast : i = f.numBits-1
  · simp only [tracedStep, scanStep, hd, hlast, Bool.false_eq_true, if_false, if_true, put_ring, drop_ptr]
  · simp only [tracedStep, scanStep, hd, hlast, Bool.false_eq_true, if_false, expand_ptr]

/-- What a turn at level `i` touches lies inside, if the read position is one of that level. -/
lemma stepLog_inside {st : Scan ρ} {i : ℕ} (hd : st.done = false) (h1 : 1 ≤ i) (hi : i+1 ≤ f.numBits)
    (hptr : st.ring.ptr < 2^(i+1)-2) {a : Touch} (ha : a ∈ stepLog f k leaf lens i st) :
    a.Inside f.numBits := by
  have hpow : 2^(i+1) ≤ 2^f.numBits := Nat.pow_le_pow_right (by norm_num) hi
  have hmod : ∀ m, m%arraySlots ≤ m := fun m => Nat.mod_le _ _
  have h0 := hmod st.ring.ptr
  have hcw : (Touch.cw (i-1)).Inside f.numBits := by simp only [Touch.Inside]; omega
  have hblock : (Touch.block (st.ring.ptr%arraySlots)).Inside f.numBits := by
    simp only [Touch.Inside]
    omega
  by_cases hlast : i = f.numBits-1
  · simp only [stepLog, hd, Bool.false_eq_true, if_false, if_pos hlast, List.mem_append,
      List.mem_cons, List.not_mem_nil, or_false] at ha
    rcases ha with (rfl | rfl | rfl) | ha
    · exact hblock
    · exact hcw
    · trivial
    · split at ha
      · cases ha
      · rcases List.mem_pair.mp ha with rfl | rfl
        · exact hcw
        · trivial
  · have hpow2 : 2^(i+2) ≤ 2^f.numBits := Nat.pow_le_pow_right (by norm_num) (by omega)
    rw [pow_succ 2 (i+1)] at hpow2
    have hk0 := hmod (2*st.ring.ptr+2)
    have hk1 := hmod (2*st.ring.ptr+3)
    simp only [stepLog, hd, Bool.false_eq_true, if_false, if_neg hlast, List.mem_cons,
      List.not_mem_nil, or_false] at ha
    rcases ha with rfl | rfl | rfl | rfl | rfl
    · exact hblock
    · exact hcw
    · simp only [Touch.Inside]; omega
    · exact hcw
    · simp only [Touch.Inside]; omega

lemma Within.step {st : Traced ρ} {i j : ℕ} (h : Within f i j st) (h1 : 1 ≤ i)
    (hi : i+1 ≤ f.numBits) (hj : j < 2^i) : Within f i (j+1) (tracedStep f k leaf lens i st) := by
  cases hd : st.scan.done with
  | true =>
    rw [tracedStep_done hd i]
    exact ⟨fun h0 => absurd (h0.symm.trans hd) (by decide),h.log⟩
  | false =>
    have hptr := h.ptr hd
    have h2 : 2 ≤ 2^i := by simpa using Nat.pow_le_pow_right (n := 2) (by norm_num) h1
    refine ⟨fun _ => by rw [tracedStep_ptr hd, hptr, Nat.add_assoc],fun a ha => ?_⟩
    rcases List.mem_append.mp ha with ha | ha
    · exact h.log a ha
    · exact stepLog_inside hd h1 hi (by rw [pow_succ 2 i]; omega) ha

lemma Within.level {st : Traced ρ} {i : ℕ} (h : Within f i 0 st) (h1 : 1 ≤ i)
    (hi : i+1 ≤ f.numBits) (h32 : i < 32) :
    Within f (i+1) 0 (tracedLevel f k leaf lens st i) := by
  have hiter : ∀ c ≤ 2^i, Within f i c ((tracedStep f k leaf lens i)^[c] st) := by
    intro c
    induction c with
    | zero => exact fun _ => h
    | succ c ih =>
      intro hc
      rw [Function.iterate_succ_apply']
      exact (ih (by omega)).step h1 hi (by omega)
  have hfin := hiter _ le_rfl
  have h2 : 2 ≤ 2^i := by simpa using Nat.pow_le_pow_right (n := 2) (by norm_num) h1
  rw [tracedLevel, levelCount h32]
  refine ⟨fun hd => ?_,hfin.log⟩
  rw [hfin.ptr hd, pow_succ 2 i]
  omega

lemma within_levels {c : ℕ} (hc : c+1 ≤ f.numBits) (h32 : c < 32) :
    Within f (c+1) 0 ((List.range' 1 c).foldl (tracedLevel f k leaf lens)
      ⟨scanStart k,[.block 0,.block 1]⟩) := by
  induction c with
  | zero =>
    refine ⟨fun _ => rfl,fun a ha => ?_⟩
    have hpos := Nat.two_pow_pos f.numBits
    rcases List.mem_pair.mp ha with rfl | rfl
    · simp only [Touch.Inside]; omega
    · simp only [Touch.Inside]; omega
  | succ c ih =>
    rw [List.range'_concat, List.foldl_append]
    simp only [List.foldl_cons, List.foldl_nil, one_mul, Nat.add_comm 1 c]
    exact (ih (by omega) (by omega)).level (by omega) hc h32

end trace

/-- With two levels or more, the whole log stays inside. -/
lemma accesses_inside {f : Fss} {k : ServerKeyEq} {lens : ℕ} (hn : 2 ≤ f.numBits)
    (h32 : f.numBits ≤ 32) (hpos : 0 < lens) (hl : lens ≤ 2^f.numBits) :
    ∀ a ∈ accesses f k lens, a.Inside f.numBits := by
  have hw := @within_levels _ f k (leaf32 (BitVec.ofNat 32 k.w)) lens (f.numBits-1) (by omega) (by omega)
  have hdone := (@scan_last _ f k (leaf32 (BitVec.ofNat 32 k.w)) lens hn h32 hpos hl).1
  have hfin : ((List.range' 1 (f.numBits-1)).foldl
      (tracedLevel f k (leaf32 (BitVec.ofNat 32 k.w)) lens)
      ⟨scanStart k,[.block 0,.block 1]⟩).scan.done = true := by
    rw [tracedLevels_scan]
    exact hdone
  -- the level after the one that stores the leaves finds everything stored
  have hlevels : List.range' 1 f.numBits = List.range' 1 (f.numBits-1) ++ [1+1*(f.numBits-1)] := by
    rw [← List.range'_concat, Nat.sub_add_cancel (by omega)]
  rw [accesses, evaluateEqTrace, hlevels, List.foldl_append, List.foldl_cons, List.foldl_nil,
    tracedLevel_done hfin]
  exact hw.log

lemma evaluateEq32_written (f : Fss) (k : ServerKeyEq) (lens : ℕ) :
    (accesses f k lens).filterMap written = List.range (evaluateEq32 f k lens).length := by
  have h := @trace_logged _ f k (leaf32 (BitVec.ofNat 32 k.w)) lens
  rw [Logged, evaluateEqTrace, tracedLevels_scan] at h
  exact h

/-- A tree with a single level has no level that stores leaves. -/
lemma evaluateEq32_small {f : Fss} (hn : f.numBits ≤ 1) (k : ServerKeyEq) (lens : ℕ) :
    evaluateEq32 f k lens = [] := by
  rcases Nat.le_one_iff_eq_zero_or_eq_one.mp hn with h | h
  · rw [evaluateEq32, evaluateEqScan, h]
    rfl
  · rw [evaluateEq32, evaluateEqScan, h]
    simp only [List.range'_one, List.foldl_cons, List.foldl_nil]
    rw [scanLevel_expand (by omega) rfl]
    rfl

/-- Two words and zero draws: no result is written, a correction word is read although none was
allocated, and the last two accesses are past the four blocks of `s_array`. -/
theorem evaluateEq32_two_unsafe :
    let f : Fss := ⟨fun _ _ => 0,logn 2,0⟩
    let k := (generateTreeEq32 f 1 1 ⟨0,1,0,0,0⟩ fun _ => ⟨0,0,0,0,0⟩).1
    accesses f k 2 = [.block 0,.block 1,.block 0,.cw 0,.block 2,.cw 0,.block 3,.block 1,.cw 0,
      .block 4,.cw 0,.block 5] ∧ ¬Safe f k 2 := by
  refine ⟨by decide +kernel,fun h => ?_⟩
  have hcw := h.cw 0 (by decide +kernel)
  revert hcw
  decide

/-- `Ram::init` sets `numBits` to `logn(data_len)`. The evaluation of the keys into `res` is safe
exactly for memories of three words or more. -/
theorem evaluateEq32_safe_iff {N : ℕ} (h1 : 1 ≤ N) (h32 : N < 2^32) (prg : ℕ → Block → Block)
    (prime : ℕ) (k : ServerKeyEq) : Safe ⟨prg,logn N,prime⟩ k N ↔ 3 ≤ N := by
  obtain ⟨hle, hlog, hmin⟩ := logn_spec h32.le
  constructor
  · intro h
    by_contra hN
    have hn : logn N ≤ 1 := hmin 1 (by norm_num) (by omega)
    have hw := h.res
    rw [evaluateEq32_written, evaluateEq32_small hn] at hw
    have := congrArg List.length hw
    simp at this
    omega
  · intro hN
    have hn : 2 ≤ logn N := by
      by_contra hlt
      have : 2^logn N ≤ 2^1 := Nat.pow_le_pow_right (by norm_num) (by omega)
      omega
    have hin := accesses_inside (f := ⟨prg,logn N,prime⟩) (k := k) hn hlog h1 hle
    refine ⟨?_,fun i hi => hin _ hi,fun m hm => hin _ hm⟩
    rw [evaluateEq32_written, evaluateEq32, evaluateEqScan_ring hn hlog h1 hle]
    simp

/-- Three words. -/
theorem evaluateEq32_safe_three :
    let f : Fss := ⟨fun _ _ => 0,logn 3,0⟩
    Safe f (generateTreeEq32 f 1 1 ⟨0,1,0,0,0⟩ fun _ => ⟨0,0,0,0,0⟩).1 3 :=
  (evaluateEq32_safe_iff (by norm_num) (by norm_num) _ _ _).mpr le_rfl

end OramPro
