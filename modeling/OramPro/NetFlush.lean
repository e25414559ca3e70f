import OramPro.Net

/-!
# The padding of a flush

The padding of a flush starts behind the buffered bytes, while its length comes from the count of all
bytes written. A message that is too long for the buffer moves the two apart, and the padding may then
leave the buffer.
-/
namespace OramPro.Net

/-- A partial run with one more step. -/
lemma foldlM_concat {σ α : Type*} (f : σ → α → Option σ) (s : σ) (a : List α) (c : α) :
    (a ++ [c]).foldlM f s = (a.foldlM f s).bind fun t => f t c := by
  rw [List.foldlM_append]
  exact congrArg (a.foldlM f s).bind (funext fun t => bind_pure (f t c))

namespace SenderSubChannel

/-- If the call puts a message into the buffer, then the message ends in the chunk of the stream in
which the buffer starts. -/
def WithinChunk (s : SenderSubChannel) : SendCall → Prop
  | .data m => m.length ≤ bufSize-s.ptr → s.counter%bufSize+s.ptr+m.length ≤ bufSize
  | .flush => True

variable {s s' : SenderSubChannel}

lemma run_concat (s : SenderSubChannel) (calls : List SendCall) (c : SendCall) :
    s.run (calls ++ [c]) = (s.run calls).bind fun t => t.call c :=
  foldlM_concat call s calls c

lemma mod_bufSize (n : ℕ) : n%2^64%bufSize = n%bufSize := Nat.mod_mod_of_dvd n bufSize_dvd

/-- The bytes of the last chunk that are already in the stream and those in the buffer must fit in one
chunk. -/
lemma inside_iff (h : s.ptr ≤ bufSize) : s.Inside ↔ s.counter%bufSize+s.ptr ≤ bufSize := by
  have hpos := bufSize_pos
  have hlt := Nat.mod_lt s.counter hpos
  have hmod : (s.counter+s.ptr)%2^64%bufSize = (s.counter%bufSize+s.ptr%bufSize)%bufSize := by
    rw [mod_bufSize, Nat.add_mod]
  have hpad : s.ptr+s.padding ≤ bufSize ↔ s.counter%bufSize+s.ptr ≤ bufSize := by
    simp only [padding, hmod]
    rcases h.eq_or_lt with hp | hp
    · rw [hp, Nat.mod_self, Nat.add_zero, Nat.mod_mod]
      split_ifs <;> omega
    · rw [Nat.mod_eq_of_lt hp]
      rcases lt_or_ge (s.counter%bufSize+s.ptr) bufSize with hs | hs
      · rw [Nat.mod_eq_of_lt hs]
        split_ifs <;> omega
      · rw [Nat.mod_eq_sub_mod hs, Nat.mod_eq_of_lt (by omega)]
        split_ifs <;> omega
  exact ⟨fun hi => hpad.mp hi.slice,fun hr => ⟨h,hpad.mpr hr⟩⟩

/-- A flush leaves the buffer empty. -/
lemma flush_cases (h : s.flush = some s') : s' = s.flushed :=
  (Option.some.inj ((flush_of_inside (inside_of_flush h)).symm.trans h)).symm

lemma ptr_call (h : s.ptr ≤ bufSize) {c : SendCall} (hc : s.call c = some s') : s'.ptr ≤ bufSize := by
  cases c with
  | data m =>
    obtain rfl := Option.some.inj hc
    rw [sendData]
    split_ifs with hm
    · simp only
      omega
    · exact Nat.zero_le _
  | flush =>
    obtain rfl := flush_cases hc
    exact Nat.zero_le _

lemma Inside.call (h : s.Inside) (c : SendCall) : ∃ t, s.call c = some t := by
  cases c with
  | data m => exact ⟨_,rfl⟩
  | flush => exact ⟨_,flush_of_inside h⟩

/-- Only a message in the buffer can push the padding out of it. -/
lemma inside_call_iff (h : s.ptr ≤ bufSize) {c : SendCall} (hc : s.call c = some s') :
    s'.Inside ↔ s.WithinChunk c := by
  rw [inside_iff (ptr_call h hc)]
  cases c with
  | data m =>
    obtain rfl := Option.some.inj hc
    simp only [sendData, WithinChunk]
    split_ifs with hm
    · simp only [hm, true_implies, ← Nat.add_assoc]
    · simp only [hm, false_implies, iff_true, Nat.add_zero]
      exact (Nat.mod_lt _ bufSize_pos).le
  | flush =>
    obtain rfl := flush_cases hc
    simp only [flushed, WithinChunk, Nat.add_zero, iff_true]
    exact (Nat.mod_lt _ bufSize_pos).le

lemma inside_start (buf : ℕ → Byte) : (start buf).Inside := by
  rw [inside_iff (Nat.zero_le _)]
  exact Nat.zero_le _

/-- As long as every message that is buffered ends in the chunk in which the buffer starts, no flush is
undefined. -/
lemma inside_run {buf : ℕ → Byte} {calls done : List SendCall}
    (h : ∀ done c, done ++ [c] <+: calls → ∃ s, (start buf).run done = some s ∧ s.WithinChunk c)
    (hd : done <+: calls) : ∃ s, (start buf).run done = some s ∧ s.Inside := by
  induction done using List.reverseRecOn with
  | nil => exact ⟨_,rfl,inside_start buf⟩
  | append_singleton done c ih =>
    obtain ⟨s, hs, hin⟩ := ih ((List.prefix_append _ _).trans hd)
    obtain ⟨t, ht, hwithin⟩ := h done c hd
    obtain rfl : s = t := Option.some.inj (hs.symm.trans ht)
    obtain ⟨s', hs'⟩ := hin.call c
    refine ⟨s',?_,(inside_call_iff hin.ptr hs').mpr hwithin⟩
    rw [run_concat, hs]
    exact hs'

/-- In every run, no flush reads outside the buffer as long as every message that is buffered ends in
the chunk in which the buffer starts, and not otherwise. -/
theorem flush_inside_iff (buf : ℕ → Byte) (calls : List SendCall) :
    (∀ done, done <+: calls → ∃ s, (start buf).run done = some s ∧ s.Inside) ↔
      ∀ done c, done ++ [c] <+: calls → ∃ s, (start buf).run done = some s ∧ s.WithinChunk c := by
  refine ⟨fun h done c hd => ?_,fun h done hd => inside_run h hd⟩
  obtain ⟨s, hs, hin⟩ := h done ((List.prefix_append _ _).trans hd)
  obtain ⟨s', hs', hin'⟩ := h _ hd
  rw [run_concat, hs] at hs'
  exact ⟨s,hs,(inside_call_iff hin.ptr hs').mp hin'⟩

/-- A message of one byte more than the buffer goes around it, and one that fills the buffer stays. -/
lemma run_long (buf : ℕ → Byte) (m1 m2 : List Byte) (h1 : m1.length = bufSize+1) (h2 : m2.length = bufSize) :
    ∃ s, (start buf).run [.data m1,.data m2] = some s ∧ s.ptr = bufSize ∧ s.counter%bufSize = 1 := by
  have hlong : ¬ m1.length ≤ bufSize-(start buf).ptr := by
    rw [h1]
    omega
  have hptr : ((start buf).sendData m1).ptr = 0 := by rw [sendData, if_neg hlong]
  have hcounter : ((start buf).sendData m1).counter%bufSize = 1 := by
    rw [sendData, if_neg hlong]
    simp only [sendDataRaw, readMem_length, start, Nat.zero_add, Nat.zero_mod, h1, mod_bufSize]
    norm_num [bufSize]
  have hfit : m2.length ≤ bufSize-((start buf).sendData m1).ptr := by rw [h2, hptr, Nat.sub_zero]
  refine ⟨_,rfl,?_,?_⟩
  · rw [sendData, if_pos hfit, hptr, h2, Nat.zero_add]
  · rw [sendData, if_pos hfit]
    exact hcounter

theorem flush_leaves_buffer : ¬ ∀ (buf : ℕ → Byte) (calls done : List SendCall) (s : SenderSubChannel),
    done <+: calls → (start buf).run done = some s → s.Inside := by
  intro h
  obtain ⟨s, hs, hptr, hcounter⟩ := run_long 0 (List.replicate (bufSize+1) 0)
    (List.replicate bufSize 0) List.length_replicate List.length_replicate
  have hin := (inside_iff hptr.le).mp (h 0 _ _ s List.prefix_rfl hs)
  omega

end SenderSubChannel
end OramPro.Net
