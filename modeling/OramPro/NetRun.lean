import OramPro.NetFlush

/-!
# Runs of the buffered channel

Both ends are followed through any schedule: the receiver has answered a prefix of the calls, and
its chunk lies in the stream where the positions of the two ends say. A run goes on as long as every flush
finds its padding inside the buffer.
-/
namespace OramPro.Net

/-! ## What the receiver returns -/

/-- The receiver has answered the calls `done` and waits for the next one. -/
structure Idle (done : List SendCall) (l : Link) : Prop where
  remain : l.recver.remain = none
  data : l.recver.data = messages done
  marks : l.recvMarks = marksFrom 0 done
  ptr_pos : 0 < l.recver.ptr
  ptr_le : l.recver.ptr ≤ bufSize
  dvd : bufSize ∣ l.taken
  taken : l.taken+l.recver.ptr = pos done+bufSize
  buf : ∀ i, l.recver.ptr ≤ i → i < bufSize →
    l.recver.buf i = l.sender.stream.getD (l.taken+i-bufSize) 0
  le : l.taken ≤ l.visible

/-- The receiver is inside `recv_data` for `m`, with `k` bytes copied and its chunk used up. -/
structure Busy (done : List SendCall) (m : List Byte) (k : ℕ) (l : Link) : Prop where
  remain : l.recver.remain = some (m.length-k,m.take k)
  data : l.recver.data = messages done
  marks : l.recvMarks = marksFrom 0 done
  lt : k < m.length
  dvd : bufSize ∣ l.taken
  taken : l.taken = pos done+k
  le : l.taken ≤ l.visible

lemma take_append_readMem (buf : ℕ → Byte) {m : List Byte} {k p r : ℕ} (hr : k+r ≤ m.length)
    (h : ∀ i < r, buf (p+i) = m.getD (k+i) 0) : m.take k ++ readMem buf p r = m.take (k+r) := by
  rw [List.take_add]
  congr 1
  apply List.ext_getElem
  · simp only [readMem_length, List.length_take, List.length_drop]
    omega
  · intro i h0 h1
    rw [readMem_length] at h0
    have := h i h0
    rw [List.getD_eq_getElem _ _ (by omega)] at this
    simpa [readMem] using this

section recver
variable {calls done rest : List SendCall} {m : List Byte} {l : Link}

lemma Idle.flush (h : Idle done l) {want : List RecvCall} (ht : l.toRecv = .flush :: want) :
    Idle (done ++ [.flush]) l.stepRecver ∧ l.stepRecver.toRecv = want := by
  have e : l.stepRecver = { l with
      recver := l.recver.flush, toRecv := want, recvMarks := l.recvMarks ++ [l.taken] } := by
    simp only [Link.stepRecver, h.remain, ht]
  have htaken := h.taken
  have hpos := h.ptr_pos
  have hle := h.ptr_le
  have hadv : advance (pos done) .flush = l.taken := advance_flush_eq h.dvd (by omega) (by omega)
  rw [e]
  refine ⟨⟨h.remain,?_,?_,bufSize_pos,le_rfl,h.dvd,?_,?_,h.le⟩,rfl⟩
  · simp [RecverSubChannel.flush, h.data, messages]
  · simp only [h.marks, marksFrom_append, ← hadv]
    rfl
  · rw [pos_concat, hadv]
    rfl
  · intro i h0 h1
    simp only [RecverSubChannel.flush] at h0
    omega

/-- The chunk in the buffer goes on with the message. -/
lemma Idle.reads (h : Idle done l) (hc : calls = done ++ .data m :: rest)
    (hmatch : Matches calls l.sender.stream) (hvis : l.visible ≤ l.sender.stream.length) {r : ℕ}
    (hr : r ≤ m.length) (hb : r ≤ bufSize-l.recver.ptr) :
    readMem l.recver.buf l.recver.ptr r = m.take r := by
  have htaken := h.taken
  have hle := h.ptr_le
  have hl := h.le
  have hbytes : ∀ i < r, l.recver.buf (l.recver.ptr+i) = m.getD (0+i) 0 := by
    intro i hi
    rw [h.buf _ (by omega) (by omega), show l.taken+(l.recver.ptr+i)-bufSize = pos done+i by omega,
      hmatch done m rest hc i (by omega) (by omega), Nat.zero_add]
  simpa using take_append_readMem l.recver.buf (m := m) (k := 0) (by omega) hbytes

/-- A message that the chunk in the buffer still covers is returned at once. -/
lemma Idle.recv_short (h : Idle done l) {want : List RecvCall}
    (ht : l.toRecv = .data m.length :: want) (hm : m.length ≤ bufSize-l.recver.ptr)
    (hc : calls = done ++ .data m :: rest) (hmatch : Matches calls l.sender.stream)
    (hvis : l.visible ≤ l.sender.stream.length) :
    Idle (done ++ [.data m]) l.stepRecver ∧ l.stepRecver.toRecv = want := by
  have e : l.stepRecver = { l with recver := l.recver.recvData m.length, toRecv := want } := by
    simp only [Link.stepRecver, h.remain, ht]
  have htaken := h.taken
  have hpos := h.ptr_pos
  have hle := h.ptr_le
  have hl := h.le
  have hread : readMem l.recver.buf l.recver.ptr m.length = m := by
    rw [h.reads hc hmatch hvis le_rfl hm, List.take_length]
  rw [e]
  simp only [RecverSubChannel.recvData, if_pos hm, hread]
  refine ⟨⟨h.remain,?_,?_,?_,?_,h.dvd,?_,?_,h.le⟩,trivial⟩
  · simp [h.data, messages]
  · simp [h.marks, marksFrom_append, marksFrom]
  · simp only; omega
  · simp only; omega
  · simp only [pos_concat, advance]
    omega
  · intro i h0 h1
    simp only at h0
    exact h.buf i (by omega) h1

lemma Idle.recv_long (h : Idle done l) {want : List RecvCall}
    (ht : l.toRecv = .data m.length :: want) (hm : ¬m.length ≤ bufSize-l.recver.ptr)
    (hc : calls = done ++ .data m :: rest) (hmatch : Matches calls l.sender.stream)
    (hvis : l.visible ≤ l.sender.stream.length) :
    Busy done m (bufSize-l.recver.ptr) l.stepRecver ∧ l.stepRecver.toRecv = want := by
  have e : l.stepRecver = { l with recver := l.recver.recvData m.length, toRecv := want } := by
    simp only [Link.stepRecver, h.remain, ht]
  have htaken := h.taken
  have hle := h.ptr_le
  have hl := h.le
  have hread := h.reads hc hmatch hvis (by omega : bufSize-l.recver.ptr ≤ m.length) le_rfl
  rw [e]
  simp only [RecverSubChannel.recvData, if_neg hm, hread]
  refine ⟨⟨rfl,h.data,h.marks,by omega,h.dvd,?_,h.le⟩,trivial⟩
  simp only
  omega

lemma chunk_getD {s : List Byte} {k i : ℕ} (hi : i < bufSize) :
    ((s.drop k).take bufSize).getD i 0 = s.getD (k+i) 0 := by
  simp [List.getD_eq_getElem?_getD, hi]

/-- The next chunk goes on with the message where the part received so far stops. -/
lemma Busy.reads {k : ℕ} (h : Busy done m k l) (hready : l.taken+bufSize ≤ l.visible)
    (hc : calls = done ++ .data m :: rest) (hmatch : Matches calls l.sender.stream)
    (hvis : l.visible ≤ l.sender.stream.length) {r : ℕ} (hr : k+r ≤ m.length) (hb : r ≤ bufSize) :
    m.take k ++ readMem (fun i => ((l.sender.stream.drop l.taken).take bufSize).getD i 0) 0 r =
      m.take (k+r) := by
  refine take_append_readMem _ hr fun i hi => ?_
  have htaken := h.taken
  rw [Nat.zero_add, chunk_getD (by omega), htaken, Nat.add_assoc]
  exact hmatch done m rest hc (k+i) (by omega) (by omega)

/-- One chunk either completes the message or is copied whole. -/
lemma Busy.recv {k : ℕ} (h : Busy done m k l) (hready : l.taken+bufSize ≤ l.visible)
    (hc : calls = done ++ .data m :: rest) (hmatch : Matches calls l.sender.stream)
    (hvis : l.visible ≤ l.sender.stream.length) :
    (Idle (done ++ [.data m]) l.stepRecver ∨ Busy done m (k+bufSize) l.stepRecver) ∧
      l.stepRecver.toRecv = l.toRecv := by
  have hk := h.lt
  have htaken := h.taken
  have hpos := bufSize_pos
  have e : l.stepRecver = { l with
      recver := l.recver.recvChunk (m.length-k) (m.take k)
        ((l.sender.stream.drop l.taken).take bufSize)
      taken := l.taken+bufSize } := by
    simp only [Link.stepRecver, h.remain, if_pos hready]
  rw [e]
  refine ⟨?_,rfl⟩
  by_cases hr : m.length-k ≤ bufSize
  · left
    have hread := h.reads hready hc hmatch hvis (by omega : k+(m.length-k) ≤ m.length) hr
    rw [show k+(m.length-k) = m.length by omega, List.take_length] at hread
    simp only [RecverSubChannel.recvChunk, if_pos hr, hread]
    refine ⟨rfl,?_,?_,?_,hr,Dvd.dvd.add h.dvd (dvd_refl _),?_,?_,hready⟩
    · simp [h.data, messages]
    · simp [h.marks, marksFrom_append, marksFrom]
    · simp only; omega
    · simp only [pos_concat, advance]
      omega
    · intro i h0 h1
      simp only [chunk_getD h1]
      rw [show l.taken+bufSize+i-bufSize = l.taken+i by omega]
  · right
    have hread := h.reads hready hc hmatch hvis (by omega : k+bufSize ≤ m.length) le_rfl
    simp only [RecverSubChannel.recvChunk, if_neg hr, hread]
    refine ⟨?_,h.data,h.marks,by omega,Dvd.dvd.add h.dvd (dvd_refl _),?_,hready⟩
    · simp only [Nat.sub_sub]
    · simp only
      omega

end recver

/-! ## Runs -/

/-- The receiver has answered `done` and may be inside the next call. -/
def Received (calls done : List SendCall) (l : Link) : Prop :=
  (∃ rest, calls = done ++ rest ∧ l.toRecv = rest.map SendCall.mirror ∧ Idle done l) ∨
  ∃ m k rest, calls = done ++ .data m :: rest ∧ l.toRecv = rest.map SendCall.mirror ∧ Busy done m k l

/-- Before every flush, the bytes in the buffer end in the chunk of the stream in which they start. -/
def PaddedInside (sbuf : ℕ → Byte) (calls : List SendCall) : Prop :=
  ∀ a b s, calls = a ++ .flush :: b → (SenderSubChannel.start sbuf).run a = some s →
    s.counter%bufSize+s.ptr ≤ bufSize

structure Inv (sbuf : ℕ → Byte) (calls : List SendCall) (l : Link) : Prop where
  sent : ∃ done, calls = done ++ l.toSend ∧ Sent done l ∧
    (SenderSubChannel.start sbuf).run done = some l.sender
  received : ∃ done, Received calls done l

/-- The receiver does not notice what happens behind its position. -/
structure Unnoticed (l l' : Link) : Prop where
  recver : l'.recver = l.recver
  toRecv : l'.toRecv = l.toRecv
  taken : l'.taken = l.taken
  recvMarks : l'.recvMarks = l.recvMarks
  visible : l.visible ≤ l'.visible
  stream : l.sender.stream <+: l'.sender.stream

section run
variable {sbuf : ℕ → Byte} {calls done : List SendCall} {l l' : Link}

lemma inv_start (sbuf rbuf : ℕ → Byte) (calls : List SendCall) :
    Inv sbuf calls (Link.start sbuf rbuf calls) := by
  constructor
  · refine ⟨[],rfl,⟨⟨Nat.zero_le _,rfl,rfl⟩,?_,rfl,?_,le_rfl⟩,rfl⟩
    · intro a m b h; simp at h
    · intro a b h; simp at h
  · refine ⟨[],.inl ⟨calls,rfl,rfl,rfl,rfl,rfl,bufSize_pos,le_rfl,dvd_zero _,?_,?_,le_rfl⟩⟩
    · simp [Link.start, pos]
    · intro i h0 h1
      simp only [Link.start] at h0
      omega

lemma Received.frame (h : Received calls done l) (hu : Unnoticed l l')
    (hl : l.visible ≤ l.sender.stream.length) : Received calls done l' := by
  obtain ⟨hr, hw, ht, hm, hv, hs⟩ := hu
  rcases h with ⟨rest, hc, hrest, h⟩ | ⟨m, k, rest, hc, hrest, h⟩
  · refine .inl ⟨rest,hc,hw.trans hrest,?_,?_,?_,?_,?_,?_,?_,?_,?_⟩
    · rw [hr]; exact h.remain
    · rw [hr]; exact h.data
    · rw [hm]; exact h.marks
    · rw [hr]; exact h.ptr_pos
    · rw [hr]; exact h.ptr_le
    · rw [ht]; exact h.dvd
    · rw [ht, hr]; exact h.taken
    · intro i h0 h1
      rw [hr] at h0
      have hle := h.le
      have htaken := h.taken
      obtain ⟨more, hmore⟩ := hs
      rw [hr, ht, ← hmore, List.getD_append _ _ _ _ (by omega)]
      exact h.buf i h0 h1
    · rw [ht]; exact h.le.trans hv
  · refine .inr ⟨m,k,rest,hc,hw.trans hrest,?_,?_,?_,h.lt,?_,?_,?_⟩
    · rw [hr]; exact h.remain
    · rw [hr]; exact h.data
    · rw [hm]; exact h.marks
    · rw [ht]; exact h.dvd
    · rw [ht]; exact h.taken
    · rw [ht]; exact h.le.trans hv

lemma stepRecver_frame (l : Link) : l.stepRecver.sender = l.sender ∧
    l.stepRecver.toSend = l.toSend ∧ l.stepRecver.visible = l.visible ∧
    l.stepRecver.sendMarks = l.sendMarks := by
  unfold Link.stepRecver
  split
  · split <;> exact ⟨rfl,rfl,rfl,rfl⟩
  · split <;> exact ⟨rfl,rfl,rfl,rfl⟩

lemma Sent.stepRecver (h : Sent done l) : Sent done l.stepRecver := by
  obtain ⟨hs, -, hv, hm⟩ := stepRecver_frame l
  refine ⟨?_,?_,?_,?_,?_⟩
  · rw [hs]; exact h.place
  · rw [hs]; exact h.holds
  · rw [hm]; exact h.marks
  · rw [hv]; exact h.flushed
  · rw [hv, hs]; exact h.visible

/-- What one turn of the receiver does: it answers a call, goes on with it, or waits for a chunk. -/
lemma Received.step (h : Received calls done l) (hmatch : Matches calls l.sender.stream)
    (hvis : l.visible ≤ l.sender.stream.length) :
    Received calls done l.stepRecver ∨ ∃ c, Received calls (done ++ [c]) l.stepRecver := by
  rcases h with ⟨rest, hc, hrest, h⟩ | ⟨m, k, rest, hc, hrest, h⟩
  · cases rest with
    | nil =>
      have e : l.stepRecver = l := by simp [Link.stepRecver, h.remain, hrest]
      rw [e]
      exact .inl (.inl ⟨[],hc,hrest,h⟩)
    | cons c rest =>
      have hc' : calls = done ++ [c] ++ rest := by rw [hc, List.append_assoc]; rfl
      cases c with
      | flush =>
        obtain ⟨h', hw⟩ := h.flush hrest
        exact .inr ⟨_,.inl ⟨rest,hc',hw,h'⟩⟩
      | data m =>
        by_cases hm : m.length ≤ bufSize-l.recver.ptr
        · obtain ⟨h', hw⟩ := h.recv_short hrest hm hc hmatch hvis
          exact .inr ⟨_,.inl ⟨rest,hc',hw,h'⟩⟩
        · obtain ⟨h', hw⟩ := h.recv_long hrest hm hc hmatch hvis
          exact .inl (.inr ⟨m,_,rest,hc,hw,h'⟩)
  · by_cases hready : l.taken+bufSize ≤ l.visible
    · have hc' : calls = done ++ [.data m] ++ rest := by rw [hc, List.append_assoc]; rfl
      obtain ⟨h' | h', hw⟩ := h.recv hready hc hmatch hvis
      · exact .inr ⟨_,.inl ⟨rest,hc',hw.trans hrest,h'⟩⟩
      · exact .inl (.inr ⟨m,_,rest,hc,hw.trans hrest,h'⟩)
    · have e : l.stepRecver = l := by simp [Link.stepRecver, h.remain, hready]
      rw [e]
      exact .inl (.inr ⟨m,k,rest,hc,hrest,h⟩)

lemma Inv.visible (h : Inv sbuf calls l) : l.visible ≤ l.sender.stream.length := by
  obtain ⟨done, -, hs, -⟩ := h.sent
  exact hs.visible

lemma Inv.matches (h : Inv sbuf calls l) : Matches calls l.sender.stream := by
  obtain ⟨done, hc, hs, -⟩ := h.sent
  exact hs.matches hc

lemma Inv.stepRecver (h : Inv sbuf calls l) : Inv sbuf calls l.stepRecver := by
  constructor
  · obtain ⟨done, hc, hs, hrun⟩ := h.sent
    refine ⟨done,?_,hs.stepRecver,?_⟩
    · rw [(stepRecver_frame l).2.1]
      exact hc
    · rw [(stepRecver_frame l).1]
      exact hrun
  · obtain ⟨done, hr⟩ := h.received
    rcases hr.step h.matches h.visible with h' | ⟨c, h'⟩
    · exact ⟨done,h'⟩
    · exact ⟨_,h'⟩

lemma stepSender_data {m : List Byte} {rest : List SendCall} (h : l.toSend = .data m :: rest) :
    l.stepSender = some { l with sender := l.sender.sendData m, toSend := rest } := by
  rw [Link.stepSender, h]

lemma stepSender_flush {rest : List SendCall} (h : l.toSend = .flush :: rest) :
    l.stepSender = l.sender.flush.map l.flushed := by
  rw [Link.stepSender, h]

/-- What one turn of the sender does, and that it only adds to the stream. -/
lemma Sent.step (hsafe : PaddedInside sbuf calls) (h : Sent done l)
    (hrun : (SenderSubChannel.start sbuf).run done = some l.sender) (hc : calls = done ++ l.toSend) :
    ∃ l' done', l.stepSender = some l' ∧ calls = done' ++ l'.toSend ∧ Sent done' l' ∧
      (SenderSubChannel.start sbuf).run done' = some l'.sender ∧
      min (done.length+1) calls.length ≤ done'.length ∧ Unnoticed l l' := by
  cases ht : l.toSend with
  | nil =>
    rw [ht, List.append_nil] at hc
    refine ⟨l,done,by simp only [Link.stepSender, ht],by rw [ht, hc, List.append_nil],h,hrun,?_,
      ⟨rfl,rfl,rfl,rfl,le_rfl,List.prefix_rfl⟩⟩
    rw [hc]
    exact min_le_right _ _
  | cons c rest =>
    rw [ht] at hc
    have hc' : calls = done ++ [c] ++ rest := by rw [hc, List.append_assoc]; rfl
    have hlen : min (done.length+1) calls.length ≤ (done ++ [c]).length := by simp
    cases c with
    | data m =>
      refine ⟨_,_,stepSender_data ht,hc',h.data m rest,?_,hlen,
        ⟨rfl,rfl,rfl,rfl,le_rfl,(h.place.sendData m).2.2⟩⟩
      rw [SenderSubChannel.run_concat, hrun]
      rfl
    | flush =>
      have hin := (SenderSubChannel.inside_iff h.place.ptr).mpr (hsafe done rest l.sender hc hrun)
      have hflush := SenderSubChannel.flush_of_inside hin
      have hstream : l.sender.stream <+: l.sender.flushed.stream :=
        (List.prefix_append _ _).trans h.place.flushed.2
      refine ⟨_,_,(stepSender_flush ht).trans (congrArg _ hflush),?_,h.flush,?_,hlen,
        ⟨rfl,rfl,rfl,rfl,h.visible.trans hstream.length_le,hstream⟩⟩
      · rw [Link.flushed, ht]
        exact hc'
      · rw [SenderSubChannel.run_concat, hrun]
        exact hflush

lemma Inv.stepSender (hsafe : PaddedInside sbuf calls) (h : Inv sbuf calls l) :
    ∃ l', l.stepSender = some l' ∧ Inv sbuf calls l' := by
  obtain ⟨done, hc, hs, hrun⟩ := h.sent
  obtain ⟨l', done', hstep, hc', hs', hrun', -, hu⟩ := hs.step hsafe hrun hc
  obtain ⟨d, hd⟩ := h.received
  exact ⟨l',hstep,⟨done',hc',hs',hrun'⟩,d,hd.frame hu hs.visible⟩

lemma Inv.step (hsafe : PaddedInside sbuf calls) (h : Inv sbuf calls l) (c : Choice) :
    ∃ l', l.step c = some l' ∧ Inv sbuf calls l' := by
  cases c with
  | sender => exact h.stepSender hsafe
  | recver => exact ⟨_,rfl,h.stepRecver⟩
  | arrive n =>
    obtain ⟨done, hc, hs, hrun⟩ := h.sent
    obtain ⟨d, hd⟩ := h.received
    have hv : l.visible ≤ min (l.visible+n) l.sender.stream.length :=
      le_min (Nat.le_add_right _ _) hs.visible
    refine ⟨_,rfl,⟨done,hc,⟨hs.place,hs.holds,hs.marks,?_,min_le_right _ _⟩,hrun⟩,d,?_⟩
    · intro a b hab
      exact (hs.flushed a b hab).trans hv
    · exact hd.frame ⟨rfl,rfl,rfl,rfl,hv,List.prefix_rfl⟩ hs.visible

lemma Inv.run (hsafe : PaddedInside sbuf calls) (h : Inv sbuf calls l) (sched : List Choice) :
    ∃ l', l.run sched = some l' ∧ Inv sbuf calls l' := by
  induction sched generalizing l with
  | nil => exact ⟨l,rfl,h⟩
  | cons c sched ih =>
    obtain ⟨l1, h1, hi⟩ := h.step hsafe c
    obtain ⟨l2, h2, hi'⟩ := ih hi
    exact ⟨l2,Option.bind_eq_some_iff.mpr ⟨l1,h1,h2⟩,hi'⟩

lemma run_append (l : Link) (a b : List Choice) : l.run (a ++ b) = (l.run a).bind fun t => t.run b :=
  List.foldlM_append

lemma run_concat (l : Link) (a : List Choice) (c : Choice) :
    l.run (a ++ [c]) = (l.run a).bind fun t => t.step c :=
  foldlM_concat Link.step l a c

/-! ## Every batch that has been flushed can be read -/

lemma run_recver (l : Link) (k : ℕ) : l.run (List.replicate k .recver) = some (Link.stepRecver^[k] l) := by
  induction k generalizing l with
  | zero => rfl
  | succ k ih => exact ih l.stepRecver

lemma run_recver_frame (l : Link) (k : ℕ) : (Link.stepRecver^[k] l).visible = l.visible := by
  induction k generalizing l with
  | zero => rfl
  | succ k ih => exact (ih l.stepRecver).trans (stepRecver_frame l).2.2.1

lemma Inv.iterate (h : Inv sbuf calls l) (k : ℕ) : Inv sbuf calls (Link.stepRecver^[k] l) := by
  induction k generalizing l with
  | zero => exact h
  | succ k ih => exact ih h.stepRecver

lemma Inv.sender_run (hsafe : PaddedInside sbuf calls) (h : Inv sbuf calls l) (n : ℕ) : ∃ l' done,
    l.run (List.replicate n .sender) = some l' ∧ Inv sbuf calls l' ∧ calls = done ++ l'.toSend ∧
      Sent done l' ∧ min n calls.length ≤ done.length := by
  induction n generalizing l with
  | zero =>
    obtain ⟨done, hc, hs, -⟩ := h.sent
    exact ⟨l,done,rfl,h,hc,hs,by simp⟩
  | succ n ih =>
    obtain ⟨l1, done, hl, h1, hc, hs, hn⟩ := ih h
    obtain ⟨d, hd⟩ := h1.received
    obtain ⟨done1, hc1, hs1, hrun⟩ := h1.sent
    obtain rfl : done1 = done := List.append_cancel_right (hc1.symm.trans hc)
    obtain ⟨l2, done', hstep, hc', hs', hrun', hn', hu⟩ := hs.step hsafe hrun hc
    refine ⟨l2,done',?_,⟨⟨done',hc',hs',hrun'⟩,d,hd.frame hu hs.visible⟩,hc',hs',by omega⟩
    rw [List.replicate_succ', run_concat, hl]
    exact hstep

/-- Inside `recv_data` the next chunk is there as long as the message lies before `P`. -/
lemma Inv.finish (h : Inv sbuf calls l) {P k : ℕ} {m : List Byte} {rest : List SendCall}
    (hc : calls = done ++ .data m :: rest) (hw : l.toRecv = rest.map SendCall.mirror)
    (hb : Busy done m k l) (hd : bufSize ∣ P) (hP : pos done+m.length ≤ P) (hv : P ≤ l.visible) :
    ∃ j, Received calls (done ++ [.data m]) (Link.stepRecver^[j] l) := by
  induction hn : m.length-k using Nat.strong_induction_on generalizing k l with
  | _ n ih =>
    have hk := hb.lt
    have htaken := hb.taken
    have hpos := bufSize_pos
    have hready : l.taken+bufSize ≤ l.visible := by
      obtain ⟨c, rfl⟩ := hd
      obtain ⟨t, ht⟩ := hb.dvd
      have htc : t < c := Nat.lt_of_mul_lt_mul_left (a := bufSize) (by omega)
      have := Nat.mul_le_mul_left bufSize htc
      rw [Nat.mul_succ] at this
      omega
    have hc' : calls = done ++ [.data m] ++ rest := by rw [hc, List.append_assoc]; rfl
    obtain ⟨h' | h', hw'⟩ := hb.recv hready hc h.matches h.visible
    · exact ⟨1,.inl ⟨rest,hc',hw'.trans hw,h'⟩⟩
    · obtain ⟨j, hj⟩ := ih (m.length-(k+bufSize)) (by omega) h.stepRecver (hw'.trans hw) h'
        (hv.trans (stepRecver_frame l).2.2.1.ge) rfl
      exact ⟨j+1,hj⟩

lemma Inv.answer (h : Inv sbuf calls l) {P : ℕ} {c : SendCall} {rest : List SendCall}
    (hr : Received calls done l) (hc : calls = done ++ c :: rest) (hd : bufSize ∣ P)
    (hP : advance (pos done) c ≤ P) (hv : P ≤ l.visible) :
    ∃ j, Received calls (done ++ [c]) (Link.stepRecver^[j] l) := by
  have hc' : calls = done ++ [c] ++ rest := by rw [hc, List.append_assoc]; rfl
  rcases hr with ⟨rest', hrest, hw, hi⟩ | ⟨m, k, rest', hrest, hw, hb⟩
  · obtain rfl : rest' = c :: rest := List.append_cancel_left (hrest.symm.trans hc)
    cases c with
    | flush =>
      obtain ⟨h', hw'⟩ := hi.flush hw
      exact ⟨1,.inl ⟨rest,hc',hw',h'⟩⟩
    | data m =>
      by_cases hm : m.length ≤ bufSize-l.recver.ptr
      · obtain ⟨h', hw'⟩ := hi.recv_short hw hm hc h.matches h.visible
        exact ⟨1,.inl ⟨rest,hc',hw',h'⟩⟩
      · obtain ⟨h', hw'⟩ := hi.recv_long hw hm hc h.matches h.visible
        obtain ⟨j, hj⟩ := h.stepRecver.finish hc hw' h' hd hP
          (hv.trans (stepRecver_frame l).2.2.1.ge)
        exact ⟨j+1,hj⟩
  · have he := List.append_cancel_left (hrest.symm.trans hc)
    obtain ⟨rfl, rfl⟩ := List.cons.inj he
    exact h.finish hc hw hb hd hP hv

lemma Inv.answers (h : Inv sbuf calls l) {P : ℕ} {cs rest : List SendCall}
    (hr : Received calls done l) (hc : calls = done ++ cs ++ rest) (hd : bufSize ∣ P)
    (hP : pos (done ++ cs) ≤ P) (hv : P ≤ l.visible) :
    ∃ j, Received calls (done ++ cs) (Link.stepRecver^[j] l) := by
  induction cs generalizing done l with
  | nil => exact ⟨0,by rw [List.append_nil]; exact hr⟩
  | cons c cs ih =>
    have hc' : calls = done ++ c :: (cs ++ rest) := by rw [hc, List.append_assoc]; rfl
    have hadv : advance (pos done) c ≤ P := by
      have := pos_le_append (done ++ [c]) cs
      rw [pos_concat, List.append_assoc] at this
      exact this.trans hP
    obtain ⟨j, hj⟩ := h.answer hr hc' hd hadv hv
    have hassoc : done ++ c :: cs = done ++ [c] ++ cs := by rw [List.append_assoc]; rfl
    rw [hassoc] at hc hP ⊢
    obtain ⟨i, hi⟩ := ih (h.iterate j) hj hc hP (hv.trans (run_recver_frame l j).ge)
    refine ⟨i+j,?_⟩
    rw [Function.iterate_add_apply]
    exact hi

lemma Received.data (h : Received calls done l) :
    l.recver.data = messages done ∧ l.recvMarks = marksFrom 0 done ∧ done <+: calls := by
  rcases h with ⟨rest, hc, -, h⟩ | ⟨m, k, rest, hc, -, h⟩
  · exact ⟨h.data,h.marks,hc ▸ List.prefix_append _ _⟩
  · exact ⟨h.data,h.marks,hc ▸ List.prefix_append _ _⟩

lemma messages_initial {a b : List SendCall} (h : a <+: b) : messages a <+: messages b := by
  obtain ⟨c, rfl⟩ := h
  rw [messages_append]
  exact List.prefix_append _ _

lemma marksFrom_initial {a b : List SendCall} (h : a <+: b) : marksFrom 0 a <+: marksFrom 0 b := by
  obtain ⟨c, rfl⟩ := h
  rw [marksFrom_append]
  exact List.prefix_append _ _

/-- Once the sender has flushed a batch, the receiver can read it to the end and flush too. -/
lemma Inv.completes (hsafe : PaddedInside sbuf calls) (h : Inv sbuf calls l) {a b : List SendCall}
    (hc : calls = a ++ .flush :: b) :
    ∃ k l', l.run (List.replicate (a.length+1) .sender ++ List.replicate k .recver) = some l' ∧
      messages a <+: l'.recver.data ∧ marksFrom 0 (a ++ [.flush]) <+: l'.recvMarks := by
  obtain ⟨l1, done, hl, hi, hdone, hs, hlen⟩ := h.sender_run hsafe (a.length+1)
  have hcall : calls = a ++ [.flush] ++ b := by rw [hc, List.append_assoc]; rfl
  have hlen' : a.length+1 ≤ done.length := by
    refine le_trans (le_min le_rfl ?_) hlen
    rw [hcall]
    simp
  obtain ⟨e, rfl⟩ : a ++ [.flush] <+: done :=
    List.prefix_of_prefix_length_le (hcall ▸ List.prefix_append _ _)
      (hdone ▸ List.prefix_append _ _) (by simpa using hlen')
  have hv : advance (pos a) .flush ≤ l1.visible := hs.flushed a e (by rw [List.append_assoc]; rfl)
  obtain ⟨d, hd⟩ := hi.received
  have hmsg : messages (a ++ [.flush]) = messages a := by simp [messages]
  obtain ⟨k, d', hd', hpre⟩ : ∃ k d', Received calls d' (Link.stepRecver^[k] l1) ∧ a ++ [.flush] <+: d' := by
    rcases List.prefix_or_prefix_of_prefix hd.data.2.2
      (hcall ▸ List.prefix_append _ _ : a ++ [.flush] <+: calls) with ⟨cs, hcs⟩ | hpre
    · obtain ⟨j, hj⟩ := hi.answers hd (hcs ▸ hcall) (advance_flush_dvd (pos a))
        (by rw [hcs, pos_concat]) hv
      exact ⟨j,_,hj,hcs ▸ List.prefix_rfl⟩
    · exact ⟨0,d,hd,hpre⟩
  obtain ⟨h0, h1, -⟩ := hd'.data
  refine ⟨k,Link.stepRecver^[k] l1,?_,?_,?_⟩
  · rw [run_append, hl]
    exact run_recver l1 k
  · rw [h0, ← hmsg]
    exact messages_initial hpre
  · rw [h1]
    exact marksFrom_initial hpre

end run

/-! ## `P2Pchannel` -/

/-- Calls of a `P2Pchannel` towards one peer; `set_flush` concerns the calls after it. -/
inductive P2PCall
  | send_data_to (m : List Byte)
  | flush_all
  | set_flush (flush_t : Bool)

namespace P2PCall

/-- The calls of the channel, for the current value of `is_flush`. -/
def calls (is_flush : Bool) : List P2PCall → List SendCall
  | [] => []
  | .send_data_to m :: rest =>
    .data m :: ((if is_flush then [.flush] else []) ++ calls is_flush rest)
  | .flush_all :: rest => .flush :: calls is_flush rest
  | .set_flush flush_t :: rest => calls flush_t rest

def sent : List P2PCall → List (List Byte)
  | [] => []
  | .send_data_to m :: rest => m :: sent rest
  | .flush_all :: rest => sent rest
  | .set_flush _ :: rest => sent rest

lemma messages_calls (is_flush : Bool) (p : List P2PCall) : messages (calls is_flush p) = sent p := by
  induction p generalizing is_flush with
  | nil => rfl
  | cons c p ih =>
    cases c with
    | send_data_to m => cases is_flush <;> simp [calls, sent, messages, ih]
    | flush_all => simp [calls, sent, messages, ih]
    | set_flush b => simp [calls, sent, ih]

lemma calls_concat (is_flush : Bool) (p : List P2PCall) :
    calls is_flush (p ++ [.flush_all]) = calls is_flush p ++ [.flush] := by
  induction p generalizing is_flush with
  | nil => rfl
  | cons c p ih => cases c <;> simp [calls, ih]

end P2PCall

lemma Inv.data_initial {sbuf : ℕ → Byte} {calls : List SendCall} {l : Link} (h : Inv sbuf calls l) :
    l.recver.data <+: messages calls := by
  obtain ⟨d, hd⟩ := h.received
  obtain ⟨hdata, -, hpre⟩ := hd.data
  exact hdata ▸ messages_initial hpre

/-- Whatever the settings of `is_flush`, a last `flush_all` lets every message arrive. -/
theorem p2p_exact (sbuf rbuf : ℕ → Byte) (is_flush : Bool) (p : List P2PCall)
    (hsafe : PaddedInside sbuf (P2PCall.calls is_flush (p ++ [.flush_all]))) (sched : List Choice) :
    ∃ l, (Link.start sbuf rbuf (P2PCall.calls is_flush (p ++ [.flush_all]))).run sched = some l ∧
      l.recver.data <+: P2PCall.sent p ∧ ∃ more l', l.run more = some l' ∧ l'.recver.data = P2PCall.sent p := by
  have hcall := P2PCall.calls_concat is_flush p
  have hsent : messages (P2PCall.calls is_flush (p ++ [.flush_all])) = P2PCall.sent p := by
    simp [hcall, messages, P2PCall.messages_calls]
  obtain ⟨l, hl, h⟩ := (inv_start sbuf rbuf _).run hsafe sched
  obtain ⟨k, l', hl', hk, -⟩ := h.completes hsafe hcall
  obtain ⟨l2, hl2, h2⟩ := h.run hsafe _
  obtain rfl : l' = l2 := Option.some.inj (hl'.symm.trans hl2)
  rw [P2PCall.messages_calls] at hk
  exact ⟨l,hl,hsent ▸ h.data_initial,_,l',hl',(hk.eq_of_length_le (hsent ▸ h2.data_initial.length_le)).symm⟩

/-! ## The channel is exact -/

/-- In this state of a run the receiver has returned the first messages in order, at every flush both ends have
moved the same whole chunks, and a batch that the sender has flushed can be read to its end. -/
structure Exact (calls : List SendCall) (l : Link) : Prop where
  data : l.recver.data <+: messages calls
  sendMarks : l.sendMarks <+: marksFrom 0 calls
  recvMarks : l.recvMarks <+: marksFrom 0 calls
  chunks : ∀ n ∈ marksFrom 0 calls, bufSize ∣ n
  completes : ∀ a b, calls = a ++ .flush :: b → ∃ k l',
    l.run (List.replicate (a.length+1) .sender ++ List.replicate k .recver) = some l' ∧
      messages a <+: l'.recver.data ∧ marksFrom 0 (a ++ [.flush]) <+: l'.recvMarks

section exactly
variable {sbuf rbuf : ℕ → Byte} {calls : List SendCall} {l : Link}

lemma Inv.exact (hsafe : PaddedInside sbuf calls) (h : Inv sbuf calls l) : Exact calls l := by
  obtain ⟨done, hc, hs, -⟩ := h.sent
  obtain ⟨d, hd⟩ := h.received
  obtain ⟨-, hmarks, hpre⟩ := hd.data
  refine ⟨h.data_initial,?_,hmarks ▸ marksFrom_initial hpre,marksFrom_dvd,fun a b hab => h.completes hsafe hab⟩
  rw [hs.marks]
  exact marksFrom_initial (hc ▸ List.prefix_append _ _)

/-- A sender that goes first makes its calls one after the other. -/
lemma sender_first (rbuf : ℕ → Byte) {a b : List SendCall} {s : SenderSubChannel} (hc : calls = a ++ b)
    (hrun : (SenderSubChannel.start sbuf).run a = some s) :
    ∃ l, (Link.start sbuf rbuf calls).run (List.replicate a.length .sender) = some l ∧ l.sender = s ∧
      l.toSend = b := by
  induction a using List.reverseRecOn generalizing b s with
  | nil => exact ⟨_,rfl,Option.some.inj hrun,hc⟩
  | append_singleton a c ih =>
    rw [SenderSubChannel.run_concat, Option.bind_eq_some_iff] at hrun
    obtain ⟨t, ht, hcall⟩ := hrun
    obtain ⟨l, hl, rfl, hsend⟩ := ih (b := c :: b) (by rw [hc, List.append_assoc]; rfl) ht
    obtain ⟨l', hl', hs', hb⟩ : ∃ l', l.stepSender = some l' ∧ l'.sender = s ∧ l'.toSend = b := by
      cases c with
      | data m => exact ⟨_,stepSender_data hsend,Option.some.inj hcall,rfl⟩
      | flush =>
        exact ⟨l.flushed s,(stepSender_flush hsend).trans (congrArg _ hcall),rfl,congrArg List.tail hsend⟩
    refine ⟨l',?_,hs',hb⟩
    rw [List.length_append, List.length_singleton, List.replicate_succ', run_concat, hl]
    exact hl'

/-- The sender cannot flush in a state in which the padding leaves the buffer. -/
lemma inside_of_defined (h : ∀ sched, ∃ l, (Link.start sbuf rbuf calls).run sched = some l) {a b : List SendCall}
    {s : SenderSubChannel} (hc : calls = a ++ .flush :: b) (hrun : (SenderSubChannel.start sbuf).run a = some s) :
    s.Inside := by
  obtain ⟨l, hl, rfl, hsend⟩ := sender_first rbuf hc hrun
  obtain ⟨t, ht⟩ := h (List.replicate a.length .sender ++ [.sender])
  rw [run_concat, hl] at ht
  have hflush : l.sender.flush.map l.flushed = some t := by
    rw [← ht, ← stepSender_flush hsend]
    rfl
  obtain ⟨s', hs', -⟩ := Option.map_eq_some_iff.mp hflush
  exact SenderSubChannel.inside_of_flush hs'

/-- Every schedule delivers exactly the bytes that were sent if and only if no flush reads its padding from behind
the buffer. -/
theorem channel_exact_iff (sbuf rbuf : ℕ → Byte) (calls : List SendCall) :
    (∀ sched, ∃ l, (Link.start sbuf rbuf calls).run sched = some l ∧ Exact calls l) ↔
      PaddedInside sbuf calls := by
  constructor
  · intro h a b s hc hrun
    have hin := inside_of_defined (fun sched => (h sched).imp fun _ => And.left) hc hrun
    exact (SenderSubChannel.inside_iff hin.ptr).mp hin
  · intro hsafe sched
    obtain ⟨l, hl, h⟩ := (inv_start sbuf rbuf calls).run hsafe sched
    exact ⟨l,hl,h.exact hsafe⟩

/-- A message of one byte more than the buffer, one that fills it, and a flush. -/
def longCalls : List SendCall :=
  [.data (List.replicate (bufSize+1) 0),.data (List.replicate bufSize 0),.flush]

theorem channel_long_undefined :
    ¬ ∀ sched, ∃ l, (Link.start 0 0 longCalls).run sched = some l ∧ Exact longCalls l := by
  intro h
  obtain ⟨s, hs, hptr, hcounter⟩ := SenderSubChannel.run_long 0 (List.replicate (bufSize+1) 0)
    (List.replicate bufSize 0) List.length_replicate List.length_replicate
  have hin := inside_of_defined (a := [_,_]) (b := []) (fun sched => (h sched).imp fun _ => And.left) rfl hs
  have hbound := (SenderSubChannel.inside_iff hin.ptr).mp hin
  omega

/-- It is enough that every message that is buffered ends in the chunk in which the buffer starts. -/
theorem paddedInside_of_within (h : ∀ done c, done ++ [c] <+: calls → ∃ s,
    (SenderSubChannel.start sbuf).run done = some s ∧ s.WithinChunk c) : PaddedInside sbuf calls := by
  intro a b s hc hrun
  obtain ⟨t, ht, hin⟩ := SenderSubChannel.inside_run h (hc ▸ List.prefix_append a _ : a <+: calls)
  obtain rfl : t = s := Option.some.inj (ht.symm.trans hrun)
  exact (SenderSubChannel.inside_iff hin.ptr).mp hin

end exactly

end OramPro.Net
