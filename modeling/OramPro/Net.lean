import OramPro.FssCommon

/-!
# The buffered channel

The sender collects messages in a buffer and pads what it has written to a multiple of the chunk
size at every flush. The receiver reads whole chunks and drops the rest of its chunk at every
flush. The socket keeps the order of the bytes and may hold back what no flush has pushed out. A flush
whose padding would lie behind the buffer is undefined, and so is what comes after it.
-/
namespace OramPro.Net

/-- `NETWORK_BUFFER_SIZE2` -/
def bufSize : ℕ := 1024*128

/-- `len` bytes of a buffer from `ptr` on. -/
def readMem (buf : ℕ → Byte) (ptr len : ℕ) : List Byte := (List.range len).map fun i => buf (ptr+i)

/-- Reading outside the buffer is undefined. -/
def readBuf (buf : ℕ → Byte) (ptr len : ℕ) : Option (List Byte) :=
  if ptr+len ≤ bufSize then some (readMem buf ptr len) else none

def writeMem (buf : ℕ → Byte) (ptr : ℕ) (data : List Byte) : ℕ → Byte :=
  fun i => if ptr ≤ i ∧ i < ptr+data.length then data.getD (i-ptr) 0 else buf i

/-! ## The sender -/

/-- The bytes of `buf` are those below `bufSize`; `stream` is what went to `fwrite`. -/
structure SenderSubChannel where
  buf : ℕ → Byte
  ptr : ℕ
  counter : ℕ
  stream : List Byte

namespace SenderSubChannel

def sendDataRaw (s : SenderSubChannel) (data : List Byte) : SenderSubChannel :=
  { s with counter := (s.counter+data.length)%2^64, stream := s.stream ++ data }

def sendData (s : SenderSubChannel) (data : List Byte) : SenderSubChannel :=
  if data.length ≤ bufSize-s.ptr then
    { s with buf := writeMem s.buf s.ptr data, ptr := s.ptr+data.length }
  else { (s.sendDataRaw (readMem s.buf 0 s.ptr)).sendDataRaw data with ptr := 0 }

def flush (s : SenderSubChannel) : Option SenderSubChannel := do
  let s1 := s.sendDataRaw (← readBuf s.buf 0 s.ptr)
  let s2 ← if s1.counter%bufSize ≠ 0 then
      (readBuf s1.buf s1.ptr (bufSize-s1.counter%bufSize)).map s1.sendDataRaw else some s1
  return { s2 with ptr := 0 }

/-- The channel after its construction, with any bytes in the buffer. -/
def start (buf : ℕ → Byte) : SenderSubChannel := ⟨buf,0,0,[]⟩

end SenderSubChannel

/-! ## The receiver -/

/-- Inside `recv_data`, `remain` holds how many bytes are missing and those copied already. -/
structure RecverSubChannel where
  buf : ℕ → Byte
  ptr : ℕ
  counter : ℕ
  remain : Option (ℕ × List Byte)
  data : List (List Byte)

namespace RecverSubChannel

def flush (r : RecverSubChannel) : RecverSubChannel := { r with ptr := bufSize }

/-- `recv_data` up to its first read. -/
def recvData (r : RecverSubChannel) (len : ℕ) : RecverSubChannel :=
  if len ≤ bufSize-r.ptr then
    { r with ptr := r.ptr+len, data := r.data ++ [readMem r.buf r.ptr len] }
  else { r with remain := some (len-(bufSize-r.ptr),readMem r.buf r.ptr (bufSize-r.ptr)) }

/-- One turn of the loop in `recv_data`, for a chunk that `recv_data_raw` has read. -/
def recvChunk (r : RecverSubChannel) (remain : ℕ) (got chunk : List Byte) : RecverSubChannel :=
  let buf i := chunk.getD i 0
  let counter := (r.counter+bufSize)%2^64
  if remain ≤ bufSize then
    ⟨buf,remain,counter,none,r.data ++ [got ++ readMem buf 0 remain]⟩
  else ⟨buf,r.ptr,counter,some (remain-bufSize,got ++ readMem buf 0 bufSize),r.data⟩

end RecverSubChannel

/-! ## The two ends under a schedule -/

inductive SendCall
  | data (m : List Byte)
  | flush

inductive RecvCall
  | data (len : ℕ)
  | flush

namespace SenderSubChannel

def call (s : SenderSubChannel) : SendCall → Option SenderSubChannel
  | .data m => some (s.sendData m)
  | .flush => s.flush

def run (s : SenderSubChannel) (calls : List SendCall) : Option SenderSubChannel := calls.foldlM call s

end SenderSubChannel

/-- The call that the receiver makes for a call of the sender. -/
def SendCall.mirror : SendCall → RecvCall
  | .data m => .data m.length
  | .flush => .flush

/-- Both ends with the calls they still have to make. The first `visible` bytes of the stream have
arrived, the receiver has read the first `taken`, and the marks are the bytes written and read at
each flush. -/
structure Link where
  sender : SenderSubChannel
  recver : RecverSubChannel
  toSend : List SendCall
  toRecv : List RecvCall
  visible : ℕ
  taken : ℕ
  sendMarks : List ℕ
  recvMarks : List ℕ

inductive Choice
  | sender
  | recver
  | arrive (n : ℕ)

namespace Link

/-- The link after a flush that has left the sender as `s`. -/
def flushed (l : Link) (s : SenderSubChannel) : Link :=
  { l with
    sender := s, toSend := l.toSend.tail, visible := s.stream.length
    sendMarks := l.sendMarks ++ [s.stream.length] }

def stepSender (l : Link) : Option Link :=
  match l.toSend with
  | [] => some l
  | .data m :: rest => some { l with sender := l.sender.sendData m, toSend := rest }
  | .flush :: _ => l.sender.flush.map l.flushed

/-- The receiver waits while fewer bytes than a chunk have arrived. -/
def stepRecver (l : Link) : Link :=
  match l.recver.remain with
  | some (remain,got) =>
    if l.taken+bufSize ≤ l.visible then
      { l with
        recver := l.recver.recvChunk remain got ((l.sender.stream.drop l.taken).take bufSize)
        taken := l.taken+bufSize }
    else l
  | none =>
    match l.toRecv with
    | [] => l
    | .data len :: rest => { l with recver := l.recver.recvData len, toRecv := rest }
    | .flush :: rest =>
      { l with recver := l.recver.flush, toRecv := rest, recvMarks := l.recvMarks ++ [l.taken] }

def step (l : Link) : Choice → Option Link
  | .sender => l.stepSender
  | .recver => some l.stepRecver
  | .arrive n => some { l with visible := min (l.visible+n) l.sender.stream.length }

def run (l : Link) (sched : List Choice) : Option Link := sched.foldlM step l

/-- Both ends before their first call, with any bytes in the two buffers. -/
def start (sbuf rbuf : ℕ → Byte) (calls : List SendCall) : Link where
  sender := .start sbuf
  recver := ⟨rbuf,bufSize,0,none,[]⟩
  toSend := calls
  toRecv := calls.map SendCall.mirror
  visible := 0
  taken := 0
  sendMarks := []
  recvMarks := []

end Link

/-! ## Positions in the stream -/

/-- Where the stream stands after a call that starts at `p`: a flush rounds up to whole chunks. -/
def advance (p : ℕ) : SendCall → ℕ
  | .data m => p+m.length
  | .flush => (p+(bufSize-1))/bufSize*bufSize

def pos (calls : List SendCall) : ℕ := calls.foldl advance 0

def messages : List SendCall → List (List Byte)
  | [] => []
  | .data m :: rest => m :: messages rest
  | .flush :: rest => messages rest

/-- The position after each flush of calls that start at `p`. -/
def marksFrom (p : ℕ) : List SendCall → List ℕ
  | [] => []
  | .data m :: rest => marksFrom (p+m.length) rest
  | .flush :: rest => advance p .flush :: marksFrom (advance p .flush) rest

lemma bufSize_pos : 0 < bufSize := by norm_num [bufSize]

lemma bufSize_dvd : bufSize ∣ 2^64 := by norm_num [bufSize]

lemma le_advance (p : ℕ) (c : SendCall) : p ≤ advance p c := by
  cases c with
  | data m => exact Nat.le_add_right _ _
  | flush =>
    have hlt := Nat.lt_mul_div_succ (p+(bufSize-1)) bufSize_pos
    have := bufSize_pos
    rw [advance, mul_comm]
    rw [Nat.mul_succ] at hlt
    omega

lemma advance_flush_dvd (p : ℕ) : bufSize ∣ advance p .flush := Dvd.intro_left _ rfl

/-- A flush ends at the one multiple of the chunk size that is close enough. -/
lemma advance_flush_eq {p t : ℕ} (hd : bufSize ∣ t) (hp : p ≤ t) (ht : t < p+bufSize) :
    advance p .flush = t := by
  obtain ⟨c, rfl⟩ := hd
  have hq : (p+(bufSize-1))/bufSize = c := by
    apply Nat.div_eq_of_lt_le
    · rw [mul_comm]; omega
    · rw [Nat.succ_mul, mul_comm c]; omega
  rw [advance, hq, mul_comm]

lemma pos_append (a b : List SendCall) : pos (a ++ b) = b.foldl advance (pos a) := by
  rw [pos, List.foldl_append, pos]

@[simp] lemma pos_concat (a : List SendCall) (c : SendCall) : pos (a ++ [c]) = advance (pos a) c := by
  rw [pos_append, List.foldl_cons, List.foldl_nil]

lemma pos_le_append (a b : List SendCall) : pos a ≤ pos (a ++ b) := by
  induction b using List.reverseRecOn with
  | nil => simp
  | append_singleton b c ih => rw [← List.append_assoc, pos_concat]; exact ih.trans (le_advance _ c)

@[simp] lemma messages_append (a b : List SendCall) : messages (a ++ b) = messages a ++ messages b := by
  induction a with
  | nil => rfl
  | cons c a ih => cases c <;> simp [messages, ih]

lemma marksFrom_append (p : ℕ) (a b : List SendCall) :
    marksFrom p (a ++ b) = marksFrom p a ++ marksFrom (a.foldl advance p) b := by
  induction a generalizing p with
  | nil => rfl
  | cons c a ih => cases c <;> simp [marksFrom, ih, advance]

lemma marksFrom_dvd {p : ℕ} {calls : List SendCall} : ∀ n ∈ marksFrom p calls, bufSize ∣ n := by
  induction calls generalizing p with
  | nil => simp [marksFrom]
  | cons c rest ih =>
    cases c with
    | data m => exact ih
    | flush =>
      simp only [marksFrom, List.forall_mem_cons]
      exact ⟨advance_flush_dvd p,ih⟩

/-- A position before the end of `a` belongs to a call of `a`. -/
lemma prefix_of_pos_lt {a b c d : List SendCall} (h : a ++ b = c ++ d) (hlt : pos c < pos a) :
    ∃ e, a = c ++ e := by
  rcases List.append_eq_append_iff.mp h with ⟨e, rfl, -⟩ | ⟨e, rfl, -⟩
  · have := pos_le_append a e
    omega
  · exact ⟨e,rfl⟩

/-! ## What the sender writes -/

@[simp] lemma readMem_length (buf : ℕ → Byte) (ptr len : ℕ) : (readMem buf ptr len).length = len := by
  simp [readMem]

lemma readMem_congr {f g : ℕ → Byte} {ptr len : ℕ} (h : ∀ i < len, f (ptr+i) = g (ptr+i)) :
    readMem f ptr len = readMem g ptr len :=
  List.map_congr_left fun i hi => h i (List.mem_range.mp hi)

lemma readMem_writeMem (buf : ℕ → Byte) (ptr : ℕ) (data : List Byte) :
    readMem (writeMem buf ptr data) 0 (ptr+data.length) = readMem buf 0 ptr ++ data := by
  rw [readMem, List.range_add, List.map_append, List.map_map]
  congr 1
  · refine readMem_congr fun i hi => ?_
    simp only [writeMem]
    rw [if_neg (by omega)]
  · apply List.ext_getElem
    · simp
    · intro i h0 h1
      simp [writeMem, h1]

namespace SenderSubChannel

/-- The bytes of the calls so far: those written and those still in the buffer. -/
def bytes (s : SenderSubChannel) : List Byte := s.stream ++ readMem s.buf 0 s.ptr

/-- The sender stands at position `p`. -/
structure At (s : SenderSubChannel) (p : ℕ) : Prop where
  ptr : s.ptr ≤ bufSize
  len : s.stream.length+s.ptr = p
  counter : s.counter = s.stream.length%2^64

variable {s : SenderSubChannel} {p : ℕ}

lemma At.bytes_length (h : s.At p) : s.bytes.length = p := by simp [bytes, h.len]

lemma At.sendData (h : s.At p) (m : List Byte) :
    (s.sendData m).At (p+m.length) ∧ (s.sendData m).bytes = s.bytes ++ m ∧
      s.stream <+: (s.sendData m).stream := by
  have hp := h.ptr
  have hl := h.len
  by_cases hm : m.length ≤ bufSize-s.ptr
  · have e : s.sendData m = { s with buf := writeMem s.buf s.ptr m, ptr := s.ptr+m.length } :=
      if_pos hm
    rw [e]
    refine ⟨⟨by simp only; omega,by simp only; omega,h.counter⟩,?_,List.prefix_rfl⟩
    simp only [bytes, readMem_writeMem, List.append_assoc]
  · have e : s.sendData m =
        { (s.sendDataRaw (readMem s.buf 0 s.ptr)).sendDataRaw m with ptr := 0 } := if_neg hm
    rw [e]
    refine ⟨⟨Nat.zero_le _,?_,?_⟩,?_,?_⟩
    · simp only [sendDataRaw, List.length_append, readMem_length]
      omega
    · simp only [sendDataRaw, List.length_append, readMem_length, h.counter]
      omega
    · simp [bytes, sendDataRaw, readMem]
    · simp only [sendDataRaw, List.append_assoc]
      exact List.prefix_append _ _

/-- How many bytes from `buf+ptr` on a flush in this state writes as padding. -/
def padding (s : SenderSubChannel) : ℕ :=
  let counter := (s.counter+s.ptr)%2^64
  if counter%bufSize ≠ 0 then bufSize-counter%bufSize else 0

/-- A flush in this state reads no byte outside the buffer. -/
structure Inside (s : SenderSubChannel) : Prop where
  ptr : s.ptr ≤ bufSize
  slice : s.ptr+s.padding ≤ bufSize

/-- A flush writes the buffer and the padding. -/
def flushed (s : SenderSubChannel) : SenderSubChannel :=
  { s with
    ptr := 0
    counter := (s.counter+s.ptr+s.padding)%2^64
    stream := s.bytes ++ readMem s.buf s.ptr s.padding }

lemma flush_of_inside (h : s.Inside) : s.flush = some s.flushed := by
  have hptr : readBuf s.buf 0 s.ptr = some (readMem s.buf 0 s.ptr) :=
    if_pos ((Nat.zero_add s.ptr).trans_le h.ptr)
  have hslice := h.slice
  simp only [SenderSubChannel.flush, hptr, Option.bind_eq_bind, Option.bind_some, sendDataRaw, readMem_length,
    flushed, padding, bytes] at hslice ⊢
  split_ifs at hslice ⊢ with hz
  · simp only [readBuf, if_pos hslice, Option.map_some, Option.bind_some, sendDataRaw, readMem_length,
      Nat.mod_add_mod]
    rfl
  · simp [readMem]

lemma inside_of_flush {s' : SenderSubChannel} (h : s.flush = some s') : s.Inside := by
  obtain ⟨held, hheld, hrest⟩ := Option.bind_eq_some_iff.mp h
  rw [readBuf] at hheld
  split at hheld
  · next hptr =>
    obtain rfl := Option.some.inj hheld
    refine ⟨(Nat.zero_add s.ptr).symm.trans_le hptr,?_⟩
    simp only [sendDataRaw, readMem_length, readBuf, padding] at hrest ⊢
    split_ifs at hrest ⊢ with hz hslice
    · exact hslice
    · cases hrest
    · omega
  · cases hheld

lemma At.flushed (h : s.At p) : s.flushed.At (advance p .flush) ∧ s.bytes <+: s.flushed.stream := by
  have hmod : (s.counter+s.ptr)%2^64%bufSize = p%bufSize := by
    rw [h.counter, Nat.mod_add_mod, h.len, Nat.mod_mod_of_dvd _ bufSize_dvd]
  have hpad : s.padding = if p%bufSize ≠ 0 then bufSize-p%bufSize else 0 := by
    rw [padding, hmod]
  have hdm := Nat.div_add_mod p bufSize
  have hlt := Nat.mod_lt p bufSize_pos
  have hadv : advance p .flush = p+s.padding := by
    rw [hpad]
    split_ifs with hz
    · exact advance_flush_eq ⟨p/bufSize+1,by rw [Nat.mul_succ]; omega⟩ (by omega) (by omega)
    · exact advance_flush_eq (Nat.dvd_of_mod_eq_zero (not_not.mp hz)) (by omega) (by omega)
  have hlen : s.flushed.stream.length = p+s.padding := by
    rw [SenderSubChannel.flushed, List.length_append, h.bytes_length, readMem_length]
  refine ⟨⟨Nat.zero_le _,?_,?_⟩,List.prefix_append _ _⟩
  · rw [hlen, hadv]
    rfl
  · rw [hlen]
    simp only [SenderSubChannel.flushed, h.counter, ← h.len]
    omega

end SenderSubChannel

/-- As far as bytes have been written, every message lies at its position. -/
def Matches (calls : List SendCall) (stream : List Byte) : Prop :=
  ∀ a m b, calls = a ++ .data m :: b → ∀ i < m.length, pos a+i < stream.length →
    stream.getD (pos a+i) 0 = m.getD i 0

/-- The sender has made the calls `done`. -/
structure Sent (done : List SendCall) (l : Link) : Prop where
  place : l.sender.At (pos done)
  holds : ∀ a m b, done = a ++ .data m :: b → ∀ i < m.length,
    l.sender.bytes.getD (pos a+i) 0 = m.getD i 0
  marks : l.sendMarks = marksFrom 0 done
  flushed : ∀ a b, done = a ++ .flush :: b → advance (pos a) .flush ≤ l.visible
  visible : l.visible ≤ l.sender.stream.length

lemma concat_eq_append_cons {α : Type*} {done a b : List α} {c x : α}
    (h : done ++ [c] = a ++ x :: b) : (a = done ∧ x = c) ∨ ∃ b', done = a ++ x :: b' := by
  rcases List.eq_nil_or_concat b with rfl | ⟨b', y, rfl⟩
  · obtain ⟨rfl, hx⟩ := List.append_inj' h rfl
    exact .inl ⟨rfl,(List.singleton_inj.mp hx).symm⟩
  · rw [List.concat_eq_append, ← List.cons_append, ← List.append_assoc] at h
    exact .inr ⟨b',(List.append_inj' h rfl).1⟩

section sender
variable {calls done : List SendCall} {l : Link}

lemma pos_message_le {a b : List SendCall} {m : List Byte} (h : done = a ++ .data m :: b) :
    pos a+m.length ≤ pos done := by
  have := pos_le_append (a ++ [.data m]) b
  rw [pos_concat, List.append_assoc] at this
  rw [h]
  exact this

lemma Sent.data (h : Sent done l) (m : List Byte) (rest : List SendCall) :
    Sent (done ++ [.data m]) { l with sender := l.sender.sendData m, toSend := rest } := by
  obtain ⟨hat, hbytes, hpre⟩ := h.place.sendData m
  have hlen := h.place.bytes_length
  refine ⟨by rw [pos_concat]; exact hat,?_,?_,?_,h.visible.trans hpre.length_le⟩
  · intro a x b hd i hi
    simp only [hbytes]
    rcases concat_eq_append_cons hd with ⟨rfl, hx⟩ | ⟨b', hd'⟩
    · obtain rfl : x = m := by simpa using hx
      rw [List.getD_append_right _ _ _ _ (by omega), hlen, Nat.add_sub_cancel_left]
    · have := pos_message_le hd'
      rw [List.getD_append _ _ _ _ (by omega)]
      exact h.holds a x b' hd' i hi
  · rw [marksFrom_append]
    simp [marksFrom, h.marks]
  · intro a b hd
    rcases concat_eq_append_cons hd with ⟨-, hx⟩ | ⟨b', hd'⟩
    · cases hx
    · exact h.flushed a b' hd'

lemma Sent.flush (h : Sent done l) : Sent (done ++ [.flush]) (l.flushed l.sender.flushed) := by
  obtain ⟨hat, hpre⟩ := h.place.flushed
  have hlen := h.place.bytes_length
  have hfull : l.sender.flushed.stream.length = advance (pos done) .flush := hat.len
  refine ⟨by rw [pos_concat]; exact hat,?_,?_,?_,le_rfl⟩
  · intro a x b hd i hi
    have hb : l.sender.flushed.bytes = l.sender.flushed.stream := List.append_nil _
    obtain ⟨pad, hpad⟩ := hpre
    rcases concat_eq_append_cons hd with ⟨-, hx⟩ | ⟨b', hd'⟩
    · cases hx
    · have := pos_message_le hd'
      simp only [Link.flushed, hb, ← hpad]
      rw [List.getD_append _ _ _ _ (by omega)]
      exact h.holds a x b' hd' i hi
  · simp only [Link.flushed, h.marks, hfull, marksFrom_append]
    rfl
  · intro a b hd
    simp only [Link.flushed, hfull]
    rcases concat_eq_append_cons hd with ⟨rfl, -⟩ | ⟨b', hd'⟩
    · exact le_rfl
    · have := pos_le_append (a ++ [.flush]) b'
      rw [pos_concat, List.append_assoc, List.cons_append, List.nil_append, ← hd'] at this
      exact this.trans (le_advance _ _)

lemma Sent.matches (h : Sent done l) (hc : calls = done ++ l.toSend) :
    Matches calls l.sender.stream := by
  intro a m b hm i hi hs
  have hlen := h.place.len
  obtain ⟨e, rfl⟩ := prefix_of_pos_lt (hc.symm.trans hm) (by omega : pos a < pos done)
  rw [hc, List.append_assoc] at hm
  have he := List.append_cancel_left hm
  cases e with
  | nil => rw [List.append_nil] at hlen; omega
  | cons x e =>
    obtain ⟨rfl, -⟩ := List.cons.inj he
    have hb := h.holds a m e rfl i hi
    rwa [SenderSubChannel.bytes, List.getD_append _ _ _ _ hs] at hb

end sender

end OramPro.Net
