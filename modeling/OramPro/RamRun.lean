import OramPro.Ram

/-!
# Runs of `Ram`

A run is any sequence of preparations, reads and writes. It is compared with an array of words
that the reads look up and the writes add to.
-/
namespace OramPro

open Party

/-! ## The array -/

inductive Cmd
  | idle
  | get (i : ℕ)
  | add (i : ℕ) (v : Word)

def Cmd.apply (cells : ℕ → Word) : Cmd → (ℕ → Word) × List Word
  | .idle => (cells,[])
  | .get i => (cells,[cells i])
  | .add i v => (Function.update cells i (cells i+v),[])

def runArray : List Cmd → (ℕ → Word) → (ℕ → Word) × List Word
  | [],cells => (cells,[])
  | c :: cs,cells =>
    let (cells',out) := c.apply cells
    let (last,outs) := runArray cs cells'
    (last,out++outs)

/-! ## The four parties -/

/-- Entry `j` of the triple vectors holds what the parties received in one round. -/
structure Ram where
  data : Party → ℕ → Word
  read_triples : List (Party → FssTriple)
  write_triples : List (Party → WriteTuple)

inductive RamOp
  | prepareRead (d : ReadDraw)
  | prepareWrite (d : WriteDraw)
  | read (idex : Party → Word) (is_rep : Bool)
  | readSplit (idex : Party → Word) (is_rep : Bool)
  | write (idex target org : Party → Word) (is_rep : Bool)
  | writeSplit (idex target org : Party → Word) (is_rep add_target : Bool)

/-- The access structure that `init` makes for `N` cells. -/
def ramAccess (prg : ℕ → Block → Block) (prime : ℕ) (N : DataLen) : Fss := ⟨prg,logn N.len,prime⟩

section step
variable (f : Fss) (N : DataLen)

/-- One operation and the values that it leaves with the parties; none without a triple. -/
def Ram.step (r : Ram) : RamOp → Option (Ram × List (Party → Word))
  | .prepareRead d => some ({ r with read_triples := r.read_triples++[prepareRead f N d] },[])
  | .prepareWrite d => some ({ r with write_triples := r.write_triples++[prepareWrite f N d] },[])
  | .read idex is_rep =>
    match r.read_triples with
    | [] => none
    | tr :: rest =>
      some ({ r with read_triples := rest },[read N f tr r.data idex is_rep (· * ·) (· + ·)])
  | .readSplit idex is_rep =>
    match r.read_triples with
    | [] => none
    | tr :: rest =>
      let sent := read1 N tr idex
      some ({ r with read_triples := rest },
        [read2 N f tr r.data idex is_rep (· * ·) (· + ·) sent])
  | .write idex target org is_rep =>
    match r.write_triples with
    | [] => none
    | tr :: rest =>
      some (⟨write N f tr r.data idex target org is_rep,r.read_triples,rest⟩,[])
  | .writeSplit idex target org is_rep add_target =>
    match r.write_triples with
    | [] => none
    | tr :: rest =>
      let sent := write1 N tr idex target org
      some (⟨write2 N f tr r.data idex target org is_rep add_target sent,r.read_triples,rest⟩,[])

def Ram.run (r : Ram) : List RamOp → Option (Ram × List (Party → Word))
  | [] => some (r,[])
  | op :: ops => do
    let (r',out) ← r.step f N op
    let (last,outs) ← r'.run ops
    pure (last,out++outs)

/-- `a_i` of a key that the aid prepares leads to different final seeds. -/
def KeyFine (a : Word) (k : KeyDraw) : Prop := SeedsDiffer f (a.zeroExtend 64) k.root k.level

/-- The shares of `op` open to the arguments of the array command. -/
def RamOp.Opens : RamOp → Cmd → Prop
  | .prepareRead d,.idle => KeyFine f (d.delta0%N.word) d.key0 ∧ KeyFine f (d.delta1%N.word) d.key1
  | .prepareWrite d,.idle => KeyFine f (d.r1%N.word) d.key0 ∧ KeyFine f (d.r2%N.word) d.key1
  | .read idex is_rep,.get i | .readSplit idex is_rep,.get i =>
    i < N.len ∧ if is_rep then
      (idex player0+idex player1).toNat = i ∧ (idex player2+idex player3).toNat = i
    else (open4 idex).toNat = i
  | .write idex target org is_rep,.add i v =>
    (i < N.len ∧ if is_rep then
      (idex player0+idex player2).toNat = i ∧ (idex player1+idex player3).toNat = i
    else (open4 idex).toNat = i) ∧
    Replicated target ∧ Replicated org ∧ openRep target-openRep org = v
  | .writeSplit idex target org is_rep add_target,.add i v =>
    (i < N.len ∧ if is_rep then
      (idex player0+idex player2).toNat = i ∧ (idex player1+idex player3).toNat = i
    else (open4 idex).toNat = i) ∧
    Replicated org ∧ if add_target then open4 target-openRep org = v
    else Replicated target ∧ openRep target-openRep org = v
  | _,_ => False

end step

/-! ## Prepared triples are correct -/

section prepare
variable {f : Fss} {N : DataLen}

/-- The two shares of a hidden position and the two lists of its keys. -/
lemma genKeys_hides (hn : 2 ≤ f.numBits) (h29 : f.numBits ≤ 29) (hN : N.len ≤ 2^f.numBits)
    {a b s : Word} {k : KeyDraw} (hk : KeyFine f a k) (ha : a.toNat < N.len)
    (hs : s.toNat < N.len) :
    Hides N a.toNat b s (sub a s N.word) (ansList N f (genKeys f a b k).1)
      (ansList N f (genKeys f a b k).2) := by
  refine ⟨ha,?_,?_⟩
  · have hw := N.le
    rw [sub_toNat ha hs, mod_add_sub ha hs.le]
    split <;> omega
  · intro x hx
    have hz : (a.zeroExtend 64).toNat = a.toNat :=
      BitVec.toNat_setWidth_of_le (by norm_num)
    have hsub := evaluateEq32_sub (b := b) hk hn h29 hN hx
    rw [hz, Nat.mod_eq_of_lt (by omega)] at hsub
    exact hsub

lemma umod_word_lt (x : Word) : (x%N.word).toNat < N.len := by
  rw [BitVec.toNat_umod, N.word_toNat]
  exact Nat.mod_lt _ N.pos

lemma prepareRead_ok (hn : 2 ≤ f.numBits) (h29 : f.numBits ≤ 29) (hN : N.len ≤ 2^f.numBits)
    {d : ReadDraw} (h0 : KeyFine f (d.delta0%N.word) d.key0)
    (h1 : KeyFine f (d.delta1%N.word) d.key1) : ReadOk N f (prepareRead f N d) :=
  ⟨⟨_,genKeys_hides hn h29 hN h0 (umod_word_lt _) (umod_word_lt _)⟩,
    ⟨_,genKeys_hides hn h29 hN h1 (umod_word_lt _) (umod_word_lt _)⟩⟩

lemma prepareWrite_ok (hn : 2 ≤ f.numBits) (h29 : f.numBits ≤ 29) (hN : N.len ≤ 2^f.numBits)
    {d : WriteDraw} (h0 : KeyFine f (d.r1%N.word) d.key0)
    (h1 : KeyFine f (d.r2%N.word) d.key1) : WriteOk N f (prepareWrite f N d) := by
  refine ⟨rfl,rfl,⟨(d.r1%N.word).toNat,?_⟩,
    ⟨_,genKeys_hides hn h29 hN h1 (umod_word_lt _) (umod_word_lt _)⟩⟩
  have hv : (prepareWrite f N d player0).v+(prepareWrite f N d player2).v = d.v%256 := by
    simp [prepareWrite, isFirst]
  rw [hv]
  exact genKeys_hides hn h29 hN h0 (umod_word_lt _) (umod_word_lt _)

end prepare

/-! ## Runs -/

/-- The parties hold the array as replicated shares, and correct triples. -/
structure Ram.Holds (f : Fss) (N : DataLen) (r : Ram) (cells : ℕ → Word) : Prop where
  rep : ∀ j < N.len, Replicated fun p => r.data p j
  cell : ∀ j < N.len, openRep (fun p => r.data p j) = cells j
  reads : ∀ tr ∈ r.read_triples, ReadOk N f tr
  writes : ∀ tr ∈ r.write_triples, WriteOk N f tr

section run
variable {f : Fss} {N : DataLen} {r r' : Ram} {cells : ℕ → Word} {op : RamOp} {c : Cmd}
  {outs : List (Party → Word)}

lemma Ram.Holds.read (h : r.Holds f N cells) {tr : Party → FssTriple}
    (htr : ReadOk N f tr) {idex : Party → Word} {is_rep : Bool} {i : ℕ}
    (hi : ReadIndex N idex is_rep i) :
    openRead (OramPro.read N f tr r.data idex is_rep (· * ·) (· + ·)) = cells i := by
  rw [← h.cell i hi.lt]
  exact read_word htr hi h.rep

lemma Ram.Holds.dropRead (h : r.Holds f N cells) {tr : Party → FssTriple} {rest}
    (hrest : r.read_triples = tr :: rest) : (Ram.mk r.data rest r.write_triples).Holds f N cells :=
  ⟨h.rep,h.cell,fun tr' htr' => h.reads tr' (by rw [hrest]; exact List.mem_cons_of_mem _ htr'),h.writes⟩

lemma Ram.Holds.write (h : r.Holds f N cells) {tr : Party → WriteTuple} {rest}
    (hrest : r.write_triples = tr :: rest) {idex target org : Party → Word}
    {is_rep add_target : Bool} {i : ℕ} {t : Word} (hi : WriteIndex N idex is_rep i)
    (ht : Target target add_target t) (ho : Replicated org) :
    (Ram.mk (write2 N f tr r.data idex target org is_rep add_target (write1 N tr idex target org))
      r.read_triples rest).Holds f N (Function.update cells i (cells i+(t-openRep org))) := by
  have htr := h.writes tr (by rw [hrest]; exact List.mem_cons_self)
  have hcell := fun j (hj : j < N.len) => write2_open htr hi ht ho hj (h.rep j hj)
  refine ⟨fun j hj => (hcell j hj).1,fun j hj => ?_,h.reads,fun tr' htr' => ?_⟩
  · rw [(hcell j hj).2, h.cell j hj, Function.update_apply]
    split
    · next he => rw [he]
    · rw [add_zero]
  · exact h.writes tr' (by rw [hrest]; exact List.mem_cons_of_mem _ htr')

lemma Ram.Holds.addRead (h : r.Holds f N cells) {tr : Party → FssTriple} (htr : ReadOk N f tr) :
    (Ram.mk r.data (r.read_triples++[tr]) r.write_triples).Holds f N cells := by
  refine ⟨h.rep,h.cell,fun tr' htr' => ?_,h.writes⟩
  rcases List.mem_append.mp htr' with hold | hnew
  · exact h.reads tr' hold
  · rwa [List.mem_singleton.mp hnew]

lemma Ram.Holds.addWrite (h : r.Holds f N cells) {tr : Party → WriteTuple} (htr : WriteOk N f tr) :
    (Ram.mk r.data r.read_triples (r.write_triples++[tr])).Holds f N cells := by
  refine ⟨h.rep,h.cell,h.reads,fun tr' htr' => ?_⟩
  rcases List.mem_append.mp htr' with hold | hnew
  · exact h.writes tr' hold
  · rwa [List.mem_singleton.mp hnew]

/-- Key lists are correct: the tree fits in the buffer and has a leaf for every cell. -/
structure Fits (f : Fss) (N : DataLen) : Prop where
  two : 2 ≤ f.numBits
  le : f.numBits ≤ 29
  len : N.len ≤ 2^f.numBits
  sign : 3*N.len ≤ 2^31

lemma Fits.readIndex (hf : Fits f N) {idex : Party → Word} {is_rep : Bool} {i : ℕ}
    (h : i < N.len ∧ if is_rep then
      (idex player0+idex player1).toNat = i ∧ (idex player2+idex player3).toNat = i
    else (open4 idex).toNat = i) : ReadIndex N idex is_rep i := by
  obtain ⟨hi, h⟩ := h
  cases is_rep
  · exact .below h hi hf.sign
  · exact ⟨.below h.1 hi hf.sign,.below h.2 hi hf.sign⟩

lemma Fits.writeIndex (hf : Fits f N) {idex : Party → Word} {is_rep : Bool} {i : ℕ}
    (h : i < N.len ∧ if is_rep then
      (idex player0+idex player2).toNat = i ∧ (idex player1+idex player3).toNat = i
    else (open4 idex).toNat = i) : WriteIndex N idex is_rep i := by
  obtain ⟨hi, h⟩ := h
  cases is_rep
  · exact .below h hi hf.sign
  · exact ⟨.below h.1 hi hf.sign,.below h.2 hi hf.sign⟩

/-- A read takes the first triple and opens to its cell. -/
lemma Ram.Holds.takeRead (hf : Fits f N) (h : r.Holds f N cells) {tr : Party → FssTriple} {rest}
    (htr : r.read_triples = tr :: rest) {idex : Party → Word} {is_rep : Bool} {i : ℕ}
    (hi : i < N.len ∧ if is_rep then
      (idex player0+idex player1).toNat = i ∧ (idex player2+idex player3).toNat = i
    else (open4 idex).toNat = i) :
    (Ram.mk r.data rest r.write_triples).Holds f N cells ∧
      [openRead (OramPro.read N f tr r.data idex is_rep (· * ·) (· + ·))] = [cells i] := by
  have hok := h.reads tr (by rw [htr]; exact List.mem_cons_self)
  exact ⟨h.dropRead htr,congrArg (fun w => [w]) (h.read hok (hf.readIndex hi))⟩

/-- One operation does on the shares what its command does on the array. -/
lemma Ram.Holds.step (hf : Fits f N) (h : r.Holds f N cells) (hop : op.Opens f N c)
    (hs : r.step f N op = some (r',outs)) :
    r'.Holds f N (c.apply cells).1 ∧ outs.map openRead = (c.apply cells).2 := by
  cases op with
  | prepareRead d =>
    cases c with
    | idle =>
      obtain ⟨rfl, rfl⟩ : _ = r' ∧ [] = outs := by simpa [Ram.step] using hs
      exact ⟨h.addRead (prepareRead_ok hf.two hf.le hf.len hop.1 hop.2),rfl⟩
    | get i => exact hop.elim
    | add i v => exact hop.elim
  | prepareWrite d =>
    cases c with
    | idle =>
      obtain ⟨rfl, rfl⟩ : _ = r' ∧ [] = outs := by simpa [Ram.step] using hs
      exact ⟨h.addWrite (prepareWrite_ok hf.two hf.le hf.len hop.1 hop.2),rfl⟩
    | get i => exact hop.elim
    | add i v => exact hop.elim
  | read idex is_rep =>
    cases c with
    | get i =>
      cases htr : r.read_triples with
      | nil => simp [Ram.step, htr] at hs
      | cons tr rest =>
        obtain ⟨rfl, rfl⟩ : _ = r' ∧ [_] = outs := by simpa [Ram.step, htr] using hs
        exact h.takeRead hf htr hop
    | idle => exact hop.elim
    | add i v => exact hop.elim
  | readSplit idex is_rep =>
    cases c with
    | get i =>
      cases htr : r.read_triples with
      | nil => simp [Ram.step, htr] at hs
      | cons tr rest =>
        obtain ⟨rfl, rfl⟩ : _ = r' ∧ [_] = outs := by simpa [Ram.step, htr] using hs
        exact h.takeRead hf htr hop
    | idle => exact hop.elim
    | add i v => exact hop.elim
  | write idex target org is_rep =>
    cases c with
    | add i v =>
      cases htr : r.write_triples with
      | nil => simp [Ram.step, htr] at hs
      | cons tr rest =>
        obtain ⟨rfl, rfl⟩ : _ = r' ∧ [] = outs := by simpa [Ram.step, htr] using hs
        obtain ⟨hi, ht, ho, rfl⟩ := hop
        have htarget : Target target false (openRep target) := ⟨ht,rfl⟩
        exact ⟨h.write htr (hf.writeIndex hi) htarget ho,rfl⟩
    | idle => exact hop.elim
    | get i => exact hop.elim
  | writeSplit idex target org is_rep add_target =>
    cases c with
    | add i v =>
      cases htr : r.write_triples with
      | nil => simp [Ram.step, htr] at hs
      | cons tr rest =>
        obtain ⟨rfl, rfl⟩ : _ = r' ∧ [] = outs := by simpa [Ram.step, htr] using hs
        obtain ⟨hi, ho, ht⟩ := hop
        cases add_target
        · obtain ⟨ht, rfl⟩ := ht
          have htarget : Target target false (openRep target) := ⟨ht,rfl⟩
          exact ⟨h.write htr (hf.writeIndex hi) htarget ho,rfl⟩
        · subst ht
          have htarget : Target target true (open4 target) := rfl
          exact ⟨h.write htr (hf.writeIndex hi) htarget ho,rfl⟩
    | idle => exact hop.elim
    | get i => exact hop.elim

lemma Ram.Holds.run (hf : Fits f N) {ops : List RamOp} {cs : List Cmd} (h : r.Holds f N cells)
    (hops : List.Forall₂ (RamOp.Opens f N) ops cs) (hr : r.run f N ops = some (r',outs)) :
    r'.Holds f N (runArray cs cells).1 ∧ outs.map openRead = (runArray cs cells).2 := by
  induction hops generalizing r cells outs with
  | nil =>
    obtain ⟨rfl, rfl⟩ : r = r' ∧ [] = outs := by simpa [Ram.run] using hr
    exact ⟨h,rfl⟩
  | cons hop _ ih =>
    simp only [Ram.run, bind, Option.bind_eq_some_iff, pure, Option.some.injEq, Prod.exists,
      Prod.mk.injEq] at hr
    obtain ⟨r1, out, hstep, r2, outs2, hrest, rfl, rfl⟩ := hr
    obtain ⟨h1, ho1⟩ := h.step hf hop hstep
    obtain ⟨h2, ho2⟩ := ih h1 hrest
    exact ⟨h2,by rw [List.map_append, ho1, ho2]; rfl⟩

end run

/-- Over a whole run, with at most `2^29` cells, the shares behave as an array. -/
theorem ram_run_array {prg : ℕ → Block → Block} {prime : ℕ} {N : DataLen} {data : Party → ℕ → Word}
    {cells : ℕ → Word} {ops : List RamOp} {cs : List Cmd} {r : Ram} {outs : List (Party → Word)}
    (hlog : 2 ≤ logn N.len) (h3 : 3*N.len ≤ 2^31) (h29 : N.len ≤ 2^29)
    (hrep : ∀ j < N.len, Replicated fun p => data p j)
    (hcell : ∀ j < N.len, openRep (fun p => data p j) = cells j)
    (hops : List.Forall₂ (RamOp.Opens (ramAccess prg prime N) N) ops cs)
    (hr : (Ram.mk data [] []).run (ramAccess prg prime N) N ops = some (r,outs)) :
    outs.map openRead = (runArray cs cells).2 ∧
      ∀ j < N.len, (Replicated fun p => r.data p j) ∧
        openRep (fun p => r.data p j) = (runArray cs cells).1 j := by
  obtain ⟨hle, -, hmin⟩ := logn_spec (N.le.trans (by norm_num))
  have hf : Fits (ramAccess prg prime N) N := ⟨hlog,hmin 29 (by norm_num) h29,hle,h3⟩
  have h0 : (Ram.mk data [] []).Holds (ramAccess prg prime N) N cells :=
    ⟨hrep,hcell,List.forall_mem_nil _,List.forall_mem_nil _⟩
  obtain ⟨h, ho⟩ := h0.run hf hops hr
  exact ⟨ho,fun j hj => ⟨h.rep j hj,h.cell j hj⟩⟩

/-! ## A concrete generator -/

/-- A compression that copies seeds and outputs zero control bytes. -/
def copyPrg (i : ℕ) (k : Block) : Block := if i < 2 then k else 0

/-- Root seeds that differ in their first byte, and zero for all other draws. -/
def copyKey : KeyDraw where
  root := ⟨0,1,0,0,0⟩
  level _ := ⟨0,0,0,0,0⟩

@[simp] lemma copy_prfSeed (k : Block) (b : Bool) : prfSeed copyPrg k b = k := by
  cases b <;> simp [prfSeed, copyPrg]

@[simp] lemma copy_prfBit (k : Block) (b : Bool) : prfBit copyPrg k b = false := by
  cases b <;> simp [prfBit, prfByte, copyPrg, byteAt]

lemma copy_path (bits : ℕ → Bool) (d : ℕ) :
    path copyPrg bits copyKey.root copyKey.level d = ⟨0,1,false,true⟩ := by
  induction d with
  | zero => simp [path, rootPath, copyKey]
  | succ d ih =>
    rw [path, ih]
    simp [nextPath, child, levelCw, copyKey]

lemma copyKey_fine (f : Fss) (hf : f.prg = copyPrg) (a : Word) : KeyFine f a copyKey := by
  unfold KeyFine SeedsDiffer
  simp only [hf, copy_path]
  decide

/-- Four cells: a write of 5 to cell 2, then a read of that cell. -/
theorem ram_run_array_four :
    let N : DataLen := ⟨4,by norm_num,by norm_num⟩
    let idex : Party → Word := fun p => if p = player0 then 2 else 0
    let five : Party → Word := fun p => if p.isFirst then 5 else 0
    let ops := [.prepareWrite ⟨1,3,7,1,0,9,copyKey,copyKey⟩,
      .prepareRead ⟨3,2,1,1,copyKey,copyKey⟩,.writeSplit idex five (fun _ => 0) false false,
      .readSplit idex false]
    ∃ r outs, (Ram.mk (fun _ _ => 0) [] []).run (ramAccess copyPrg 0 N) N ops = some (r,outs) ∧
      outs.map openRead = [5] := by
  intro N idex five ops
  have hf : ∀ a, KeyFine (ramAccess copyPrg 0 N) a copyKey := copyKey_fine _ rfl
  have hops : List.Forall₂ (RamOp.Opens (ramAccess copyPrg 0 N) N) ops
      [.idle,.idle,.add 2 5,.get 2] := by
    refine .cons ⟨hf _,hf _⟩ (.cons ⟨hf _,hf _⟩ (.cons ?_ (.cons ?_ .nil)))
    · exact ⟨⟨by decide,by decide⟩,⟨rfl,rfl⟩,⟨rfl,rfl⟩,by decide⟩
    · exact ⟨by decide,by decide⟩
  refine ⟨_,_,rfl,?_⟩
  exact (ram_run_array (by decide) (by decide) (by decide) (fun _ _ => ⟨rfl,rfl⟩)
    (fun _ _ => rfl) hops rfl).1

end OramPro
