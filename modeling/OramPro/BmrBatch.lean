import OramPro.BmrRun

/-!
# Batches

`offline(lens)` and the two `online` functions that follow it. All instances share the vectors of
a party: the loops over gates put instance `k` at `k*num_gate`, the vectors have `lens*num_wire`
places, and the constructors draw the input labels at `2*k*in_size` and pair them at
`2*k*num_wire`.
-/
namespace OramPro.BMR

open Netlist

def Circuit.num_gate (cf : Circuit) : ℕ := cf.gates.length

/-- With an owner the masks are shared by `SPDZXOR::share`: the seeds that the owner has in common
with every other party are the masks of these parties. -/
structure BatchDraw extends Draw where
  seed : ℕ → ℕ → Byte

section construct
variable (c : Config) (d : BatchDraw) (p : ℕ) (cf : Circuit) (lens : ℕ)

/-- `share` with XOR, as `add_share` computes it. -/
def share (owner : ℕ) (data : ℕ → Byte) (i : ℕ) : Byte :=
  if p = owner then (c.others owner).foldl (fun x q => x ^^^ d.seed q i) (data i) else d.seed p i

/-- `maskbits` of the constructors; without an owner every party draws its own bits. -/
def startMasks : Option ℕ → Buf Byte
  | none => ⟨lens*cf.num_wire,fun i => d.maskbits p i%2⟩
  | some owner => ⟨lens*cf.num_wire,share c d p owner fun i => d.maskbits owner i%2⟩

def startAmasks (owner : Option ℕ) : Buf Byte :=
  if owner.isSome then startMasks c d p cf lens owner else ⟨0,fun _ => 0⟩

def startLabels : Except Fault (Buf Block) :=
  (List.range lens).foldlM (fun Ks k =>
    (List.range cf.in_size).foldlM (inputLabel d.toDraw p (2*k*cf.in_size) (2*k*cf.num_wire) k) Ks)
    ⟨lens*cf.num_wire*2,fun _ => 0⟩

end construct

/-! ## Offline -/

section offline
variable (c : Config) (hash : Hash) (d : BatchDraw) (owner : Option ℕ) (cf : Circuit) (lens : ℕ)

structure Masks where
  maskbits : Buf Byte
  Amaskbits : Buf Byte
  deriving Inhabited

/-- `XOR` and `NOT` gates change both vectors in the same way. -/
def maskGates (p o : ℕ) (s : Masks) (g : Gate) : Except Fault Masks := do
  let m ← maskGate p o s.maskbits g
  return ⟨m,← maskGate p o s.Amaskbits g⟩

structure BatchOffline extends Offline where
  Amaskbits : Buf Byte

/-- A constructor and `offline(lens)` of all parties. -/
def offlineBatch : Except Fault (ℕ → BatchOffline) := do
  let masks ← collect c.players_num fun p =>
    (List.range lens).foldlM (fun s k => cf.gates.foldlM (maskGates p (cf.num_gate*k)) s)
      ⟨startMasks c d p cf lens owner,startAmasks c d p cf lens owner⟩
  let opened := fun p => openBits c p fun q => (masks q).maskbits
  let garbled ← collect c.players_num fun p => do
    let Ks ← startLabels d p cf lens
    (List.range lens).foldlM (fun s w =>
      cf.gates.zipIdx.foldlM (garbleGate c hash d.toDraw p (w*cf.num_gate) w (opened p)) s) ⟨Ks,[]⟩
  return fun p =>
    ⟨⟨opened p,(garbled p).Ks,openTabs c p fun q => (garbled q).tabs⟩,(masks p).Amaskbits⟩

end offline

/-! ## Online -/

section online
variable (c : Config) (hash : Hash) (d : BatchDraw) (cf : Circuit) (lens : ℕ)

def holderRows (opened : Buf Byte) (datas : List (List Byte)) (h : Holder) :
    Except Fault (List (Byte × ℕ)) := do
  let rows ← (List.range lens).mapM fun k => (List.range' h.first (h.last-h.first)).mapM fun i => do
    let row ← (Buf.ofList datas []).get k
    let x ← (Buf.ofList row 0).get (i-h.first)
    return (x ^^^ (← opened.get (k*cf.num_gate+i)),k*cf.num_gate+i)
  return rows.flatten

/-- `temp_blk`: the labels of all instances, which `Lambda_bits` of the first one selects. -/
def pickRows (Ks : Buf Block) (Lambda : Buf Byte) : Except Fault (List Block) := do
  let rows ← (List.range lens).mapM fun k => (List.range cf.in_size).mapM fun i => do
    Ks.get (i*2+(← Lambda.get i).toNat+k*cf.num_gate*2)
  return rows.flatten

/-- The bytes of the blocks in memory, the lowest byte of a block first. -/
def byteAt (l : List Block) (n : ℕ) : Byte := (l.getD (n/16) 0 >>> (8*(n%16))).setWidth 8

/-- The block at an address in bytes. -/
def blockAt (l : List Block) (n : ℕ) : Block :=
  (List.range 16).foldl (fun x k => x ||| (byteAt l (n+k)).setWidth 128 <<< (8*k)) 0

def ownLabels (sent : List Block) : Except Fault (Buf Block) :=
  (List.range lens).foldlM (fun K k => (List.range cf.in_size).foldlM (fun K i =>
    K.set (i+k*cf.num_gate) (sent.getD (k*cf.in_size+i) 0)) K) ⟨cf.num_wire*lens,fun _ => 0⟩

/-- The labels of another party; the source of the copy is advanced by bytes. -/
def otherLabels (sent : List Block) : Except Fault (Buf Block) :=
  (List.range lens).foldlM (fun K k => (List.range cf.in_size).foldlM (fun K i =>
    K.set (k*cf.num_gate+i) (blockAt sent (k*cf.in_size+16*i))) K) ⟨cf.num_wire*lens,fun _ => 0⟩

def gatherRows (p : ℕ) (sent : ℕ → List Block) : Except Fault (ℕ → Buf Block) := do
  let own ← ownLabels cf lens (sent p)
  (c.others p).foldlM (fun Ks_pickeds q => do
    return Function.update Ks_pickeds (getIdex q) (← otherLabels cf lens (sent q)))
    (Function.update (fun _ => ⟨0,fun _ => 0⟩) (getIdex p) own)

/-- The part that both `online` functions share: labels, then gates. -/
def evalRows (off : ℕ → BatchOffline) (Lambda : ℕ → Buf Byte) : Except Fault (ℕ → Eval) := do
  let sent ← collect c.players_num fun q => pickRows cf lens (off q).Ks (Lambda q)
  collect c.players_num fun p => do
    let Ks_pickeds ← gatherRows c cf lens p sent
    (List.range lens).foldlM (fun s w =>
      cf.gates.zipIdx.foldlM (evalGate c hash (d.R p) p (off p).Ks (off p).tabs (w*cf.num_gate)) s)
      ⟨Lambda p,Ks_pickeds,0⟩

def outWires : List ℕ := List.range' (cf.num_wire-cf.n3) cf.n3

/-- `online(holder, datas, lens)` of all parties, with the outputs that it prints. -/
def onlineBatch (off : ℕ → BatchOffline) (holder : List Holder) (datas : ℕ → List (List Byte)) :
    Except Fault (ℕ → List (List Byte)) := do
  let Lambda ← collect c.players_num fun _ =>
    holder.foldlM (fun L h => do
      setBits L (← holderRows cf lens (off h.player).opened_bits (datas h.player) h))
      ⟨lens*cf.num_wire,fun _ => 0⟩
  let ev ← evalRows c hash d cf lens off Lambda
  collect c.players_num fun p => (List.range lens).mapM fun w => (outWires cf).mapM fun i => do
    return (← (ev p).Lambda_bits.get (w*cf.num_gate+i)) ^^^
      (← (off p).opened_bits.get (w*cf.num_gate+i))

/-- `player0` flips its share of an output mask where the masked value is set. -/
def flipOut (p i : ℕ) (Lambda A : Buf Byte) : Except Fault (Buf Byte) :=
  if p = 0 then do
    if (← Lambda.get i) ≠ 0 then A.set i ((← A.get i) ^^^ 1) else return A
  else return A

/-- `online(verify)` of all parties, with `res`. `Lambda_bits` of the inputs is set before. -/
def onlineVerify (off : ℕ → BatchOffline) (Lambda : ℕ → Buf Byte) :
    Except Fault (ℕ → List Byte) := do
  let ev ← evalRows c hash d cf lens off Lambda
  collect c.players_num fun p => do
    let s ← (List.range lens).foldlM (fun s w => (outWires cf).foldlM (fun s i => do
      let A ← flipOut p (w*cf.num_gate+i) (ev p).Lambda_bits s.1
      return (A,s.2++[← A.get (w*cf.num_gate+i)])) s) ((off p).Amaskbits,([] : List Byte))
    return s.2

end online

end OramPro.BMR
